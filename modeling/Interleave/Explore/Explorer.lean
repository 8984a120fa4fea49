import Interleave.Config.Basic
import Interleave.Explore.Trail

set_option autoImplicit false

/-! An explorer walks over the states of a program: `Explorer.forward` takes the next alternative of
the current state, `Explorer.backtrack?` undoes the last step, and a trail that was kept can be
taken up again by `Explorer.restore`. Every state it reaches is entered into the table of visited
states. -/

namespace Interleave

/-- What neither a program nor its configuration determines: where each hash table, by its number,
lists its members, and what short hash a fingerprint has. -/
structure Hashing where
  arrange : Nat → Arrangement Handle
  short : Fingerprint → Nat

/-- A new member comes last in every other table, and first in the rest. -/
def Hashing.usual : Hashing where
  arrange n members _ := if n % 2 = 0 then [] else members.length :: List.range members.length
  short := Fingerprint.shortHash

structure Model where
  program : Program
  symmetry : Symmetry
  policy : SerializerPolicy
  masks : Masks
  arrange : Nat → Arrangement Handle

namespace Model

/-- Nothing is hashed where collections are sorted or none is ever made. -/
def ofConfig (p : Program) (c : Config) (hashing : Hashing := .usual) : Except MaskError Model := do
  return { program := p
           symmetry := c.symmetry
           policy := c.policy
           masks := ← Masks.ofProgram p c.filter
           arrange := if c.symmetry = .fast ∧ p.makesCollections then hashing.arrange
             else fun _ _ _ => [] }

def layout (m : Model) (tables : List (Handle × Nat)) : Layout :=
  ⟨m.symmetry, fun h => m.arrange ((tables.lookup h).getD 0)⟩

def fingerprint (m : Model) (s : State) : Except MaskError Fingerprint :=
  s.fingerprint m.policy m.masks

end Model

inductive ExploreError where
  | mask (e : MaskError)
  | defect (d : Defect)
deriving DecidableEq

def ExploreError.message : ExploreError → String
  | mask e => "state serialization failed: " ++ e.message
  | defect d => d.message

structure Move where
  thread : ThreadId
  frame : StackFrame
  data : Option Int64

def Move.makesCollection (move : Move) (p : Program) : Bool :=
  (p.statement? move.frame.method move.frame.pc).any (·.value.makesCollection)

def Model.transition (m : Model) (s : State) (move : Move) (stateId : StateId) : Transition where
  thread := move.thread
  threadName := (s.threads[move.thread]?.map (·.name)).getD ""
  choice := move.data
  label := m.program.label move.frame.method move.frame.pc
  place := (m.program.statement? move.frame.method move.frame.pc).map fun stmt =>
    ⟨m.program.path, stmt.span⟩
  stateId

structure Successor where
  state : State
  fault : Option Uncaught
  fingerprint : Fingerprint

structure Explorer where
  model : Model
  table : StateTable
  trail : Trail
  isNew : Bool
  random : Option Random.Source
  births : Nat

namespace Explorer

def start (p : Program) (c : Config) (hashing : Hashing := .usual) :
    Except ExploreError Explorer := do
  let model ← (Model.ofConfig p c hashing).mapError .mask
  let state ← p.initialState.mapError .defect
  let f ← (model.fingerprint state).mapError .mask
  let (stateId, _, table) := (StateTable.empty c.stateSet hashing.short).add f
  let node : Node :=
    { birth := 0
      state
      stateId
      agenda := Agenda.ofState state
      transition := none
      fault := none
      tables := [] }
  return { model, table, trail := ⟨node, []⟩, isNew := true, random := none, births := 1 }

def state (x : Explorer) : State := x.trail.top.state

def layout (x : Explorer) : Layout := x.model.layout x.trail.top.tables

def stateId (x : Explorer) : StateId := x.trail.top.stateId

def depth (x : Explorer) : Nat := x.trail.depth

def path (x : Explorer) : List Transition := x.trail.path

def isEnd (x : Explorer) : Bool := x.state.isEnd

def isDeadlocked (x : Explorer) : Bool := x.state.isDeadlocked

def fault (x : Explorer) : Option Uncaught := x.trail.top.fault

def visited (x : Explorer) : Nat := x.table.size

def currentThread (x : Explorer) : Option ThreadId := x.trail.top.transition.map (·.thread)

def lastChoice (x : Explorer) : Option Choice := x.trail.top.transition.map (·.decision)

def threadViews (x : Explorer) : List ThreadView := x.model.program.threadViews x.state

def fingerprint (x : Explorer) : Except ExploreError Fingerprint :=
  (x.model.fingerprint x.state).mapError .mask

def violated (x : Explorer) : Except ExploreError (Option String) :=
  (x.model.program.violated x.state).mapError .defect

def schedule? (x : Explorer) : Option ChoicePoint := x.trail.top.agenda.map (·.schedule)

def setAgenda (x : Explorer) (agenda : Option Agenda) : Explorer :=
  { x with trail := x.trail.setAgenda agenda }

def setSchedule (x : Explorer) (schedule : ChoicePoint) : Explorer :=
  x.setAgenda (some ⟨schedule, none⟩)

def modifySchedule (x : Explorer) (f : ChoicePoint → ChoicePoint) : Explorer :=
  x.setAgenda (x.trail.top.agenda.map fun a => { a with schedule := f a.schedule })

def shuffleSchedule (x : Explorer) (s : Random.Source) : Explorer × Random.Source :=
  match x.trail.top.agenda with
  | none => (x, s)
  | some a =>
    let (schedule, s) := a.schedule.randomize s
    (x.setAgenda (some { a with schedule }), s)

def randomizeChoices (x : Explorer) (seed : UInt64) : Explorer :=
  { x with random := some (.ofSeed seed) }

def openChoice (random : Option Random.Source) (id : String) (min max : Int64) :
    Option Interval × Option Random.Source :=
  let g := (Interval.between id min max).setCascaded true
  match random with
  | none => (g.advance?, none)
  | some s =>
    let (g, s) := g.randomize s
    (g.advance?, some s)

def scheduled (s : State) (schedule : ChoicePoint) : Except ExploreError (ThreadId × StackFrame) :=
  match schedule.current? with
  | some (.thread t) =>
    match s.topFrame? t with
    | some frame => .ok (t, frame)
    | none => .error (.defect (.noFrame t))
  | _ => .error (.defect (.noChoice "schedule"))

/-- Takes the next alternative of the current state. A thread that was just scheduled and whose
statement chooses an integer starts with the first one. -/
def decide (x : Explorer) : Except ExploreError (Option Move) × Explorer :=
  match x.trail.top.agenda with
  | none => (.ok none, x)
  | some agenda =>
    match agenda.advance with
    | (some fresh, some agenda) =>
      match scheduled x.state agenda.schedule with
      | .error e => (.error e, x.setAgenda (some agenda))
      | .ok (t, frame) =>
        match (x.model.program.statement? frame.method frame.pc).bind (·.value.choice?), fresh with
        | some (min, max), true =>
          match openChoice x.random frame.choiceId min max with
          | (none, random) =>
            (.error (.defect (.noChoice frame.choiceId)),
              { x.setAgenda (some agenda) with random })
          | (some data, random) =>
            (.ok (some ⟨t, frame, data.current?⟩),
              { x.setAgenda (some { agenda with data := some data }) with random })
        | _, _ =>
          (.ok (some ⟨t, frame, agenda.data.bind Interval.current?⟩), x.setAgenda (some agenda))
    | (_, agenda) => (.ok none, x.setAgenda agenda)

def successor (x : Explorer) (move : Move) : Except ExploreError Successor := do
  let (state, fault) ←
    (x.model.program.execute x.layout x.state move.thread move.data).mapError .defect
  return ⟨state, fault, ← (x.model.fingerprint state).mapError .mask⟩

def enter (x : Explorer) (move : Move) (next : Successor) : Explorer :=
  match x with
  | { model, table, trail, isNew := _, random, births } =>
    let (stateId, isNew, table) := table.add next.fingerprint
    let node : Node :=
      { birth := births
        state := next.state
        stateId
        agenda := Agenda.ofState next.state
        transition := some (model.transition trail.top.state move stateId)
        fault := next.fault
        tables := if move.makesCollection model.program then
            (trail.top.state.heap.cells.length, births) :: trail.top.tables
          else trail.top.tables }
    { model, table, trail := trail.push node, isNew, random, births := births + 1 }

/-- Takes the next alternative of the current state and goes where it leads; false when no
alternative is left. -/
def forward (x : Explorer) : Except ExploreError Bool × Explorer :=
  match x.decide with
  | (.error e, x) => (.error e, x)
  | (.ok none, x) => (.ok false, x)
  | (.ok (some move), x) =>
    match x.successor move with
    | .error e => (.error e, x)
    | .ok next => (.ok true, x.enter move next)

def backtrack? (x : Explorer) : Option Explorer :=
  x.trail.back?.map fun trail => { x with trail, isNew := false }

def restore (x : Explorer) (trail : Trail) : Explorer := { x with trail, isNew := false }

/-- Frees what nothing reaches in the states of the trail that no kept trail holds; tells how many
objects there were. -/
def collect (x : Explorer) (held : List Trail) : Nat × Explorer :=
  let (freed, trail) := x.trail.collect held
  (freed, { x with trail })

end Explorer

end Interleave
