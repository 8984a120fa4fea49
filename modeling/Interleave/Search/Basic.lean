import Interleave.Search.Listener
import Interleave.Search.Property

set_option autoImplicit false

/-! A search drives an explorer, keeps the books of its run, checks properties and limits, and tells
listeners what happens. This module holds the actions that the strategies are made of; each action
may fail, and what happened up to then is kept. -/

namespace Interleave

inductive SearchError where
  | explore (after : String) (e : ExploreError)
  | property (name after : String) (e : PropertyError)
  | listener (name event reason : String)
  | config (problem : String)
deriving DecidableEq

def SearchError.message : SearchError → String
  | explore after e => "vm failed after " ++ after ++ ": " ++ e.message
  | property name after e =>
    "property '" ++ name ++ "' could not be evaluated after " ++ after ++ ": " ++ e.message
  | listener name event reason =>
    "listener '" ++ name ++ "' failed in " ++ event ++ ": " ++ reason
  | config problem => "invalid search configuration: " ++ problem

/-- The memory in use, in megabytes, each time it is asked for. -/
structure Probe where
  reading : Nat → Option Nat
  asked : Nat

namespace Probe

def always (used : Option Nat) : Probe := ⟨fun _ => used, 0⟩

def ofList (readings : List (Option Nat)) : Probe :=
  ⟨fun i => (readings[i]?.getD (readings.getLastD none)), 0⟩

def ask (p : Probe) : Option Nat × Probe := (p.reading p.asked, { p with asked := p.asked + 1 })

end Probe

structure Search where
  explorer : Explorer
  config : Config
  properties : List Property
  /-- What the properties remember, by their positions. -/
  memory : List (Nat × Option String)
  listeners : Registry
  session : Session
  probe : Probe
  stop : Bool
  deliveries : List Delivery
  journal : Journal

abbrev Run (α : Type) := ExceptT SearchError (StateM Search) α

namespace Search

def new (x : Explorer) (config : Config) : Except SearchError Search :=
  match config.problem? with
  | some problem => .error (.config problem)
  | none => .ok {
      explorer := x
      config
      properties := []
      memory := []
      listeners := []
      session := .empty
      probe := .always none
      stop := false
      deliveries := []
      journal := .empty .error }

def heard (s : Search) (id : Nat) : List Callback :=
  (s.deliveries.filter (·.listener = id)).map (·.callback)

def lastTransition (s : Search) : String :=
  match s.explorer.trail.top.transition with
  | some t => t.text
  | none => "initial state"

def depthLimitReached (s : Search) : Bool := s.config.depthLimit.any (· ≤ s.session.depth)

def withExplorer {α : Type} (f : Explorer → α × Explorer) : Run α :=
  modifyGet fun
    | ⟨explorer, config, properties, memory, listeners, session, probe, stop, deliveries, journal⟩ =>
      let (a, explorer) := f explorer
      (a, ⟨explorer, config, properties, memory, listeners, session, probe, stop, deliveries,
        journal⟩)

def modifySession (f : Session → Session) : Run Unit :=
  modify fun
    | ⟨explorer, config, properties, memory, listeners, session, probe, stop, deliveries, journal⟩ =>
      ⟨explorer, config, properties, memory, listeners, f session, probe, stop, deliveries, journal⟩

def modifyStats (f : Stats → Stats) : Run Unit :=
  modifySession fun b => { b with stats := f b.stats }

def note (level : Level) (origin message : String) (values : List (String × String)) : Run Unit :=
  modify fun s => { s with journal := s.journal.add ⟨level, origin, message, values⟩ }

def deliver (c : Callback) (entry : Registered) : Run Unit := do
  let s ← get
  let reaction := entry.listener.react c fun _ => s.heard entry.id
  set { s with
    deliveries := ⟨entry.id, c⟩ :: s.deliveries
    stop := s.stop || reaction.stop
    journal := reaction.notes.foldl Journal.add s.journal }
  match reaction.refusal with
  | some reason => throw (.listener entry.listener.name c.event.name reason)
  | none => return

def deliverAll (c : Callback) : List Registered → Run Unit
  | [] => return
  | entry :: rest => do
    deliver c entry
    deliverAll c rest

def emit (event : Event) : Run Unit := do
  let s ← get
  match Registry.order s.listeners event with
  | [] => return
  | entries => deliverAll ⟨event, s.session, s.explorer⟩ entries

def checkTerminated : Run Bool := do
  let s ← get
  if s.stop then
    if !s.session.terminated then
      note .info "search" "search terminated on request" []
    modifySession fun b => { b with terminated := true, done := true }
  return (← get).session.terminated

def noteStep : Run Unit := do
  let s ← get
  if s.journal.keeps .trace then
    match s.explorer.trail.top.transition, s.explorer.fingerprint with
    | some t, .ok f =>
      note .trace "program_vm" "step"
        [("thread", threadText t.thread), ("label", t.label), ("state_id", toString t.stateId),
          ("is_new", flagText s.explorer.isNew), ("fingerprint", f.hex)]
    | _, _ => return

def forward : Run Bool := do
  match ← withExplorer Explorer.forward with
  | .ok moved =>
    if moved then noteStep
    return moved
  | .error e => throw (.explore (← get).lastTransition e)

def backtrack : Run Bool := do
  let moved ← withExplorer fun x =>
    match x.backtrack? with
    | some x => (true, x)
    | none => (false, x)
  if moved then
    let depth := (← get).explorer.depth
    modifySession fun b => { b with
      depth, isNew := false, stats := { b.stats with backtracked := b.stats.backtracked + 1 } }
    emit .stateBacktracked
  return moved

def processed : Run Unit := do
  modifyStats fun s => { s with processed := s.processed + 1 }
  emit .stateProcessed

def stored : Run Trail := do
  let trail := (← get).explorer.trail
  emit .stateStored
  return trail

def restore (trail : Trail) : Run Unit := do
  withExplorer fun x => ((), x.restore trail)
  let depth := (← get).explorer.depth
  modifySession fun b => { b with
    depth, isNew := false, stats := { b.stats with restored := b.stats.restored + 1 } }
  emit .stateRestored

def takeIgnored : Run Bool := do
  let ignored := (← get).session.ignored
  modifySession fun b => { b with ignored := false }
  return ignored

def constraintHit (c : Constraint) : Run Unit := do
  note .debug "search" "search constraint hit" [("constraint", c.text)]
  emit (.constraintHit c)
  modifySession fun b =>
    if c ∈ b.constraints then b else { b with constraints := b.constraints ++ [c] }

def violation (s : Search) (property message : String) : Violation where
  id := s.session.errors.length + 1
  property
  message
  depth := s.session.depth
  path := s.explorer.path
  threads := s.explorer.threadViews

def record (property message : String) : Run Unit := do
  let error := (← get).violation property message
  note .info "search" ("property violated" ++ message)
    [("property", property), ("depth", toString error.depth)]
  modifySession fun b => { b with errors := b.errors ++ [error] }
  emit (.propertyViolated error)

def recalled (s : Search) (i : Nat) : Option String := (s.memory.lookup i).join

def remember (i : Nat) (message : Option String) : Run Unit :=
  modify fun s => { s with memory := (i, message) :: s.memory.filter (·.1 ≠ i) }

/-- Checks the property at a position; gives the message of the violation, if there is one. The
property forgets it again when the search is to go on. -/
def checkProperty (i : Nat) (p : Property) : Run (Option String) := do
  let s ← get
  match p.check s.session s.explorer with
  | .error e => throw (.property p.name s.lastTransition e)
  | .ok none => return none
  | .ok (some finding) =>
    remember i finding.remembered
    if finding.violated then
      let message := ((← get).recalled i).getD ("property " ++ p.name ++ " violated")
      if s.config.reportAllErrors then remember i none
      return some message
    else return none

/-- Checks the properties from a position on; tells whether one is violated. Unless all errors are
wanted, the first violation is the last. -/
def checkProperties (i : Nat) : List Property → Run Bool
  | [] => return false
  | p :: rest => do
    match ← checkProperty i p with
    | none => checkProperties (i + 1) rest
    | some message =>
      record p.name message
      if (← get).config.reportAllErrors then
        let _ ← checkProperties (i + 1) rest
      return true

def askMemory : Run (Option Nat) := modifyGet fun s =>
  let (used, probe) := s.probe.ask
  (used, { s with probe })

/-- False when the memory budget is exhausted even without garbage. Trails that are kept elsewhere
are left as they are. -/
def checkMemory (held : Unit → List Trail) : Run Bool := do
  let c := (← get).config
  match c.memoryBudget with
  | none => return true
  | some budget =>
    match ← askMemory with
    | none => return true
    | some used =>
      if c.hasHeadroom budget used then return true
      let freed ← withExplorer fun x => x.collect (held ())
      let used := (← askMemory).getD used
      note .debug "search" "collected garbage under memory pressure"
        [("freed", toString freed), ("used_mb", toString used)]
      if c.hasHeadroom budget used then return true
      note .info "search" "memory budget exhausted"
        [("used_mb", toString used), ("budget_mb", toString budget)]
      constraintHit (.memory used budget)
      return false

def checkDepth (limit : Option Nat) (x : Explorer) : Run Unit :=
  match limit with
  | some limit => if limit ≤ x.depth && !x.isEnd then constraintHit (.depth limit) else return
  | none => return

def checkLimits (x : Explorer) (held : Unit → List Trail) : Run Unit := do
  checkDepth (← get).config.depthLimit x
  if !(← checkMemory held) then
    modifySession fun b => { b with done := true }

def afterForward (held : Unit → List Trail) : Run Unit := do
  let config := (← get).config
  let x := (← get).explorer
  modifySession fun b => b.advance x config.matchDepth
  emit .stateAdvanced
  let violated ← checkProperties 0 (← get).properties
  if violated && !config.reportAllErrors then
    modifySession fun b => { b with done := true }
  else
    if violated then
      modifySession fun b => { b with ignored := true }
    checkLimits x held

end Search

end Interleave
