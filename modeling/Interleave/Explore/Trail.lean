import Interleave.Explore.Transition

set_option autoImplicit false

/-! A trail is the way from the initial state to the current one. Each of its nodes holds a state
and the alternatives that are still to be taken from it, so a trail is also all that has to be kept
to come back to a state later. -/

namespace Interleave

/-- What is still to be decided in a state: which thread runs and, while the statement of that thread
takes an integer, which one. -/
structure Agenda where
  schedule : ChoicePoint
  data : Option Interval

namespace Agenda

/-- The decision of a state between its runnable threads; there is none in an end state. -/
def ofState (s : State) : Option Agenda :=
  if s.isEnd then none else some ⟨.thread (.ofList "schedule" s.runnable), none⟩

/-- Takes the next alternative: of the integers while there is one, else of the threads. Tells
whether a thread was taken; nothing is told when no alternative is left. -/
def advance (a : Agenda) : Option Bool × Option Agenda :=
  match a.data.bind Interval.advance? with
  | some data => (some false, some { a with data := some data })
  | none =>
    match a.schedule.advance? with
    | some schedule => (some true, some ⟨schedule, none⟩)
    | none => (none, if a.schedule.progress.cascaded then none else some ⟨a.schedule, none⟩)

end Agenda

/-- A state on a trail. Nodes are numbered by `birth`; copies of a node keep its number. The hash
tables in the state are numbered by the nodes with which they came. -/
structure Node where
  birth : Nat
  state : State
  stateId : StateId
  agenda : Option Agenda
  transition : Option Transition
  fault : Option Uncaught
  tables : List (Handle × Nat)

structure Trail where
  top : Node
  below : List Node

namespace Trail

def nodes (t : Trail) : List Node := (t.top :: t.below).reverse

def depth (t : Trail) : Nat := t.below.length

def path (t : Trail) : List Transition := t.nodes.filterMap (·.transition)

def push (t : Trail) (node : Node) : Trail := ⟨node, t.top :: t.below⟩

def back? (t : Trail) : Option Trail :=
  match t.below with
  | [] => none
  | node :: below => some ⟨node, below⟩

def setAgenda (t : Trail) (agenda : Option Agenda) : Trail :=
  { t with top := { t.top with agenda } }

def holds (t : Trail) (birth : Nat) : Bool := (t.top :: t.below).any (·.birth = birth)

end Trail

def Node.collect (node : Node) : Nat × Node :=
  let (freed, state) := node.state.collect
  (freed, { node with state })

def Trail.collect (t : Trail) (held : List Trail) : Nat × Trail :=
  let one (node : Node) : Nat × Node :=
    if held.any (·.holds node.birth) then (0, node) else node.collect
  let below := t.below.map one
  let (freed, top) := one t.top
  (below.foldr (fun x n => x.1 + n) freed, ⟨top, below.map (·.2)⟩)

end Interleave
