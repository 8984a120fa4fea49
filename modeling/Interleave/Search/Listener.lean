import Interleave.Search.Note

set_option autoImplicit false

namespace Interleave

structure Reaction where
  stop : Bool
  notes : List Note
  refusal : Option String

def Reaction.quiet : Reaction := ⟨false, [], none⟩

structure Listener where
  name : String
  /-- Answers a callback, given the earlier ones of the same listener, newest first. -/
  react : Callback → (Unit → List Callback) → Reaction

def Listener.silent (name : String) : Listener := ⟨name, fun _ _ => .quiet⟩

structure Registered where
  id : Nat
  listener : Listener

abbrev Registry := List Registered

namespace Registry

def contains (r : Registry) (id : Nat) : Bool := r.any (·.id = id)

def add (r : Registry) (entry : Registered) : Bool × Registry :=
  if contains r entry.id then (false, r) else (true, r ++ [entry])

def remove (r : Registry) (id : Nat) : Bool × Registry :=
  (contains r id, r.filter (·.id ≠ id))

/-- The order in which listeners are told of an event: those that were told first of all others are
told last that the search is over. -/
def order (r : Registry) : Event → List Registered
  | .searchFinished => r.reverse
  | _ => r

end Registry

structure Delivery where
  listener : Nat
  callback : Callback

private def traceNote (message : String) (values : List (String × String)) : Note :=
  ⟨.trace, "listener", message, values⟩

def Callback.note? (c : Callback) : Option Note :=
  let id := ("state_id", toString c.view.stateId)
  let depth := ("depth", toString c.view.depth)
  match c.event with
  | .searchStarted => some (traceNote "search started" [id])
  | .searchFinished => some (traceNote "search finished" [("errors", toString c.view.errors)])
  | .stateAdvanced => some (traceNote "advanced" [depth, id, ("new", flagText c.view.isNew),
      ("end", flagText c.view.isEnd), ("choice", decisionText c.view.lastChoice)])
  | .stateBacktracked => some (traceNote "backtracked" [depth, id])
  | .stateRestored => some (traceNote "restored" [depth, id])
  | .propertyViolated error =>
    some (traceNote ("property violated" ++ error.message) [("property", error.property)])
  | .constraintHit constraint =>
    some (traceNote "search constraint hit" [("constraint", constraint.text)])
  | .stateProcessed | .stateStored => none

def Listener.logging : Listener :=
  ⟨"logging", fun c _ => { Reaction.quiet with notes := c.note?.toList }⟩

end Interleave
