import Std.Data.TreeMap
import Interleave.Explore.Explorer

set_option autoImplicit false

namespace Interleave

/-- Counters of a run. `states` counts the states that were new to the table, `transitions` the
steps; both are missing where no search took place. -/
structure Stats where
  states : Option Nat
  transitions : Option Nat
  visitedStates : Nat
  endStates : Nat
  backtracked : Nat
  processed : Nat
  restored : Nat
  maxDepth : Nat
deriving DecidableEq

def Stats.empty : Stats := ⟨none, none, 0, 0, 0, 0, 0, 0⟩

inductive Constraint where
  | depth (limit : Nat)
  | memory (used budget : Nat)
  | preemptions (limit : Nat)
  | paths (limit : Nat)
deriving DecidableEq

def Constraint.text : Constraint → String
  | depth limit => "depth limit " ++ toString limit ++ " reached"
  | memory used budget =>
    "memory budget exhausted (" ++ toString used ++ " of " ++ toString budget ++ " MB)"
  | preemptions limit => "preemption limit " ++ toString limit ++ " reached"
  | paths limit => "path limit " ++ toString limit ++ " reached"

structure Violation where
  id : Nat
  property : String
  message : String
  depth : Nat
  path : List Transition
  threads : List ThreadView
deriving DecidableEq

structure Session where
  depth : Nat
  stats : Stats
  errors : List Violation
  constraints : List Constraint
  terminated : Bool
  done : Bool
  isNew : Bool
  ignored : Bool
  depths : Std.TreeMap StateId Nat

namespace Session

def empty : Session where
  depth := 0
  stats := .empty
  errors := []
  constraints := []
  terminated := false
  done := false
  isNew := false
  ignored := false
  depths := ∅

def start (x : Explorer) : Session :=
  { empty with
    depth := x.depth
    stats := { Stats.empty with states := some 1, transitions := some 0 }
    isNew := true
    depths := (∅ : Std.TreeMap StateId Nat).insert x.stateId x.depth }

/-- The books after a step to the current state. A state that is not new counts as new again when
depths matter and it was never met at so small a depth. -/
def advance (b : Session) (x : Explorer) (matchDepth : Bool) : Session :=
  let depth := x.depth
  let closer := matchDepth && b.depths[x.stateId]?.any (depth < ·)
  { b with
    depth
    isNew := x.isNew || closer
    stats := { b.stats with
      states := some (b.stats.states.getD 0 + if x.isNew then 1 else 0)
      transitions := some (b.stats.transitions.getD 0 + 1)
      visitedStates := b.stats.visitedStates + if x.isNew then 0 else 1
      endStates := b.stats.endStates + if x.isEnd then 1 else 0
      maxDepth := Nat.max b.stats.maxDepth depth }
    depths := if x.isNew || closer then b.depths.insert x.stateId depth else b.depths }

end Session

inductive Event where
  | searchStarted
  | searchFinished
  | stateAdvanced
  | stateBacktracked
  | stateProcessed
  | stateStored
  | stateRestored
  | propertyViolated (error : Violation)
  | constraintHit (constraint : Constraint)
deriving DecidableEq

def Event.name : Event → String
  | searchStarted => "search_started"
  | searchFinished => "search_finished"
  | stateAdvanced => "state_advanced"
  | stateBacktracked => "state_backtracked"
  | stateProcessed => "state_processed"
  | stateStored => "state_stored"
  | stateRestored => "state_restored"
  | propertyViolated _ => "property_violated"
  | constraintHit _ => "search_constraint_hit"

structure View where
  depth : Nat
  stats : Stats
  errors : Nat
  trailDepth : Nat
  pathLength : Nat
  visited : Nat
  stateId : StateId
  isNew : Bool
  isEnd : Bool
  lastChoice : Option Choice
deriving DecidableEq

def View.of (session : Session) (x : Explorer) : View where
  depth := session.depth
  stats := session.stats
  errors := session.errors.length
  trailDepth := x.depth
  pathLength := x.path.length
  visited := x.visited
  stateId := x.stateId
  isNew := x.isNew
  isEnd := x.isEnd
  lastChoice := x.lastChoice

structure Callback where
  event : Event
  session : Session
  explorer : Explorer

def Callback.view (c : Callback) : View := .of c.session c.explorer

end Interleave
