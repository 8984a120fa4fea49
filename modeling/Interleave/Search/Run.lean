import Interleave.Report.Basic
import Interleave.Search.Bounded
import Interleave.Search.DepthFirst
import Interleave.Search.Walks

set_option autoImplicit false

namespace Interleave.Search

inductive Frontier where
  | depthFirst
  | walks (w : Walks)
  | bounded (w : Bounded)

def start : Run Frontier := do
  let s ← get
  modifySession fun _ => .start s.explorer
  note .info "search" "search started" [("strategy", s.config.strategy.label)]
  emit .searchStarted
  match s.config.strategy with
  | .dfs => return .depthFirst
  | .random => return .walks (← Walks.start)
  | .contextBounded => return .bounded (← Bounded.start)

def turn : Frontier → Run (Option Frontier)
  | .depthFirst => do
    if ← DepthFirst.turn then return some .depthFirst else return none
  | .walks w => do return (← w.turn).map .walks
  | .bounded w => do return (← w.turn).map .bounded

def finish : Run Report := do
  modifySession fun b => { b with done := true }
  emit .searchFinished
  let session := (← get).session
  note .info "search" "search finished"
    [("states", toString (session.stats.states.getD 0)),
      ("transitions", toString (session.stats.transitions.getD 0)),
      ("errors", toString session.errors.length), ("terminated", flagText session.terminated)]
  return .ofSession session

/-- Takes turns until the strategy comes to its end; false when it has not after `fuel` of them. -/
def turns : Nat → Frontier → Run Bool
  | 0, _ => return false
  | fuel + 1, frontier => do
    match ← turn frontier with
    | none => return true
    | some frontier => turns fuel frontier

def run (fuel : Nat) : Run (Option Report) := do
  let frontier ← start
  if ← turns fuel frontier then return some (← finish) else return none

def perform {α : Type} (s : Search) (action : Run α) : Except SearchError α × Search :=
  (action.run).run s

end Interleave.Search
