import Std.Data.TreeSet
import Interleave.Search.Basic

set_option autoImplicit false

namespace Interleave.Search

structure Walks where
  initial : Trail
  source : Random.Source
  paths : Nat
  seen : Option (Std.TreeSet StateId)

namespace Walks

def start : Run Walks := do
  let config := (← get).config
  withExplorer fun x => ((), x.randomizeChoices config.seed)
  let initial ← stored
  note .info "search_random" "random search"
    [("seed", toString config.seed.toNat), ("path_limit", toString config.pathLimit)]
  return { initial, source := .ofSeed config.seed, paths := 0, seen := none }

def next (w : Walks) : Run (Option Walks) := do
  let limit := (← get).config.pathLimit
  if (← get).session.done then return none
  if limit ≤ w.paths then
    constraintHit (.paths limit)
    return none
  if ← checkTerminated then return none
  return some { w with seen := some ((∅ : Std.TreeSet StateId).insert (← get).explorer.stateId) }

def finish (w : Walks) : Run (Option Walks) := do
  let session := (← get).session
  note .debug "search_random" "walk finished"
    [("path", toString (w.paths + 1)), ("depth", toString session.depth)]
  if session.done then return none
  restore w.initial
  return some { w with paths := w.paths + 1, seen := none }

def step (w : Walks) (seen : Std.TreeSet StateId) : Run (Option Walks) := do
  if ← checkTerminated then
    w.finish
  else
    let source ← withExplorer fun x =>
      let (x, source) := x.shuffleSchedule w.source
      (source, x)
    let w := { w with source }
    if !(← forward) then
      processed
      w.finish
    else
      afterForward fun _ => [w.initial]
      let ignored ← takeIgnored
      let s ← get
      let id := s.explorer.stateId
      if s.session.done || ignored || s.explorer.isEnd || s.depthLimitReached || seen.contains id then
        w.finish
      else
        return some { w with seen := some (seen.insert id) }

def turn (w : Walks) : Run (Option Walks) :=
  match w.seen with
  | none => w.next
  | some seen => w.step seen

end Walks

end Interleave.Search
