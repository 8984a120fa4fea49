import Std.Data.TreeSet
import Interleave.Search.Basic
import Interleave.Store.WorkQueue

set_option autoImplicit false

/-! Executions are explored by the number of their preemptions. Within a piece of work the thread
that ran last goes on as long as it can; to run another one instead would be a preemption and is put
off to the next bound. A switch from a thread that is blocked or has terminated costs nothing. -/

namespace Interleave.Search

structure WorkItem where
  trail : Trail
  schedule : ChoicePoint

abbrev Visits :=
  Std.TreeSet (StateId × Option ThreadId) (compareLex (compareOn (·.1)) (compareOn (·.2)))

/-- The work of this bound and of the next one. While a piece of work is done, `active` holds the
trail it was taken up from and the depth at which it ends. -/
structure Bounded where
  current : WorkQueue WorkItem
  next : WorkQueue WorkItem
  visited : Visits
  preemptions : Nat
  active : Option (Trail × Nat)

namespace Bounded

def trails (w : Bounded) : List Trail :=
  (w.active.map (·.1)).toList ++ w.current.toList.map (·.trail) ++ w.next.toList.map (·.trail)

def start : Run Bounded := do
  let x := (← get).explorer
  let empty : Bounded :=
    { current := .empty
      next := .empty
      visited := (∅ : Visits).insert (x.stateId, none)
      preemptions := 0
      active := none }
  match x.schedule? with
  | none => return empty
  | some schedule => return { empty with current := empty.current.push ⟨← stored, schedule⟩ }

def finish (w : Bounded) : Run (Option Bounded) := do
  note .debug "search_bounded" "context-bounded search finished"
    [("preemptions", toString w.preemptions)]
  return none

/-- Goes on to the next bound, if there is work for it and the limit allows it. -/
def raise (w : Bounded) : Run (Option Bounded) := do
  if w.next.isEmpty then return ← w.finish
  match (← get).config.preemptionLimit with
  | some limit =>
    if limit ≤ w.preemptions then
      note .info "search_bounded" "preemption limit reached"
        [("limit", toString limit), ("pending", toString w.next.size)]
      constraintHit (.preemptions limit)
      return ← w.finish
  | none => pure ()
  let preemptions := w.preemptions + 1
  note .info "search_bounded" "raising preemption bound"
    [("preemptions", toString preemptions), ("queued", toString w.next.size)]
  return some { w with current := w.next, next := .empty, preemptions }

def take (w : Bounded) : Run (Option Bounded) := do
  if (← get).session.done then return ← w.finish
  if ← checkTerminated then return ← w.finish
  match w.current.pop? with
  | none => w.raise
  | some (item, current) =>
    restore item.trail
    withExplorer fun x => ((), x.setSchedule item.schedule)
    return some { w with current, active := some (item.trail, (← get).explorer.depth) }

/-- Lets the last thread go on alone and puts off every other runnable thread to the next bound. -/
def defer (w : Bounded) : Run Bounded := do
  let x := (← get).explorer
  match x.currentThread, x.schedule? with
  | some last, some (.thread g) =>
    if !g.items.contains last || g.total = 1 then return w
    let trail ← stored
    let others := g.items.filter (· ≠ last)
    let next := others.foldl (fun q t => q.push ⟨trail, .thread (g.restrictTo [t])⟩) w.next
    withExplorer fun x => ((), x.setSchedule (.thread (g.restrictTo [last])))
    return { w with next }
  | _, _ => return w

def step (w : Bounded) (base : Nat) : Run (Option Bounded) := do
  if (← get).session.done then return some { w with active := none }
  if ← checkTerminated then return some { w with active := none }
  if !(← forward) then
    processed
    if (← get).explorer.depth ≤ base then
      return some { w with active := none }
    let _ ← backtrack
    return some w
  afterForward fun _ => w.trails
  if (← get).session.done then return some { w with active := none }
  let ignored ← takeIgnored
  let s ← get
  let key := (s.explorer.stateId, s.explorer.currentThread)
  let fresh := !w.visited.contains key
  let w := { w with visited := w.visited.insert key }
  if ignored || !fresh || s.explorer.isEnd || s.depthLimitReached then
    let _ ← backtrack
    return some w
  return some (← w.defer)

def turn (w : Bounded) : Run (Option Bounded) :=
  match w.active with
  | none => w.take
  | some (_, base) => w.step base

end Bounded

end Interleave.Search
