import Interleave.Proofs.Search.Dispatch
import Mathlib.Data.List.Chain

set_option autoImplicit false

namespace Interleave

def Trail.Rooted (t : Trail) : Prop :=
  ∃ steps : List Transition, t.transitions = steps.map some ++ [none]

variable {x : Explorer}

theorem Trail.Rooted.length_path {t : Trail} (h : t.Rooted) : t.path.length = t.depth := by
  obtain ⟨steps, hsteps⟩ := h
  have hpath : t.path = (t.transitions.filterMap id).reverse := by
    rw [Trail.path, Trail.nodes, List.filterMap_reverse, Trail.transitions, List.filterMap_map]
    rfl
  have hlength : t.depth + 1 = t.transitions.length := by simp [Trail.transitions, Trail.chain, depth]
  rw [hpath, hsteps]
  rw [hsteps] at hlength
  simpa using hlength.symm

/-- Books that agree with an explorer. A step leads to a state that is new or was visited before,
and only the initial state is there without a step. -/
structure Session.Mirrors (b : Session) (x : Explorer) : Prop where
  rooted : x.trail.Rooted
  depth : b.depth = x.depth
  visited : 0 < x.visited
  states : b.stats.states = some x.visited
  transitions : b.stats.transitions = some (x.visited - 1 + b.stats.visitedStates)

section Mirrors

variable {x y : Explorer} {b b' : Session}

theorem Session.Mirrors.congr (h : b.Mirrors x) (hrooted : y.trail.Rooted)
    (hdepth : b'.depth = y.depth) (htable : y.table = x.table)
    (hstats : b'.stats.states = b.stats.states ∧ b'.stats.transitions = b.stats.transitions ∧
      b'.stats.visitedStates = b.stats.visitedStates) : b'.Mirrors y := by
  have hvisited : y.visited = x.visited := congrArg StateTable.size htable
  obtain ⟨hstates, htransitions, hseen⟩ := hstats
  refine ⟨hrooted, hdepth, ?_, ?_, ?_⟩
  · rw [hvisited]
    exact h.visited
  · rw [hstates, hvisited]
    exact h.states
  · rw [htransitions, hvisited, hseen]
    exact h.transitions

theorem Session.Mirrors.lingers (h : b.Mirrors x) (hx : x.Lingers y) (hb : b.Lingers b') :
    b'.Mirrors y := by
  obtain ⟨terminated, done, ignored, rfl⟩ := hb.same
  refine h.congr ?_ (h.depth.trans hx.depth.symm) hx.table ⟨rfl, rfl, rfl⟩
  obtain ⟨steps, hsteps⟩ := h.rooted
  exact ⟨steps, hx.transitions.trans hsteps⟩

theorem Session.Mirrors.advance (h : b.Mirrors x) (hforward : x.forward = (.ok true, y))
    (matchDepth : Bool) : (b.advance y matchDepth).Mirrors y := by
  obtain ⟨a, move, a', node, f, hadvances⟩ := Explorer.forward_true hforward
  obtain ⟨steps, hsteps⟩ := h.rooted
  have hvisited : y.visited = x.visited + if y.isNew then 1 else 0 :=
    StateTable.size_add hadvances.added
  have hpositive := h.visited
  refine ⟨?_, rfl, by omega, ?_, ?_⟩
  · refine ⟨x.model.transition x.state move node.stateId :: steps, ?_⟩
    simpa [Trail.transitions, Trail.chain, hadvances.trail, hadvances.shown] using hsteps
  · simp [Session.advance, h.states, hvisited]
  · cases hnew : y.isNew <;> simp [Session.advance, h.transitions, hvisited, hnew] <;> omega

theorem Explorer.transitions_of_backtrack? (h : x.backtrack? = some y) :
    y.trail.transitions = x.trail.transitions.tail := by
  rw [Trail.transitions, (Explorer.chain_of_backtrack? h).1]
  rfl

theorem Explorer.rooted_of_backtrack? (h : x.backtrack? = some y) (hx : x.trail.Rooted) :
    y.trail.Rooted := by
  obtain ⟨steps, hsteps⟩ := hx
  have htail := Explorer.transitions_of_backtrack? h
  rw [hsteps] at htail
  cases steps with
  | nil => cases htail
  | cons _ steps => exact ⟨steps, htail⟩

end Mirrors

namespace Search

section Chronicle

variable {s₀ : Search} {phase : Phase} {cs : List Callback} {x : Explorer} {b : Session}

theorem Chronicle.depth (h : Chronicle s₀ phase cs x b) : b.depth = x.depth := by
  induction h with
  | started => rfl
  | lingered _ hx hb ih =>
    obtain ⟨terminated, done, ignored, rfl⟩ := hb.same
    exact ih.trans hx.depth.symm
  | advanced _ _ hb => exact hb ▸ rfl
  | passed _ _ ih => exact ih
  | violated _ _ _ hb ih => exact hb ▸ ih
  | checked _ ih => exact ih
  | backtracked _ _ hb => exact hb ▸ rfl
  | processed _ hforward hb ih =>
    rw [hb, (Explorer.lingers_of_forward hforward (by simp)).depth]
    exact ih
  | stored _ ih => exact ih
  | restored _ _ _ _ hb => exact hb ▸ rfl
  | limited limit _ ih =>
    split
    · exact ih
    · exact ih
  | finished _ hb ih => exact hb ▸ ih

/-- If the books agree with the explorer at the start, they do so at every callback and in between. -/
theorem Chronicle.mirrors (hstart : (Session.start s₀.explorer).Mirrors s₀.explorer)
    (h : Chronicle s₀ phase cs x b) :
    b.Mirrors x ∧ ∀ c ∈ cs, c.session.Mirrors c.explorer := by
  have hcons : ∀ {cs : List Callback} {event : Event} {x : Explorer} {b : Session}, b.Mirrors x →
      (∀ c ∈ cs, c.session.Mirrors c.explorer) → b.Mirrors x ∧
        ∀ c ∈ (⟨event, b, x⟩ : Callback) :: cs, c.session.Mirrors c.explorer := by
    intro cs event x b hb hcs
    exact ⟨hb, List.forall_mem_cons.2 ⟨hb, hcs⟩⟩
  induction h with
  | started => exact hcons hstart (by simp)
  | lingered _ hx hb ih => exact ⟨ih.1.lingers hx hb, ih.2⟩
  | advanced _ hforward hb ih => exact hcons (hb ▸ ih.1.advance hforward _) ih.2
  | passed _ _ ih => exact ih
  | violated _ _ _ hb ih =>
    exact hcons (hb ▸ ih.1.congr ih.1.rooted ih.1.depth rfl ⟨rfl, rfl, rfl⟩) ih.2
  | checked _ ih => exact ih
  | backtracked _ hback hb ih =>
    refine hcons (hb ▸ ih.1.congr ?_ rfl (Explorer.chain_of_backtrack? hback).2 ⟨rfl, rfl, rfl⟩) ih.2
    exact Explorer.rooted_of_backtrack? hback ih.1.rooted
  | processed _ hforward hb ih =>
    have hlingers := Explorer.lingers_of_forward hforward (by simp)
    have hmirrors := ih.1.lingers hlingers (.refl _)
    exact hcons (hb ▸ hmirrors.congr hmirrors.rooted hmirrors.depth rfl ⟨rfl, rfl, rfl⟩) ih.2
  | stored _ ih => exact hcons ih.1 ih.2
  | restored _ hmem _ hy hb ih =>
    -- The trail was on the way when it was stored, so that it is rooted as it was then.
    subst hy
    exact hcons (hb ▸ ih.1.congr (ih.2 _ hmem).rooted rfl rfl ⟨rfl, rfl, rfl⟩) ih.2
  | limited limit _ ih =>
    refine ⟨?_, List.forall_mem_cons.2 ih⟩
    split
    · exact ih.1
    · exact ih.1.congr ih.1.rooted ih.1.depth rfl ⟨rfl, rfl, rfl⟩
  | finished _ hb ih =>
    exact hcons (hb ▸ ih.1.congr ih.1.rooted ih.1.depth rfl ⟨rfl, rfl, rfl⟩) ih.2

end Chronicle

end Search

def Event.moves : Event → Bool
  | .searchStarted | .stateAdvanced | .stateBacktracked | .stateRestored => true
  | _ => false

/-- A step leads one deeper than the callback before it, and the way back leads one up. -/
structure Callback.Follows (c before : Callback) : Prop where
  advanced : c.event = .stateAdvanced → c.view.depth = before.view.depth + 1
  backtracked : c.event = .stateBacktracked → c.view.depth + 1 = before.view.depth

def Event.violation? : Event → Option Violation
  | .propertyViolated e => some e
  | _ => none

structure Report.Recounts (r : Report) (events : List Event) : Prop where
  transitions : r.stats.transitions = some (events.count .stateAdvanced)
  backtracked : r.stats.backtracked = events.count .stateBacktracked
  processed : r.stats.processed = events.count .stateProcessed
  restored : r.stats.restored = events.count .stateRestored
  errors : r.errors = events.reverse.filterMap Event.violation?

theorem Report.Recounts.cons {r r' : Report} {events : List Event} {event : Event}
    (h : r.Recounts events)
    (htransitions : ∀ n, r.stats.transitions = some n →
      r'.stats.transitions = some (n + if event = .stateAdvanced then 1 else 0))
    (hbacktracked : r'.stats.backtracked =
      r.stats.backtracked + if event = .stateBacktracked then 1 else 0)
    (hprocessed : r'.stats.processed =
      r.stats.processed + if event = .stateProcessed then 1 else 0)
    (hrestored : r'.stats.restored =
      r.stats.restored + if event = .stateRestored then 1 else 0)
    (herrors : r'.errors = r.errors ++ event.violation?.toList) : r'.Recounts (event :: events) := by
  refine ⟨?_, ?_, ?_, ?_, ?_⟩
  · simp [htransitions _ h.transitions, List.count_cons]
  · simp [hbacktracked, h.backtracked, List.count_cons]
  · simp [hprocessed, h.processed, List.count_cons]
  · simp [hrestored, h.restored, List.count_cons]
  · rw [herrors, h.errors, List.reverse_cons, List.filterMap_append]
    cases hevent : event.violation? <;> simp [hevent]

namespace Search

section Chronicle

variable {s₀ : Search} {phase : Phase} {cs : List Callback} {x : Explorer} {b : Session}

variable (h : Chronicle s₀ phase cs x b)

include h

theorem Chronicle.follows :
    ∃ last earlier, cs.filter (·.event.moves) = last :: earlier ∧ last.view.depth = b.depth ∧
      (last :: earlier).IsChain Callback.Follows := by
  -- An event that does not move the explorer leaves the callbacks that do as they are.
  have hskip : ∀ {cs : List Callback} {c : Callback} {depth : Nat}, c.event.moves = false →
      (∃ last earlier, cs.filter (·.event.moves) = last :: earlier ∧ last.view.depth = depth ∧
        (last :: earlier).IsChain Callback.Follows) →
      ∃ last earlier, (c :: cs).filter (·.event.moves) = last :: earlier ∧
        last.view.depth = depth ∧ (last :: earlier).IsChain Callback.Follows := by
    intro cs c depth hstill ih
    rw [List.filter_cons_of_neg (by simp [hstill])]
    exact ih
  induction h with
  | started => exact ⟨_, [], rfl, rfl, .singleton _⟩
  | lingered _ _ hb ih =>
    obtain ⟨terminated, done, ignored, rfl⟩ := hb.same
    exact ih
  | @advanced cs x y b b' h hforward hb ih =>
    obtain ⟨last, earlier, hmoves, hdepth, hchain⟩ := ih
    refine ⟨_, _, List.filter_cons_of_pos rfl, rfl, ?_⟩
    rw [hmoves]
    refine List.isChain_cons_cons.2 ⟨⟨fun _ => ?_, by simp⟩, hchain⟩
    have hhere : b'.depth = y.depth := hb ▸ rfl
    rw [hdepth, h.depth]
    exact hhere.trans (Explorer.depth_of_forward hforward)
  | passed _ _ ih => exact ih
  | violated _ _ _ hb ih => exact hskip rfl (hb ▸ ih)
  | checked _ ih => exact ih
  | @backtracked cs x y b b' h hback hb ih =>
    obtain ⟨last, earlier, hmoves, hdepth, hchain⟩ := ih
    refine ⟨_, _, List.filter_cons_of_pos rfl, rfl, ?_⟩
    rw [hmoves]
    refine List.isChain_cons_cons.2 ⟨⟨by simp, fun _ => ?_⟩, hchain⟩
    have hhere : b'.depth = y.depth := hb ▸ rfl
    rw [hdepth, h.depth, ← Explorer.depth_of_backtrack? hback]
    exact congrArg (· + 1) hhere
  | processed _ _ hb ih => exact hskip rfl (hb ▸ ih)
  | stored _ ih => exact hskip rfl ih
  | restored _ _ _ _ hb ih =>
    obtain ⟨last, earlier, hmoves, _, hchain⟩ := ih
    refine ⟨_, _, List.filter_cons_of_pos rfl, rfl, ?_⟩
    rw [hmoves]
    exact List.isChain_cons_cons.2 ⟨⟨by simp, by simp⟩, hchain⟩
  | limited limit _ ih =>
    refine hskip rfl ?_
    split
    · exact ih
    · exact ih
  | finished _ hb ih => exact hskip rfl (hb ▸ ih)

/-- Whatever is counted or noted was told, and nothing else. -/
theorem Chronicle.recounts : (Report.ofSession b).Recounts (cs.map (·.event)) := by
  induction h with
  | started => exact ⟨rfl, rfl, rfl, rfl, rfl⟩
  | lingered _ _ hb ih =>
    obtain ⟨terminated, done, ignored, rfl⟩ := hb.same
    exact ⟨ih.transitions, ih.backtracked, ih.processed, ih.restored, ih.errors⟩
  | passed _ _ ih => exact ih
  | checked _ ih => exact ih
  | advanced _ _ hb ih =>
    subst hb
    refine ih.cons (fun n hn => ?_) rfl rfl rfl (List.append_nil _).symm
    exact congrArg (fun count => some (count.getD 0 + 1)) hn
  | violated _ _ _ hb ih =>
    subst hb
    exact ih.cons (fun _ hn => hn) rfl rfl rfl rfl
  | backtracked _ _ hb ih | processed _ _ hb ih =>
    subst hb
    exact ih.cons (fun _ hn => hn) rfl rfl rfl (List.append_nil _).symm
  | stored _ ih => exact ih.cons (fun _ hn => hn) rfl rfl rfl (List.append_nil _).symm
  | restored _ _ _ _ hb ih =>
    subst hb
    exact ih.cons (fun _ hn => hn) rfl rfl rfl (List.append_nil _).symm
  | limited limit _ ih =>
    split
    · exact ih.cons (fun _ hn => hn) rfl rfl rfl (List.append_nil _).symm
    · exact ih.cons (fun _ hn => hn) rfl rfl rfl (List.append_nil _).symm
  | finished _ hb ih =>
    subst hb
    exact ih.cons (fun _ hn => hn) rfl rfl rfl (List.append_nil _).symm

theorem Chronicle.opened (hphase : phase ≠ .ended) :
    ∃ between, .searchStarted ∉ between ∧ .searchFinished ∉ between ∧
      cs.map (·.event) = between ++ [.searchStarted] := by
  have hmore : ∀ {cs : List Callback} {c : Callback}, c.event ≠ .searchStarted →
      c.event ≠ .searchFinished →
      (∃ between : List Event, .searchStarted ∉ between ∧ .searchFinished ∉ between ∧
        cs.map (·.event) = between ++ [.searchStarted]) →
      ∃ between, .searchStarted ∉ between ∧ .searchFinished ∉ between ∧
        (c :: cs).map (·.event) = between ++ [.searchStarted] := by
    rintro cs c hfirst hlast ⟨between, hstarted, hfinished, hcs⟩
    refine ⟨c.event :: between, ?_, ?_, ?_⟩
    · simp [hstarted, Ne.symm hfirst]
    · simp [hfinished, Ne.symm hlast]
    · rw [List.map_cons, hcs, List.cons_append]
  induction h with
  | started => exact ⟨[], by simp, by simp, rfl⟩
  | lingered _ _ _ ih => exact ih hphase
  | advanced _ _ _ ih => exact hmore (by simp) (by simp) (ih (by simp))
  | passed _ _ ih => exact ih (by simp)
  | violated _ _ _ _ ih => exact hmore (by simp) (by simp) (ih (by simp))
  | checked _ ih => exact ih (by simp)
  | backtracked _ _ _ ih | processed _ _ _ ih => exact hmore (by simp) (by simp) (ih (by simp))
  | stored _ ih => exact hmore (by simp) (by simp) (ih (by simp))
  | restored _ _ _ _ _ ih => exact hmore (by simp) (by simp) (ih (by simp))
  | limited _ _ ih => exact hmore (by simp) (by simp) (ih (by simp))
  | finished => exact absurd rfl hphase

omit h in
theorem Chronicle.closed (h : Chronicle s₀ .ended cs x b) :
    ∃ between, .searchStarted ∉ between ∧ .searchFinished ∉ between ∧
      cs.map (·.event) = .searchFinished :: (between ++ [.searchStarted]) := by
  cases h with
  | finished h _ =>
    obtain ⟨between, hstarted, hfinished, hcs⟩ := h.opened (by simp)
    exact ⟨between, hstarted, hfinished, by rw [List.map_cons, hcs]⟩

theorem Chronicle.started_of_getLast? {c : Callback} (hc : cs.getLast? = some c) :
    c.event = .searchStarted := by
  have hlast : (cs.map (·.event)).getLast? = some .searchStarted := by
    cases phase with
    | ended =>
      obtain ⟨between, _, _, hcs⟩ := h.closed
      simp [hcs, List.getLast?_cons]
    | ready =>
      obtain ⟨between, _, _, hcs⟩ := h.opened (by simp)
      simp [hcs]
    | checking left =>
      obtain ⟨between, _, _, hcs⟩ := h.opened (by simp)
      simp [hcs]
  rw [List.getLast?_map, hc] at hlast
  exact Option.some.inj hlast

end Chronicle

end Search

section Heard

variable {r : Registry} {entry : Registered}

theorem countP_order (hids : (r.map (·.id)).Nodup) (hentry : entry ∈ r) (event : Event) :
    (Registry.order r event).countP (·.id = entry.id) = 1 := by
  rw [(Registry.order_perm r event).countP_eq]
  have hcount : (r.map (·.id)).count entry.id = 1 :=
    List.count_eq_one_of_mem hids (List.mem_map_of_mem hentry)
  rw [← hcount, List.count, List.countP_map]
  refine List.countP_congr fun other _ => ?_
  simp

theorem heard_tellings (c : Callback) (entries : List Registered) (id : Nat) :
    (((c.tellings entries).map Telling.delivery).filter (·.listener = id)).map (·.callback) =
      List.replicate (entries.countP (·.id = id)) c := by
  induction entries with
  | nil => rfl
  | cons entry entries ih =>
    have hcons : c.tellings (entry :: entries) = c.tellings entries ++ [⟨entry, c⟩] := by
      simp [Callback.tellings]
    rw [hcons, List.map_append, List.filter_append, List.map_append, ih, List.countP_cons]
    by_cases hid : entry.id = id
    · simp [Telling.delivery, hid, List.replicate_succ']
    · simp [Telling.delivery, hid]

theorem heard_registry (hids : (r.map (·.id)).Nodup) (hentry : entry ∈ r) (cs : List Callback) :
    (((Registry.tellings r cs).map Telling.delivery).filter (·.listener = entry.id)).map
      (·.callback) = cs := by
  induction cs with
  | nil => rfl
  | cons c cs ih =>
    have hcons : Registry.tellings r (c :: cs) =
        c.tellings (Registry.order r c.event) ++ Registry.tellings r cs := rfl
    rw [hcons, List.map_append, List.filter_append, List.map_append, ih, heard_tellings,
      countP_order hids hentry]
    rfl

end Heard

namespace Search

variable {s s' : Search} {w : Watch} {outcome : Except SearchError (Option Report)}

/-- What a listener has heard is the chronicle of the run, but for its newest part in a run that
failed. -/
theorem Outcome.heard (h : Outcome s w outcome s') (hids : (s.listeners.map (·.id)).Nodup)
    (hbase : s.deliveries = []) {entry : Registered} (hentry : entry ∈ s.listeners) :
    ∃ phase cs x b, Chronicle s phase cs x b ∧ s'.heard entry.id <:+ cs ∧
      ∀ report, outcome = .ok (some report) →
        phase = .ended ∧ s'.heard entry.id = cs ∧ report = .ofSession b := by
  have hall : ∀ {cs : List Callback}, Informed s w cs s' → s'.heard entry.id = cs := by
    intro cs hinformed
    rw [Search.heard, hinformed.told.deliveries, hbase, List.append_nil]
    exact heard_registry hids hentry cs
  cases h with
  | ended h hc =>
    refine ⟨_, _, _, _, hc, ⟨[], hall h⟩, fun report hreport => ⟨rfl, hall h, ?_⟩⟩
    cases hreport
    rfl
  | underway h =>
    obtain ⟨cs, hinformed, hc, _⟩ := h.told
    exact ⟨_, _, _, _, hc, ⟨[], hall hinformed⟩, by simp⟩
  | broken h =>
    cases h with
    | failed h =>
      obtain ⟨cs, hinformed, hc, _⟩ := h.told
      exact ⟨_, _, _, _, hc, ⟨[], hall hinformed⟩, by simp⟩
    | @declined phase cs c x b told hc hdeclined htold =>
      refine ⟨_, _, _, _, hc, ?_, by simp⟩
      obtain ⟨first, last, rest, reason, horder, _, _, _, rfl⟩ := hdeclined.refused
      have hcount : (first ++ [last]).countP (·.id = entry.id) ≤ 1 := by
        rw [← countP_order hids hentry c.event, horder]
        exact List.Sublist.countP_le (List.Sublist.append_left (by simp) first)
      rw [Search.heard, htold.deliveries, hbase, List.append_nil, List.map_append,
        List.filter_append, List.map_append, heard_tellings, heard_registry hids hentry]
      -- The listener was told of the newest callback or stands after the one that declined it.
      rcases Nat.le_one_iff_eq_zero_or_eq_one.1 hcount with hnone | hone
      · rw [hnone]
        exact List.suffix_cons c cs
      · rw [hone]
        exact List.suffix_rfl

end Search

/-- What is seen at a callback fits together: the depths agree with each other and with the length of
the path, and the counters with the table of visited states. -/
structure View.Consistent (v : View) : Prop where
  depth : v.depth = v.trailDepth
  path : v.depth = v.pathLength
  states : v.stats.states = some v.visited
  visited : 0 < v.visited
  transitions : v.stats.transitions = some (v.visited - 1 + v.stats.visitedStates)

theorem Session.Mirrors.consistent {b : Session} (h : b.Mirrors x) : (View.of b x).Consistent :=
  ⟨h.depth, h.depth.trans h.rooted.length_path.symm, h.states, h.visited, h.transitions⟩

theorem Explorer.start_mirrors {p : Program} {c : Config} (h : x.Started p c) :
    (Session.start x).Mirrors x := by
  obtain ⟨s, f, hx⟩ := h.starts
  obtain ⟨short, hadded⟩ := hx.added
  have hnew : x.isNew = true := by
    have hadd : ((StateTable.empty c.stateSet short).add f).2.1 = true := by
      cases c.stateSet <;> rfl
    rw [hadded] at hadd
    exact hadd
  have hvisited : x.visited = 1 := by
    have hsize := StateTable.size_add hadded
    rw [StateTable.size_empty, hnew] at hsize
    exact hsize
  refine ⟨⟨[], ?_⟩, rfl, by omega, ?_, ?_⟩
  · simp [Trail.transitions, Trail.chain, hx.below, hx.transition]
  · simp [Session.start, hvisited]
  · simp [Session.start, Session.empty, Stats.empty, hvisited]

namespace Search

variable {s s' : Search} {outcome : Except SearchError (Option Report)}

/-- At every callback of a run the books agree with the explorer. To each listener the depth changes
by one with each step forward or back, and when the run ends with a report, every listener was told of
its start first and of its end last, once each, and of everything that the report counts. -/
theorem callbacks_mirror {p : Program} {calls : List Registry.Call} {requests : List Bool}
    (hs : s.Attended p calls) (h : s.perform (runAsked requests) = (outcome, s')) :
    (∀ d ∈ s'.deliveries, d.callback.view.Consistent) ∧
    ∀ entry ∈ s.listeners,
      ((s'.heard entry.id).filter (·.event.moves)).IsChain Callback.Follows ∧
      (∀ c, (s'.heard entry.id).getLast? = some c → c.event = .searchStarted) ∧
      ∀ report, outcome = .ok (some report) →
        (∃ between, .searchStarted ∉ between ∧ .searchFinished ∉ between ∧
          (s'.heard entry.id).map (·.event) =
            .searchFinished :: (between ++ [.searchStarted])) ∧
        report.Recounts ((s'.heard entry.id).map (·.event)) := by
  obtain ⟨w, _, houtcome⟩ := run_outcome h
  have hids : (s.listeners.map (·.id)).Nodup := hs.listeners ▸ Registry.ids_after calls
  have hstart := Explorer.start_mirrors hs.start
  refine ⟨fun d hd => ?_, fun entry hentry => ?_⟩
  · obtain ⟨told, phase, cs, x, b, htold, hc, hmem, _⟩ := houtcome.told
    rw [htold.deliveries, hs.deliveries, List.append_nil] at hd
    obtain ⟨t, ht, rfl⟩ := List.mem_map.1 hd
    exact ((hc.mirrors hstart).2 t.callback (hmem t ht).2).consistent
  · obtain ⟨phase, cs, x, b, hc, hsuffix, hended⟩ := houtcome.heard hids hs.deliveries hentry
    refine ⟨?_, fun c hlast => ?_, fun report hreport => ?_⟩
    · obtain ⟨last, earlier, hmoves, _, hchain⟩ := hc.follows
      rw [← hmoves] at hchain
      exact hchain.suffix (hsuffix.filter _)
    · obtain ⟨newer, rfl⟩ := hsuffix
      refine hc.started_of_getLast? ?_
      rw [List.getLast?_append, hlast]
      rfl
    · obtain ⟨rfl, hheard, rfl⟩ := hended report hreport
      rw [hheard]
      exact ⟨hc.closed, hc.recounts⟩

/-- A search that finds both errors, takes up a trail that it has put off and goes back nineteen
times. Its second listener has heard sixty callbacks, and the report recounts them. -/
theorem relay_callbacks : ∃ (s s' : Search) (report : Report),
    s.Attended (relay (counter .eq 2)) [.add ⟨0, .silent "first"⟩, .add ⟨1, .silent "second"⟩] ∧
    s.perform (runAsked (List.replicate 300 false)) = (.ok (some report), s') ∧
    (report.errors.length, report.stats.backtracked, report.stats.restored,
      (s'.heard 1).length) = (2, 19, 1, 60) ∧
    (∀ d ∈ s'.deliveries, d.callback.view.Consistent) ∧
    report.Recounts ((s'.heard 1).map (·.event)) := by
  have hrun : (Check.attend? (relay (counter .eq 2))
      { Config.default with reportAllErrors := true, strategy := .contextBounded }
      [.add ⟨0, .silent "first"⟩, .add ⟨1, .silent "second"⟩] (List.replicate 300 false)).map
        (fun r => (r.2.1.errors.length, r.2.1.stats.backtracked, r.2.1.stats.restored,
          (r.2.2.heard 1).length)) = some (2, 19, 1, 60) := by
    decide +kernel
  obtain ⟨⟨s, report, s'⟩, hattend, hfound⟩ := Option.map_eq_some_iff.1 hrun
  obtain ⟨hs, hperform⟩ := Check.attend?_eq_some hattend
  obtain ⟨hconsistent, hlisteners⟩ := callbacks_mirror hs hperform
  have hsecond : (⟨1, .silent "second"⟩ : Registered) ∈ s.listeners := by
    rw [hs.listeners]
    exact List.mem_cons_of_mem _ List.mem_cons_self
  exact ⟨s, s', report, hs, hperform, hfound, hconsistent,
    ((hlisteners _ hsecond).2.2 report rfl).2⟩

end Search

end Interleave
