import Interleave.Proofs.Machine.Monitors
import Interleave.Proofs.Search.ContextBound

set_option autoImplicit false

namespace Interleave

section Initial

variable {p : Program} {s : State}

theorem Program.initialState_not_deadlocked (hp : p.Sound) (h : p.initialState = .ok s) :
    ¬ s.Deadlocked := by
  rintro ⟨⟨thread, hthread, halive⟩, hstuck⟩
  obtain ⟨s', hs', hwellFormed⟩ := initialState_wellFormed hp
  cases h.symm.trans hs'
  obtain ⟨i, hi⟩ := List.mem_iff_getElem?.1 hthread
  cases hstatus : thread.status with
  | runnable => exact hstuck thread hthread hstatus
  | terminated => exact halive hstatus
  | blocked l =>
    obtain ⟨f, target, span, m, owner, _, _, _, hm, howner, _⟩ :=
      (hwellFormed.blocked_iff hp hi l).1 hstatus
    have hfree := initialState_monitorOf h l
    rw [State.monitorOf, hm, Option.getD_some] at hfree
    rw [hfree] at howner
    cases howner

theorem Program.initialState_holds_iff (hp : p.Sound) (h : p.initialState = .ok s) :
    p.Holds s none ↔ (s.Finished → ∀ e ∈ p.invariants, p.Satisfies s e) := by
  constructor
  · exact fun hholds => hholds.invariants
  · exact fun hinvariants => ⟨rfl, p.initialState_not_deadlocked hp h, hinvariants⟩

end Initial

structure Trail.Resting (t : Trail) : Prop where
  agenda : t.top.agenda = none
  below : t.below = []
  isEnd : t.top.state.isEnd = true

section Resting

variable {x x' : Explorer}

theorem Trail.Resting.not_forward (h : x.trail.Resting) : x.forward ≠ (.ok true, x') := by
  intro hforward
  obtain ⟨a, move, a', n, f, hstep⟩ := Explorer.forward_true hforward
  cases h.agenda.symm.trans hstep.agenda

theorem Trail.Resting.not_backtrack? (h : x.trail.Resting) : x.backtrack? ≠ some x' := by
  intro hback
  have hchain := (Explorer.chain_of_backtrack? hback).1
  rw [h.below] at hchain
  cases hchain

theorem Trail.Resting.shuffleSchedule (h : x.trail.Resting) (source : Random.Source) :
    (x.shuffleSchedule source).1 = x := by
  unfold Explorer.shuffleSchedule
  rw [h.agenda]

end Resting

namespace Search

structure Undisturbed (s : Search) : Prop where
  errors : s.session.errors = []
  constraints : s.config.strategy ≠ .random → s.session.terminated = false →
    s.session.constraints = []

def Frontier.Resting : Frontier → Search → Prop
  | .depthFirst, _ => True
  | .walks w, s => w.initial.Resting ∧ s.config.strategy = .random
  | .bounded w, _ => w.waiting = [] ∧ w.active = none

section Undisturbed

variable {s s' t : Search} {x : Explorer} {b : Session} {w : Walks} {r : Option Walks}
  {f : Frontier}

section

variable (hs : s.Undisturbed)

include hs

theorem Undisturbed.becomes (h : s.Becomes x b s') (hb : SameFindings b s.session) :
    s'.Undisturbed := by
  constructor
  · rw [h.session, hb.errors]
    exact hs.errors
  · rw [h.session, h.config, hb.terminated, hb.constraints]
    exact hs.constraints

theorem Undisturbed.stops (h : s.Stops s') : s'.Undisturbed := by
  obtain ⟨b, hbecomes, herrors, hended, _⟩ := h
  constructor
  · rw [hbecomes.session, herrors]
    exact hs.errors
  · intro hstrategy hterminated
    rw [hbecomes.config] at hstrategy
    rw [hbecomes.session] at hterminated ⊢
    obtain ⟨rfl, _⟩ := hended hterminated
    exact hs.constraints hstrategy hterminated

theorem Undisturbed.depthFirst (hx : s.explorer.trail.Resting) {more : Bool}
    (h : DepthFirst.Turns s more s') : more = false ∧ s'.Undisturbed := by
  cases h with
  | stopped h => exact ⟨rfl, hs.stops h⟩
  | exhausted _ _ h => exact ⟨rfl, hs.becomes h ⟨rfl, rfl, rfl⟩⟩
  | back _ hback => exact absurd hback hx.not_backtrack?
  | on hleaf =>
    -- an end state is a leaf
    have hend : s.explorer.isEnd = true := hx.isEnd
    simp [DepthFirst.isLeaf, hend] at hleaf

theorem Undisturbed.ends (h : Walks.Ends w s r s') (hw : w.initial.Resting) :
    s'.Undisturbed ∧ ∀ w', r = some w' → w'.initial.Resting ∧ s'.explorer.trail.Resting := by
  cases h with
  | last _ h => exact ⟨hs.becomes h ⟨rfl, rfl, rfl⟩, fun _ hnone => by cases hnone⟩
  | again h =>
    refine ⟨hs.becomes h ⟨rfl, rfl, rfl⟩, fun w' hw' => ?_⟩
    cases hw'
    rw [h.explorer]
    exact ⟨hw, hw⟩

theorem Undisturbed.walks (hx : s.explorer.trail.Resting) (hw : w.initial.Resting)
    (hstrategy : s.config.strategy = .random) (h : Walks.Turns w s r s') :
    s'.Undisturbed ∧ ∀ w', r = some w' → w'.initial.Resting ∧ s'.explorer.trail.Resting := by
  cases h with
  | stopped h => exact ⟨hs.stops h, fun _ hnone => by cases hnone⟩
  | cut _ h =>
    refine ⟨⟨?_, fun hother => ?_⟩, fun _ hnone => by cases hnone⟩
    · rw [h.session]
      exact hs.errors
    · rw [h.config] at hother
      exact absurd hstrategy hother
  | begun h =>
    refine ⟨hs.becomes h ⟨rfl, rfl, rfl⟩, fun w' hw' => ?_⟩
    cases hw'
    rw [h.explorer]
    exact ⟨hw, hx⟩
  | halted h hends => exact (hs.stops h).ends hends hw
  | finished _ h hends => exact (hs.becomes h ⟨rfl, rfl, rfl⟩).ends hends hw
  | moved hforward | left hforward =>
    rw [hx.shuffleSchedule] at hforward
    exact absurd hforward hx.not_forward

theorem Undisturbed.takes {w : Bounded} {r : Option Bounded} (hw : w.waiting = [])
    (h : Bounded.Takes w s r s') : r = none ∧ s'.Undisturbed := by
  obtain ⟨hcurrent, hnext⟩ := List.append_eq_nil_iff.1 hw
  cases h with
  | stopped h => exact ⟨rfl, hs.stops h⟩
  | ended _ _ h => exact ⟨rfl, hs.becomes h ⟨rfl, rfl, rfl⟩⟩
  | cut _ _ _ _ _ hmore => exact absurd hnext (WorkQueue.toList_ne_nil hmore)
  | raised _ _ hmore => exact absurd hnext (WorkQueue.toList_ne_nil hmore)
  | taken htaken =>
    rw [WorkQueue.toList_of_pop? htaken] at hcurrent
    cases hcurrent

theorem Undisturbed.turn {r : Option Frontier} (hx : s.explorer.trail.Resting) (hf : f.Resting s)
    (h : f.Turns s r s') :
    s'.Undisturbed ∧ ∀ f', r = some f' → s'.explorer.trail.Resting ∧ f'.Resting s' := by
  cases h with
  | depthFirst h => cases (hs.depthFirst hx h).1
  | exhausted h => exact ⟨(hs.depthFirst hx h).2, fun _ hnone => by cases hnone⟩
  | walks h =>
    obtain ⟨hw, hstrategy⟩ := hf
    obtain ⟨hs', hmore⟩ := hs.walks hx hw hstrategy h
    refine ⟨hs', fun f' hf' => ?_⟩
    obtain ⟨w', rfl, rfl⟩ := Option.map_eq_some_iff.1 hf'
    obtain ⟨hw', hx'⟩ := hmore w' rfl
    exact ⟨hx', hw', h.records.config ▸ hstrategy⟩
  | takes _ h =>
    obtain ⟨rfl, hs'⟩ := hs.takes hf.1 h
    exact ⟨hs', fun _ hnone => by cases hnone⟩
  | steps hactive => cases hf.2.symm.trans hactive

end

theorem Undisturbed.starts (hx : s.explorer.trail.Resting) (h : Starts s f s') :
    s'.Undisturbed ∧ s'.explorer.trail.Resting ∧ f.Resting s' := by
  have hbooks : ∀ {y : Explorer}, s.Becomes y (.start s.explorer) s' → s'.Undisturbed := by
    intro y hbecomes
    constructor
    · rw [hbecomes.session]
      rfl
    · rw [hbecomes.session]
      exact fun _ _ => rfl
  cases h with
  | depthFirst _ h => exact ⟨hbooks h, h.explorer ▸ hx, trivial⟩
  | walks hstrategy hinitial h =>
    refine ⟨hbooks h, ?_, hinitial ▸ hx, h.config ▸ hstrategy⟩
    rw [h.explorer]
    exact hx
  | bounded _ h =>
    have hnone : s.explorer.schedule? = none := by
      unfold Explorer.schedule?
      rw [hx.agenda]
      rfl
    refine ⟨hbooks h, h.explorer ▸ hx, ?_, rfl⟩
    simp [Bounded.waiting, Bounded.initial, hnone, WorkQueue.empty, WorkQueue.toList]

end Undisturbed

/-- Where no thread can run from the start, nothing is found. -/
theorem Fresh.undisturbed {p : Program} {c : Config} {s s' : Search} (hs : s.Fresh p c)
    {s₀ : State} (hinitial : p.initialState = .ok s₀) (hend : s₀.isEnd = true) {fuel : Nat}
    {report : Report} (h : s.perform (run fuel) = (.ok (some report), s')) :
    report.errors = [] ∧
      (c.strategy ≠ .random → report.terminated = false → report.constraints = []) := by
  obtain ⟨r, f, hstarts⟩ := hs.start.starts
  cases hinitial.symm.trans hstarts.initial
  have hx : s.explorer.trail.Resting := by
    refine ⟨?_, hstarts.below, ?_⟩
    · rw [hstarts.agenda, Agenda.ofState, if_pos hend]
    · rw [hstarts.state]
      exact hend
  obtain ⟨t, ⟨ht, hconfig⟩, rfl, -⟩ := run_invariant
    (I := fun f t => t.Undisturbed ∧ t.explorer.trail.Resting ∧ f.Resting t ∧ t.config = s.config)
    (J := fun t => t.Undisturbed ∧ t.config = s.config)
    (fun hstart => by
      obtain ⟨ht, hrests, hf⟩ := Undisturbed.starts hx hstart
      exact ⟨ht, hrests, hf, hstart.config⟩)
    (fun hI hturn => by
      obtain ⟨ht, hrests, hf, hconfig⟩ := hI
      obtain ⟨ht', hmore⟩ := ht.turn hrests hf hturn
      have hconfig' := hturn.records.config.trans hconfig
      refine ⟨fun f' hf' => ?_, fun _ => ⟨ht', hconfig'⟩⟩
      exact ⟨ht', (hmore f' hf').1, (hmore f' hf').2, hconfig'⟩) h
  refine ⟨ht.errors, fun hstrategy => ht.constraints ?_⟩
  rw [hconfig, hs.config]
  exact hstrategy

end Search

/-- In the initial state no exception is pending and there is no deadlock, so that the default
properties hold, unless every thread has terminated and an invariant is false. A run from such a
state does not notice: it finds no error, and it passes if it is not asked to stop and does not walk
at random. -/
theorem initial_state_unchecked {source path : String} {p : Program}
    (hp : Program.ofSource source path = .ok p) {c : Config} {s s' : Search} (hs : s.Fresh p c)
    {fuel : Nat} {report : Report}
    (h : s.perform (Search.run fuel) = (.ok (some report), s')) :
    ∃ s₀, p.initialState = .ok s₀ ∧
      s.explorer.state = s₀ ∧ s.explorer.fault = none ∧ ¬ s₀.Deadlocked ∧
      (p.Holds s₀ none ↔ (s₀.Finished → ∀ e ∈ p.invariants, p.Satisfies s₀ e)) ∧
      (s₀.Finished → report.errors = [] ∧
        (report.isPass = true ↔ c.strategy ≠ .random ∧ report.terminated = false) ∧
        ((Check.conclude c (.ok report)).status = .pass ↔
          c.strategy ≠ .random ∧ report.terminated = false)) := by
  have hsound := ofSource_sound hp
  obtain ⟨s₀, f, hx⟩ := hs.start.starts
  have hinitial := hx.initial
  refine ⟨s₀, hinitial, hx.state, hx.fault, p.initialState_not_deadlocked hsound hinitial,
    p.initialState_holds_iff hsound hinitial, fun hfinished => ?_⟩
  have hend := (State.finished_iff.1 hfinished).1
  obtain ⟨herrors, hconstraints⟩ := hs.undisturbed hinitial hend h
  have hpass : report.isPass = true ↔ c.strategy ≠ .random ∧ report.terminated = false := by
    constructor
    · intro hpass
      refine ⟨fun hrandom => ?_, ?_⟩
      · rw [hs.not_isPass_of_random hrandom h] at hpass
        cases hpass
      · simp only [Report.isPass, Bool.and_eq_true, Bool.not_eq_true'] at hpass
        exact hpass.2
    · rintro ⟨hstrategy, hterminated⟩
      simp [Report.isPass, herrors, hconstraints hstrategy hterminated, hterminated]
  exact ⟨herrors, hpass, Report.verdict_eq_pass.trans hpass⟩

theorem dormant_undisturbed : ∃ (s s' : Search) (report : Report) (s₀ : State),
    s.Fresh dormant Config.default ∧ s.perform (Search.run 10) = (.ok (some report), s') ∧
    dormant.initialState = .ok s₀ ∧ s₀.Finished ∧ report.errors = [] ∧ report.isPass = true := by
  have hrun : (Check.report? dormant Config.default 10).map (·.terminated) = some false := by
    decide +kernel
  obtain ⟨report, hreport, hterminated⟩ := Option.map_eq_some_iff.1 hrun
  obtain ⟨s, s', hs, hperform⟩ := Check.report?_eq_some hreport
  obtain ⟨r, hinitial, hfinished, _⟩ := dormant_initial
  obtain ⟨s₀, hs₀, _, _, _, _, hquiet⟩ := initial_state_unchecked dormant_source hs hperform
  cases hinitial.symm.trans hs₀
  obtain ⟨herrors, hpass, _⟩ := hquiet hfinished
  exact ⟨s, s', report, r, hs, hperform, hinitial, hfinished, herrors,
    hpass.2 ⟨by decide, hterminated⟩⟩

/-- Every thread has terminated without a step, the invariant is false, and the check passes. -/
theorem dormant_passes : ∃ s₀, dormant.initialState = .ok s₀ ∧ s₀.Finished ∧
    ¬ dormant.Holds s₀ none ∧
    (dormant.check .check Config.default false .error 10).map (·.1.status) = some .pass := by
  obtain ⟨s₀, hinitial, hfinished, hfails⟩ := dormant_initial
  exact ⟨s₀, hinitial, hfinished, hfails, by decide +kernel⟩

end Interleave
