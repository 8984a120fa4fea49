import Interleave.Proofs.Search.Bounded
import Interleave.Proofs.Search.DepthFirst

set_option autoImplicit false

namespace Interleave

/-- Every execution with at least one step ends without a fault and without a deadlock, and with all
invariants true where every thread has terminated. -/
def Program.Safe (p : Program) (mode : Symmetry) : Prop :=
  ∀ choices s fault, p.Execution mode choices s fault → choices ≠ [] → p.Holds s fault

/-- Settings under which states are told apart exactly. -/
structure Config.Exact (c : Config) : Prop where
  serializer : c.serializer = .full
  includePc : c.includePc = true
  stateSet : c.stateSet = .exact
  filteredFields : c.filteredFields = []
  filteredMethods : c.filteredMethods = []

structure Explorer.Initial (s₀ : State) (f : Fingerprint) (x : Explorer) : Prop where
  wellFormed : x.model.program.WellFormed s₀
  fingerprint : x.model.fingerprint s₀ = .ok f
  state : x.trail.top.state = s₀
  agenda : x.trail.top.agenda = Agenda.ofState s₀
  below : x.trail.below = []
  number : x.table.number? f = some x.stateId
  only : ∀ g id, x.table.number? g = some id → g = f

section Start

variable {p : Program} {c : Config} {x : Explorer} {s₀ : State} {f : Fingerprint}

theorem Explorer.start_initial (hp : p.Sound) (hplain : p.Unfiltered) (hc : c.Exact)
    (h : x.Started p c) :
    x.model.Exact ∧ x.Steady x.model ∧ ∃ s₀ f, p.initialState = .ok s₀ ∧ x.Initial s₀ f := by
  obtain ⟨s₀, f, hx⟩ := h.starts
  have hprogram : x.model.program = p := congrArg Model.program hx.model
  have hpolicy : x.model.policy = c.policy := congrArg Model.policy hx.model
  have hmasks := hx.masks
  unfold Config.filter at hmasks
  rw [hc.filteredFields, hc.filteredMethods] at hmasks
  obtain ⟨_, hadded⟩ := hx.added
  rw [hc.stateSet] at hadded
  obtain ⟨hdistinct, hextends⟩ := StateTable.distinct_empty.add hadded
  have hexecution : p.Execution c.symmetry [] s₀ none := .start hx.initial
  refine ⟨⟨hprogram ▸ hp, ?_, ?_, ?_⟩, ⟨rfl, hdistinct, hx.random⟩, s₀, f, hx.initial,
    hprogram ▸ hexecution.wellFormed hp, hx.fingerprint, hx.state, hx.agenda, hx.below,
    hextends.number, ?_⟩
  · rw [hpolicy]
    exact hc.serializer
  · rw [hpolicy]
    exact hc.includePc
  · rw [hprogram]
    exact ⟨hplain, hmasks⟩
  · intro g id hg
    rcases hextends.only g id hg with hbefore | hsame
    · cases Std.TreeMap.getElem?_emptyc.symm.trans hbefore
    · exact hsame

theorem Explorer.Initial.fresh (hx : x.Initial s₀ f) :
    x.trail.top.agenda = Agenda.ofState x.state := by
  rw [Explorer.state, hx.state]
  exact hx.agenda

theorem Explorer.Initial.explored (hx : x.Initial s₀ f) (hm : x.model.Exact)
    {V : Fingerprint → Prop} (hf : V f) (honly : ∀ g, V g → g = f) :
    Search.Explored x.model s₀ V [x.trail.top] := by
  have hnode : x.model.program.WellFormed x.trail.top.state := hx.state ▸ hx.wellFormed
  have hprint : x.model.fingerprint x.trail.top.state = .ok f := hx.state ▸ hx.fingerprint
  refine ⟨⟨s₀, f, hx.wellFormed, hx.fingerprint, hf, hx.wellFormed.toCoherent.similar⟩, ?_⟩
  exact (hm.covers_new hnode hprint hx.fresh).of_subset honly

end Start

namespace Search

section Starts

variable {m : Model} {s₀ : State} {f : Fingerprint} {s s' : Search} {x : Explorer} {w : Walks}
  {r : Option Walks}

theorem start_guarded (h : s.Becomes x (.start s.explorer) s') : s'.Guarded := by
  intro hdone
  rw [h.session] at hdone
  cases hdone

theorem DepthFirst.Thorough.start (hm : s.explorer.model.Exact)
    (hsteady : s.explorer.Steady s.explorer.model) (hx : s.explorer.Initial s₀ f)
    (hlimit : s.config.depthLimit ≠ some 0) (h : s.Becomes s.explorer (.start s.explorer) s')
    (hs' : s'.Honest s.explorer.model.program s.explorer.model.symmetry) :
    DepthFirst.Thorough s.explorer.model s₀ (DepthFirst.openNodes s') s' := by
  refine ⟨hs', h.explorer ▸ hsteady, start_guarded h, ?_, ?_, ?_⟩
  · intro _
    rw [h.session]
    rfl
  · intro _ _ hreached
    unfold depthLimitReached at hreached
    rw [h.config, h.session] at hreached
    obtain ⟨limit, hlimit', hle⟩ := Option.any_eq_true _ _ |>.1 hreached
    have hdepth : (Session.start s.explorer).depth = 0 := congrArg List.length hx.below
    rw [hdepth, decide_eq_true_eq, Nat.le_zero] at hle
    rw [hle] at hlimit'
    exact absurd hlimit' hlimit
  · intro _
    have hopen : DepthFirst.openNodes s' = [s.explorer.trail.top] := by
      unfold DepthFirst.openNodes Trail.chain
      rw [h.session, h.explorer, hx.below]
      rfl
    rw [hopen, h.explorer]
    exact hx.explored hm ⟨_, hx.number⟩ fun g ⟨id, hid⟩ => hx.only g id hid

theorem Bounded.initial_covers {W : State → Fingerprint → ThreadId → Prop}
    {V : ThreadId → Fingerprint → Prop} (hfresh : x.trail.top.agenda = Agenda.ofState x.state)
    (h : m.CoversSteps W V [x.trail.top]) :
    m.CoversSteps W V ((Bounded.initial x).current.toList.map WorkItem.node) := by
  unfold Bounded.initial
  dsimp only
  split
  · next hnone =>
    refine h.drop (.inr fun a ha => ?_)
    cases (Option.map_eq_none_iff.1 hnone).symm.trans ha
  · next schedule hschedule =>
    obtain ⟨a, ha, rfl⟩ := Option.map_eq_some_iff.1 hschedule
    have hnode : (⟨x.trail, a.schedule⟩ : WorkItem).node = x.trail.top := by
      unfold WorkItem.node
      rw [← Agenda.data_ofState (hfresh.symm.trans ha), ← ha]
    rw [← hnode] at h
    exact h

theorem Bounded.Thorough.start (hm : s.explorer.model.Exact)
    (hsteady : s.explorer.Steady s.explorer.model) (hx : s.explorer.Initial s₀ f)
    (h : s.Becomes s.explorer (.start s.explorer) s')
    (hs' : s'.Honest s.explorer.model.program s.explorer.model.symmetry)
    (hwaiting : ∀ item ∈ (Bounded.initial s.explorer).waiting,
      item.Genuine s.explorer.model.program s.explorer.model.symmetry) :
    Bounded.Thorough s.explorer.model s₀ (Bounded.initial s.explorer) s' := by
  have hvisited : ∀ key, key ∈ (Bounded.initial s.explorer).visited ↔
      key = (s.explorer.stateId, none) := by
    intro key
    unfold Bounded.initial
    rw [Bounded.mem_insert]
    simp
  have hkey := (hvisited _).2 rfl
  refine ⟨hs', hwaiting, h.explorer ▸ hsteady, start_guarded h, ?_, ?_, ?_, ?_⟩
  · intro key hmem
    obtain rfl := (hvisited key).1 hmem
    rw [h.explorer]
    exact ⟨f, hx.number⟩
  · intro trail base hactive
    cases hactive
  · intro _
    rw [h.session]
    rfl
  · intro _
    have hexplored := hx.explored hm (V := (Bounded.initial s.explorer).Visited s.explorer)
      ⟨_, _, hkey, hx.number⟩ fun g ⟨_, _, _, hg⟩ => hx.only g _ hg
    have hnodes : (Bounded.initial s.explorer).openNodes s.explorer =
        (Bounded.initial s.explorer).current.toList.map WorkItem.node := by
      rw [Bounded.openNodes_idle rfl, Bounded.waiting]
      exact congrArg (List.map WorkItem.node) (List.append_nil _)
    rw [h.explorer, hnodes]
    exact ⟨hexplored.sees, Bounded.initial_covers hx.fresh hexplored.covers⟩

theorem Guarded.ends (hs : s.Guarded) (h : Walks.Ends w s r s') :
    (∀ w', r = some w' → s'.Guarded) ∧ (r = none → ¬ s'.session.Clean) := by
  cases h with
  | last hdone h =>
    exact left_none fun hclean => hs hdone (h.clean ⟨rfl, rfl, rfl⟩ hclean)
  | again h => exact left_some (hs.becomes h ⟨rfl, rfl, rfl⟩ rfl)

theorem Guarded.walks (hs : s.Guarded) (h : Walks.Turns w s r s') :
    (∀ w', r = some w' → s'.Guarded) ∧ (r = none → ¬ s'.session.Clean) := by
  cases h with
  | stopped h => exact left_none (hs.stops h)
  | cut hne h =>
    refine left_none fun hclean => ?_
    rw [h.session] at hclean
    exact hne hclean.constraints
  | begun h => exact left_some (hs.becomes h ⟨rfl, rfl, rfl⟩ rfl)
  | halted h hends =>
    have hdirty := hs.stops h
    exact Guarded.ends (fun _ => hdirty) hends
  | finished _ h hends => exact (hs.becomes h ⟨rfl, rfl, rfl⟩ rfl).ends hends
  | moved _ h hbooked hz =>
    have hv := (hs.becomes h ⟨rfl, rfl, rfl⟩ rfl).booked hbooked
    exact left_some (hv.becomes hz ⟨rfl, rfl, rfl⟩ rfl)
  | left _ h hbooked hz hends =>
    have hv := (hs.becomes h ⟨rfl, rfl, rfl⟩ rfl).booked hbooked
    exact (hv.becomes hz ⟨rfl, rfl, rfl⟩ rfl).ends hends

def Frontier.Thorough (m : Model) (s₀ : State) : Frontier → Search → Prop
  | .depthFirst, s => DepthFirst.Thorough m s₀ (DepthFirst.openNodes s) s
  | .walks _, s => s.Guarded
  | .bounded w, s => Bounded.Thorough m s₀ w s

theorem Frontier.Thorough.turn (hm : m.Exact) {frontier : Frontier} {r : Option Frontier}
    (hs : frontier.Thorough m s₀ s) (h : frontier.Turns s r s') :
    (∀ f, r = some f → f.Thorough m s₀ s') ∧ (r = none → Complete m s₀ s') := by
  cases h with
  | depthFirst h => exact left_some ((hs.turns hm h).1 rfl)
  | exhausted h => exact left_none ((hs.turns hm h).2 rfl)
  | walks h =>
    obtain ⟨hmore, hdone⟩ := Guarded.walks hs h
    exact left_map hmore fun hnone hclean => absurd hclean (hdone hnone)
  | takes hactive h =>
    obtain ⟨hmore, hdone⟩ := hs.takes hactive h
    exact left_map hmore hdone
  | steps hactive h => exact left_some (hs.steps hactive hm h)

end Starts

section Pass

variable {p : Program} {c : Config} {s s' : Search} {fuel : Nat} {report : Report}

theorem Fresh.depthLimit (hs : s.Fresh p c) : s.config.depthLimit ≠ some 0 := by
  intro hzero
  rw [hs.config] at hzero
  have haccepted := hs.accepted
  unfold Config.problem? at haccepted
  rw [if_pos hzero] at haccepted
  cases haccepted

theorem Fresh.thorough (hs : s.Fresh p c) (hp : p.Sound) (hplain : p.Unfiltered) (hc : c.Exact) :
    s.explorer.model.Exact ∧ ∃ s₀, p.initialState = .ok s₀ ∧
      ∀ {f t}, Starts s f t → f.Thorough s.explorer.model s₀ t := by
  obtain ⟨hm, hsteady, s₀, f, hinitial, hx⟩ := Explorer.start_initial hp hplain hc hs.start
  refine ⟨hm, s₀, hinitial, fun {f t} hstarts => ?_⟩
  obtain ⟨ht, hfrontier⟩ := hs.honest_model.starts hstarts
  cases hstarts with
  | depthFirst _ h => exact DepthFirst.Thorough.start hm hsteady hx hs.depthLimit h ht
  | walks _ _ h => exact start_guarded h
  | bounded _ h => exact Bounded.Thorough.start hm hsteady hx h ht hfrontier

theorem Fresh.safe (hs : s.Fresh p c) (hp : p.Sound) (hplain : p.Unfiltered) (hc : c.Exact)
    (h : s.perform (run fuel) = (.ok (some report), s')) (hpass : report.isPass = true) :
    p.Safe c.symmetry := by
  obtain ⟨hm, s₀, hinitial, hstart⟩ := hs.thorough hp hplain hc
  have hgenuine := hs.start.genuine
  obtain ⟨t, ht, rfl, -⟩ := run_invariant (J := Complete s.explorer.model s₀) hstart
    (fun hI hturn => hI.turn hm hturn) h
  have hclean := Report.isPass_ofSession.1 hpass
  obtain ⟨V, _, hsees, hcovers⟩ := ht ⟨hclean.errors, hclean.constraints, hclean.terminated⟩
  intro choices state fault hexecution hne
  rw [← hgenuine.program, ← hgenuine.symmetry] at hexecution
  rw [← hgenuine.program] at hinitial ⊢
  exact (hcovers.execution hinitial hsees hexecution).2 hne

theorem Fresh.not_isPass_of_random (hs : s.Fresh p c) (hrandom : c.strategy = .random)
    (h : s.perform (run fuel) = (.ok (some report), s')) : report.isPass = false := by
  have hturn : ∀ {f : Frontier} {v : Search} {r : Option Frontier} {v' : Search},
      (∃ w, f = .walks w) ∧ v.Guarded → f.Turns v r v' →
      (∀ f', r = some f' → (∃ w, f' = .walks w) ∧ v'.Guarded) ∧
        (r = none → ¬ v'.session.Clean) := by
    rintro _ v r v' ⟨⟨w, rfl⟩, hguarded⟩ (_ | _ | h)
    obtain ⟨hmore, hlast⟩ := hguarded.walks h
    exact left_map (fun w' hw' => ⟨⟨w', rfl⟩, hmore w' hw'⟩) hlast
  have hstart : ∀ {f : Frontier} {t : Search}, Starts s f t → (∃ w, f = .walks w) ∧ t.Guarded := by
    intro f t hstarts
    rw [← hs.config] at hrandom
    cases hstarts with
    | depthFirst hstrategy => cases hrandom.symm.trans hstrategy
    | walks _ _ h => exact ⟨⟨_, rfl⟩, start_guarded h⟩
    | bounded hstrategy => cases hrandom.symm.trans hstrategy
  obtain ⟨t, ht, rfl, -⟩ := run_invariant (J := fun s => ¬ s.session.Clean) hstart hturn h
  rw [← Bool.not_eq_true, Report.isPass_ofSession]
  exact fun hclean => ht ⟨hclean.errors, hclean.constraints, hclean.terminated⟩

end Pass

end Search

variable {p : Program} {c : Config} {threshold : Level} {result : CheckResult}

theorem Report.verdict_eq_pass {r : Report} : r.verdict.1 = .pass ↔ r.isPass = true := by
  unfold Report.verdict Report.isPass Report.memoryLimit?
  cases herrors : r.errors with
  | cons e rest => simp
  | nil =>
    cases hterminated : r.terminated with
    | true => simp
    | false =>
      cases hconstraints : r.constraints with
      | nil => simp
      | cons k rest =>
        simp only [List.isEmpty_nil, Bool.not_true, Bool.false_eq_true, if_false, List.isEmpty_cons]
        split <;> simp

theorem Check.prepare_failed (h : Check.prepare p c threshold = .error result) :
    result.status = .error := by
  unfold Check.prepare at h
  rcases bind_eq_error h with hstart | ⟨x, _, h⟩
  · obtain ⟨e, rfl⟩ := mapError_eq_error hstart
    rfl
  rcases bind_eq_error h with hnew | ⟨search, _, h⟩
  · obtain ⟨e, rfl⟩ := mapError_eq_error hnew
    rfl
  · cases h

theorem Program.of_check_pass {stop : Bool} {fuel : Nat} {journal : Journal}
    (h : p.check .check c stop threshold fuel = some (result, journal))
    (hpass : result.status = .pass) :
    ∃ s s' report, Search.Fresh p c s ∧ s.perform (Search.run fuel) = (.ok (some report), s') ∧
      report.isPass = true := by
  unfold Program.check at h
  cases hprepare : Check.prepare p c threshold with
  | error failed =>
    simp only [hprepare] at h
    cases h
    cases (Check.prepare_failed hprepare).symm.trans hpass
  | ok search =>
    simp only [hprepare, Check.run] at h
    split at h
    · cases h
    · next report s' hrun =>
      cases h
      exact ⟨_, s', report, Check.prepare_fresh hprepare, hrun, Report.verdict_eq_pass.1 hpass⟩
    · cases h
      cases hpass

/-- A program is safe if one of its searches passes, under any strategy and any limits. -/
theorem pass_safe {source path : String} {p : Program} (hp : Program.ofSource source path = .ok p)
    (hplain : p.Unfiltered) {c : Config} (hc : c.Exact) :
    (∀ (s s' : Search) (fuel : Nat) (report : Report), s.Fresh p c →
      s.perform (Search.run fuel) = (.ok (some report), s') →
      (report.isPass = true ↔ (Check.conclude c (.ok report)).status = .pass) ∧
      (report.isPass = true → p.Safe c.symmetry) ∧
      (c.strategy = .random → report.isPass = false)) ∧
    ∀ (stop : Bool) (threshold : Level) (fuel : Nat) (result : CheckResult) (journal : Journal),
      p.check .check c stop threshold fuel = some (result, journal) → result.status = .pass →
      p.Safe c.symmetry := by
  have hsound := ofSource_sound hp
  refine ⟨fun s s' fuel report hs h => ⟨?_, ?_, ?_⟩,
    fun stop threshold fuel result journal h hpass => ?_⟩
  · exact Report.verdict_eq_pass.symm
  · exact hs.safe hsound hplain hc h
  · exact fun hrandom => hs.not_isPass_of_random hrandom h
  · obtain ⟨s, s', report, hs, hrun, hreport⟩ := Program.of_check_pass h hpass
    exact hs.safe hsound hplain hc hrun hreport

theorem relay_source : Program.ofSource
    ("static int n = 0\ninvariant n != 0\n" ++
      "thread a \x7b\n  lock Main\n  n = choose(1, 2)\n  unlock Main\n\x7d\n" ++
      "thread b \x7b\n  lock Main\n  n = n + 1\n  unlock Main\n\x7d\n") "relay" =
    .ok (relay (counter .ne 0)) := by
  decide +kernel

theorem relay_unfiltered (e : Expr) : (relay e).Unfiltered := by
  constructor <;> simp [relay, builtinClasses]

/-- Whoever is first and whatever is chosen, the counter is not zero in the end. -/
theorem relay_safe :
    ((relay (counter .ne 0)).check .check
      { Config.default with strategy := .contextBounded } false .error 1000).map (·.1.status) =
        some .pass ∧
    (relay (counter .ne 0)).Safe .fast := by
  have hpass : ((relay (counter .ne 0)).check .check
      { Config.default with strategy := .contextBounded } false .error 1000).map (·.1.status) =
        some .pass := by
    decide +kernel
  obtain ⟨⟨result, journal⟩, hresult, hstatus⟩ := Option.map_eq_some_iff.1 hpass
  exact ⟨hpass, (pass_safe relay_source (relay_unfiltered _) ⟨rfl, rfl, rfl, rfl, rfl⟩).2 _ _ _ _ _
    hresult hstatus⟩

end Interleave
