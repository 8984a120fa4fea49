import Interleave.Proofs.Search.Agreement
import Interleave.Proofs.Search.Termination

set_option autoImplicit false

namespace Interleave

def Explorer.Spent (x : Explorer) : Prop := x.forward = (.ok false, x)

section Spent

variable {x y : Explorer}

/-- An agenda that has nothing left has nothing left when it is asked again. -/
theorem Agenda.advance_cases (a : Agenda) : (∃ fresh b, a.advance = (some fresh, some b)) ∨
    a.advance = (none, none) ∨ ∃ b, a.advance = (none, some b) ∧ b.advance = (none, some b) := by
  unfold advance
  split
  · exact .inl ⟨_, _, rfl⟩
  split
  · exact .inl ⟨_, _, rfl⟩
  next hschedule =>
  by_cases hcascaded : a.schedule.progress.cascaded = true
  · simp [hcascaded]
  · exact .inr (.inr ⟨⟨a.schedule, none⟩, by simp [hcascaded], by simp [hschedule, hcascaded]⟩)

theorem Explorer.spent_of_forward (h : x.forward = (.ok false, y)) : y.Spent := by
  have hdecide := forward_false h
  suffices hagain : y.decide = (.ok none, y) by
    unfold Spent forward
    rw [hagain]
  unfold decide at hdecide
  cases hx : x.trail.top.agenda with
  | none =>
    simp only [hx] at hdecide
    obtain ⟨_, rfl⟩ := Prod.mk.inj hdecide
    unfold decide
    rw [hx]
  | some a =>
    simp only [hx] at hdecide
    rcases a.advance_cases with ⟨fresh, b, hadvance⟩ | hadvance | ⟨b, hadvance, hstays⟩
    · -- an alternative that is left is taken, or there is an error
      simp only [hadvance] at hdecide
      split at hdecide
      · cases hdecide
      split at hdecide
      · split at hdecide
        · cases hdecide
        · cases hdecide
      · cases hdecide
    · simp only [hadvance] at hdecide
      obtain ⟨_, rfl⟩ := Prod.mk.inj hdecide
      rfl
    · simp only [hadvance] at hdecide
      obtain ⟨_, rfl⟩ := Prod.mk.inj hdecide
      unfold decide
      simp only [setAgenda, Trail.setAgenda, hstays]

end Spent

namespace Search

/-- No request to stop is open, and no listener stops the search or refuses to go on. -/
structure Unattended (s : Search) : Prop where
  stop : s.stop = false
  goes : ∀ entry ∈ s.listeners, ∀ c heard, (entry.listener.react c heard).stop = false ∧
    (entry.listener.react c heard).refusal = none

section Unattended

variable {s : Search}

section

variable (hs : s.Unattended)

include hs

theorem Unattended.deliver (c : Callback) {entry : Registered} (hentry : entry ∈ s.listeners) :
    ∃ s', Does (deliver c entry) s () s' ∧ s'.Unattended ∧ s'.listeners = s.listeners := by
  obtain ⟨hgoes, haccepts⟩ := hs.goes entry hentry c fun _ => s.heard entry.id
  refine ⟨{ s with
    deliveries := ⟨entry.id, c⟩ :: s.deliveries
    stop := s.stop || (entry.listener.react c fun _ => s.heard entry.id).stop
    journal := (entry.listener.react c fun _ => s.heard entry.id).notes.foldl .add s.journal },
    does_get_bind.2 (does_set_bind.2 ?_), ⟨?_, hs.goes⟩, rfl⟩
  · simp only [haccepts]
    exact does_pure.2 ⟨rfl, rfl⟩
  · simp [hs.stop, hgoes]

theorem Unattended.deliverAll (c : Callback) {entries : List Registered}
    (hentries : ∀ entry ∈ entries, entry ∈ s.listeners) :
    ∃ s', Does (deliverAll c entries) s () s' ∧ s'.Unattended := by
  induction entries generalizing s with
  | nil => exact ⟨s, does_pure.2 ⟨rfl, rfl⟩, hs⟩
  | cons entry rest ih =>
    obtain ⟨t, hone, ht, hlisteners⟩ := hs.deliver c (hentries entry List.mem_cons_self)
    obtain ⟨s', hall, hs'⟩ := ih ht fun other hother =>
      hlisteners ▸ hentries other (List.mem_cons_of_mem entry hother)
    exact ⟨s', does_bind.2 ⟨(), t, hone, hall⟩, hs'⟩

theorem Unattended.emit (event : Event) : ∃ s', Does (emit event) s () s' ∧ s'.Unattended := by
  have hall : ∀ entry ∈ Registry.order s.listeners event, entry ∈ s.listeners := by
    cases event <;> simp [Registry.order]
  unfold Search.emit
  simp only [does_get_bind]
  split
  · exact ⟨s, does_pure.2 ⟨rfl, rfl⟩, hs⟩
  · exact hs.deliverAll _ hall

theorem Unattended.checkTerminated : Does checkTerminated s s.session.terminated s := by
  simp only [Search.checkTerminated, does_get_bind, hs.stop, Bool.false_eq_true, if_false]
  exact does_pure.2 ⟨rfl, rfl⟩

theorem Unattended.takeIgnored : ∃ s', Does takeIgnored s s.session.ignored s' ∧ s'.Unattended :=
  ⟨_, rfl, hs.stop, hs.goes⟩

theorem Unattended.processed : ∃ s', Does processed s () s' ∧ s'.Unattended := by
  unfold Search.processed modifyStats
  simp only [does_modifySession_bind]
  refine Unattended.emit ?_ .stateProcessed
  exact ⟨hs.stop, hs.goes⟩

omit hs in
theorem forward_of_spent (hs : s.explorer.Spent) : Does forward s false s := by
  rw [forward, does_withExplorer_bind, hs]
  exact does_pure.2 ⟨rfl, rfl⟩

theorem Unattended.start (hdfs : s.config.strategy = .dfs) :
    ∃ s', Does start s .depthFirst s' ∧ s'.Unattended := by
  obtain ⟨s', hemit, hs'⟩ := Unattended.emit (s := { s with
    session := .start s.explorer
    journal := s.journal.add ⟨.info, "search", "search started",
      [("strategy", s.config.strategy.label)]⟩ }) ⟨hs.stop, hs.goes⟩ .searchStarted
  refine ⟨s', ?_, hs'⟩
  simp only [Search.start, does_get_bind, does_modifySession_bind, does_note_bind, hdfs] at hemit ⊢
  exact does_bind.2 ⟨(), s', hemit, does_pure.2 ⟨rfl, rfl⟩⟩

end

theorem turns_outlast {I : Frontier → Search → Prop}
    (hturn : ∀ {f s}, I f s → ∃ f' s', Does (turn f) s (some f') s' ∧ I f' s') {frontier : Frontier}
    (hI : I frontier s) (fuel : Nat) : ∃ s', Does (turns fuel frontier) s false s' := by
  induction fuel generalizing frontier s with
  | zero => exact ⟨s, does_pure.2 ⟨rfl, rfl⟩⟩
  | succ fuel ih =>
    obtain ⟨f, t, hone, ht⟩ := hturn hI
    obtain ⟨s', hrest⟩ := ih ht
    exact ⟨s', does_bind.2 ⟨some f, t, hone, hrest⟩⟩

end Unattended

namespace DepthFirst

structure Stuck (s : Search) : Prop where
  spent : s.explorer.Spent
  isEnd : s.explorer.isEnd = false
  running : s.Running
  isNew : s.session.isNew = true
  ignored : s.session.ignored = false
  limit : s.depthLimitReached = false

variable {s s' : Search}

theorem Stuck.isLeaf (hs : Stuck s) : isLeaf s s.session.ignored = false := by
  simp [DepthFirst.isLeaf, hs.ignored, hs.isNew, hs.isEnd, hs.limit]

theorem Stuck.becomes (hs : Stuck s) {tally : Tally}
    (h : s.Becomes s.explorer { s.session with
      ignored := false, stats := s.session.stats.retally tally } s') : Stuck s' := by
  cases s'
  obtain ⟨rfl, rfl, rfl, rfl⟩ := h
  exact ⟨hs.spent, hs.isEnd, ⟨hs.running.done, hs.running.terminated⟩, hs.isNew, rfl, hs.limit⟩

theorem Stuck.turns (hs : Stuck s) {more : Bool} (h : Turns s more s') :
    (more = true → Stuck s') ∧ (more = false → s'.session.terminated = true) := by
  cases h with
  | stopped h =>
    refine ⟨nofun, fun _ => ?_⟩
    obtain ⟨b, hbecomes, _, hended, _⟩ := h
    rw [hbecomes.session]
    by_contra hgoes
    have hdone := (hended (by simpa using hgoes)).2
    cases hs.running.done.symm.trans hdone
  | exhausted hleaf | back hleaf => cases hs.isLeaf.symm.trans hleaf
  | @on t _ _ h hproceeds =>
    refine ⟨fun _ => ?_, nofun⟩
    cases hproceeds with
    | moved hforward =>
      rw [h.explorer, hs.spent] at hforward
      cases hforward
    | processed hforward h' =>
      rw [h.explorer, hs.spent] at hforward
      obtain ⟨_, hsame⟩ := Prod.mk.inj hforward
      rw [← hsame, h.session] at h'
      exact hs.becomes (h.trans h')

theorem Stuck.turn (hs : Stuck s) (hfree : s.Unattended) :
    ∃ s', Does turn s true s' ∧ s'.Unattended := by
  have hchecked := hfree.checkTerminated
  obtain ⟨t, hignored, ht⟩ := hfree.takeIgnored
  obtain ⟨_, hkeeps⟩ := takeIgnored_does hignored
  obtain ⟨s', hprocessed, hs'⟩ := ht.processed
  have hforward : Does forward t false t := forward_of_spent (hkeeps.explorer ▸ hs.spent)
  refine ⟨s', ?_, hs'⟩
  rw [hs.running.terminated] at hchecked
  simp only [DepthFirst.turn, does_get_bind, hs.running.done, Bool.false_eq_true, if_false]
  refine does_bind.2 ⟨false, s, hchecked, does_bind.2 ⟨_, t, hignored, ?_⟩⟩
  simp only [does_get_bind, isLeaf_congr hkeeps, hs.isLeaf, Bool.false_eq_true, if_false]
  refine does_bind.2 ⟨(), s', does_bind.2 ⟨false, t, hforward, hprocessed⟩, ?_⟩
  exact does_pure.2 ⟨rfl, rfl⟩

def Ready (s : Search) : Prop :=
  s.explorer.isEnd = false →
    ∃ a, s.explorer.trail.top.agenda = some a ∧ ∃ t data, a.Pending t data

/-- Between turns: a run that is done was broken off after a step, and a state is left at once only
after a step. Once the search has come back to the initial state for good, that state is spent. -/
structure Orderly (s : Search) : Prop where
  guarded : s.Guarded
  done : s.session.done = true → 0 < s.explorer.depth ∧ Ready s
  ignored : s.session.ignored = true → 0 < s.explorer.depth
  spent : s.explorer.depth = 0 → s.session.isNew = false → s.explorer.Spent

structure Left (s : Search) : Prop where
  clean : s.session.Clean → s.explorer.depth = 0
  left : s.session.terminated = false → 0 < s.explorer.depth ∧ Ready s ∨
    s.explorer.depth = 0 ∧ (s.explorer.isEnd = false → s.explorer.Spent)

variable {t : Search} {p : Program} {mode : Symmetry}

theorem Orderly.proceeds (hguarded : s.Guarded) (hdone : s.session.done = false)
    (hignored : s.session.ignored = false) (hx : s.explorer.Genuine p mode)
    (h : Proceeds s s') : Orderly s' := by
  cases h with
  | @moved t _ hforward h hbooked =>
    obtain ⟨a, move, a', n, f, hstep⟩ := Explorer.forward_true hforward
    have hdepth : 0 < s'.explorer.depth := by
      rw [hbooked.explorer.depth, Explorer.depth_of_forward hforward]
      exact Nat.succ_pos _
    have hready : Ready s' := hbooked.pending hstep (Explorer.forward_genuine hx hforward)
    refine ⟨(hguarded.becomes h ⟨rfl, rfl, rfl⟩ rfl).booked hbooked, fun _ => ⟨hdepth, hready⟩,
      fun _ => hdepth, fun hzero => ?_⟩
    omega
  | processed hforward h =>
    refine ⟨hguarded.becomes h ⟨rfl, rfl, rfl⟩ rfl, fun htrue => ?_, fun htrue => ?_, fun _ _ => ?_⟩
    · rw [h.session, hdone] at htrue
      cases htrue
    · rw [h.session, hignored] at htrue
      cases htrue
    · exact Explorer.spent_of_forward hforward

theorem Orderly.turns (hs : Orderly s) (hx : s.explorer.Genuine p mode) (h : Turns s true s') :
    Orderly s' := by
  cases h with
  | @back t _ depth tally _ hback h hproceeds hrunning =>
    have hguarded := hs.guarded.becomes h ⟨rfl, rfl, rfl⟩ rfl
    cases t
    obtain ⟨rfl, rfl, -, rfl⟩ := h
    exact Orderly.proceeds hguarded hrunning.done rfl (Explorer.backtrack?_genuine hx hback) hproceeds
  | @on t _ _ h hproceeds hrunning =>
    have hguarded := hs.guarded.becomes h ⟨rfl, rfl, rfl⟩ rfl
    cases t
    obtain ⟨rfl, rfl, rfl, rfl⟩ := h
    exact Orderly.proceeds hguarded hrunning.done rfl hx hproceeds

theorem Orderly.ends {m : Model} {reach : Finset Fingerprint} (hs : Orderly s)
    (hconfined : Confined m reach s) (hlimit : ∀ d ∈ s.config.depthLimit, 0 < d)
    (h : Turns s false s') : Left s' := by
  cases h with
  | stopped h =>
    refine ⟨fun hclean => absurd hclean (hs.guarded.stops h), fun hgoes => ?_⟩
    obtain ⟨b, hbecomes, _, hended, _⟩ := h
    rw [hbecomes.session] at hgoes
    unfold Ready
    rw [hbecomes.explorer]
    exact .inl (hs.done (hended hgoes).2)
  | exhausted hleaf hbottom h =>
    have hdepth : s.explorer.depth = 0 :=
      congrArg List.length (Explorer.below_of_backtrack?_none hbottom)
    rw [← h.explorer] at hdepth
    refine ⟨fun _ => hdepth, fun _ => .inr ⟨hdepth, fun hend => ?_⟩⟩
    rw [h.explorer] at hdepth hend ⊢
    -- the initial state is neither left at once, nor an end, nor at the limit
    refine hs.spent hdepth ?_
    cases hnew : s.session.isNew with
    | false => rfl
    | true =>
      have hignored : s.session.ignored = false := by
        cases hignored : s.session.ignored with
        | false => rfl
        | true => exact absurd (hs.ignored hignored) (by omega)
      simp only [isLeaf, hignored, hnew, hend, Bool.not_true, Bool.or_false, Bool.false_or] at hleaf
      obtain ⟨d, hd, hreached⟩ := (Option.any_eq_true _ _).1 hleaf
      rw [hconfined.depth hnew, hdepth, decide_eq_true_eq] at hreached
      have hpos := hlimit d hd
      omega

structure Primed (m : Model) (reach : Finset Fingerprint) (c : Config) (s : Search) : Prop where
  config : s.config = c
  explorer : s.explorer.Confined m reach
  limit : ∀ d ∈ c.depthLimit, s.explorer.depth ≤ d

variable {m : Model} {reach : Finset Fingerprint} {c : Config} {f : Frontier} {fuel : Nat}
  {report : Report}

section Primed

variable (hs : Primed m reach c s) (hready : Ready s) (hdfs : c.strategy = .dfs)

include hs hready hdfs

theorem Primed.starts (h : Starts s f s') :
    f = .depthFirst ∧ s'.config = c ∧ Confined m reach s' ∧ Orderly s' := by
  have hstrategy := hdfs
  rw [← hs.config] at hstrategy
  cases h with
  | walks hother | bounded hother => cases hstrategy.symm.trans hother
  | depthFirst _ h =>
    have hguarded := start_guarded h
    cases s'
    obtain ⟨rfl, rfl, rfl, rfl⟩ := h
    exact ⟨rfl, hs.config, ⟨hs.explorer, hs.config ▸ hs.limit, fun _ => rfl, fun _ => hready⟩,
      hguarded, nofun, nofun, fun _ => nofun⟩

variable (hreach : m.fingerprints c.depthLimit ⊆ ↑reach)

include hreach

theorem Primed.run_left (hlimit : ∀ d ∈ c.depthLimit, 0 < d)
    (h : s.perform (run fuel) = (.ok (some report), s')) :
    ∃ t, Left t ∧ Primed m reach c t ∧ report = .ofSession { t.session with done := true } ∧
      s'.explorer = t.explorer := by
  have hstrategy : s.config.strategy = .dfs := hs.config ▸ hdfs
  obtain ⟨t, ⟨hleft, hprimed⟩, hreport, hexplorer⟩ := run_invariant
    (I := fun t => t.config = c ∧ Confined m reach t ∧ Orderly t)
    (J := fun t => Left t ∧ Primed m reach c t) hstrategy
    (fun hbecomes => (hs.starts hready hdfs (.depthFirst hstrategy hbecomes)).2)
    (fun {s more s'} hI h => by
      obtain ⟨hconfig, hconfined, horderly⟩ := hI
      have hconfig' := h.records.config.trans hconfig
      rw [← hconfig] at hreach hlimit
      refine ⟨fun hmore => ?_, fun hmore => ?_⟩
      all_goals subst hmore
      · exact ⟨hconfig', (hconfined.turns hreach h).1,
          horderly.turns hconfined.explorer.genuine h⟩
      · have hexplorer : s'.explorer = s.explorer := by
          cases h with
          | stopped h =>
            obtain ⟨b, hbecomes, _⟩ := h
            exact hbecomes.explorer
          | exhausted _ _ h => exact h.explorer
        refine ⟨horderly.ends hconfined hlimit h, hconfig', hexplorer ▸ hconfined.explorer, ?_⟩
        rw [hexplorer, ← hconfig]
        exact hconfined.limit) h
  exact ⟨t, hleft, hprimed, hreport, hexplorer⟩

theorem Primed.returns :
    ∃ n outcome s', outcome ≠ .ok none ∧ ∀ fuel ≥ n, s.perform (run fuel) = (outcome, s') := by
  refine run_returns (I := fun f t => f = .depthFirst ∧ t.config = c ∧ Confined m reach t)
    (μ := Frontier.remaining reach) ?_ ?_
  · intro f t hstart
    obtain ⟨hf, hconfig, hconfined, _⟩ := hs.starts hready hdfs hstart
    exact ⟨hf, hconfig, hconfined⟩
  · rintro f t f' t' ⟨rfl, hconfig, hconfined⟩ hturn
    rw [← hconfig] at hreach
    have hless := Frontier.Confined.turns (f := .depthFirst) hreach hconfined hturn
    cases hturn with
    | depthFirst h => exact ⟨⟨rfl, h.records.config.trans hconfig, hless.1⟩, hless.2⟩

end Primed

variable (hspent : s.explorer.Spent) (hend : s.explorer.isEnd = false)
  (hdepth : s.explorer.depth = 0) (hlimit : ∀ d ∈ s.config.depthLimit, 0 < d)

include hspent hend hdepth hlimit

theorem Stuck.start (h : s.Becomes s.explorer (.start s.explorer) s') : Stuck s' := by
  have hbelow : s'.depthLimitReached = false := by
    rw [depthLimitReached, h.config, h.session]
    cases hd : s.config.depthLimit with
    | none => rfl
    | some d =>
      have hpos := hlimit d hd
      simp [Session.start, hdepth]
      omega
  cases s'
  obtain ⟨rfl, rfl, rfl, rfl⟩ := h
  exact ⟨hspent, hend, ⟨rfl, rfl⟩, rfl, rfl, hbelow⟩

variable (hdfs : s.config.strategy = .dfs)

include hdfs

theorem Stuck.terminated (h : s.perform (run fuel) = (.ok (some report), s')) :
    report.terminated = true := by
  obtain ⟨t, ht, rfl, _⟩ := run_invariant (J := fun t => t.session.terminated = true) hdfs
    (fun hbecomes => Stuck.start hspent hend hdepth hlimit hbecomes)
    (fun hstuck hturn => hstuck.turns hturn) h
  exact ht

/-- With nobody to stop it, a run from a spent state goes on for ever. -/
theorem Stuck.run_outlasts (hfree : s.Unattended) (fuel : Nat) :
    ∃ s', s.perform (run fuel) = (.ok none, s') := by
  obtain ⟨t, hstart, ht⟩ := hfree.start hdfs
  have hstuck : Stuck t := by
    cases start_does hstart with
    | depthFirst _ h => exact Stuck.start hspent hend hdepth hlimit h
  obtain ⟨s', hturns⟩ := turns_outlast
    (I := fun f t => f = .depthFirst ∧ Stuck t ∧ t.Unattended)
    (fun {f t} hI => by
      obtain ⟨rfl, hstuck, ht⟩ := hI
      obtain ⟨t', hturn, ht'⟩ := hstuck.turn ht
      refine ⟨.depthFirst, t', does_bind.2 ⟨true, t', hturn, does_pure.2 ⟨rfl, rfl⟩⟩, rfl, ?_, ht'⟩
      exact (hstuck.turns (turn_does hturn)).1 rfl) ⟨rfl, hstuck, ht⟩ fuel
  exact ⟨s', does_bind.2 ⟨_, t, hstart, does_bind.2 ⟨false, s', hturns, does_pure.2 ⟨rfl, rfl⟩⟩⟩⟩

end DepthFirst

open DepthFirst

/-- A search whose explorer is new, or was left by runs that were not asked to stop. Everything else
may have changed between two runs. -/
inductive Prepared (p : Program) (c : Config) : Search → Prop where
  | new {s : Search} (hstart : s.explorer.Started p c) (hconfig : s.config = c) :
      Prepared p c s
  | again {s s' t : Search} {fuel : Nat} {report : Report} (hs : Prepared p c s)
      (h : s.perform (run fuel) = (.ok (some report), s')) (hterminated : report.terminated = false)
      (hexplorer : t.explorer = s'.explorer) (hconfig : t.config = c) : Prepared p c t

section Prepared

variable {p : Program} {c : Config} {m : Model} {reach : Finset Fingerprint} {s s' t : Search}
  {fuel : Nat} {report : Report}

theorem DepthFirst.Primed.of_explorer (hs : Primed m reach c s) (hexplorer : t.explorer = s.explorer)
    (hconfig : t.config = c) : Primed m reach c t :=
  ⟨hconfig, hexplorer ▸ hs.explorer, hexplorer ▸ hs.limit⟩

theorem DepthFirst.Primed.left (hs : Primed m reach c s) (hnext : Ready s ∨
      s.explorer.depth = 0 ∧ s.explorer.isEnd = false ∧ s.explorer.Spent) (hdfs : c.strategy = .dfs)
    (hreach : m.fingerprints c.depthLimit ⊆ ↑reach) (hlimit : ∀ d ∈ c.depthLimit, 0 < d)
    (h : s.perform (run fuel) = (.ok (some report), s')) (hterminated : report.terminated = false) :
    ∃ t, Left t ∧ Primed m reach c t ∧ report = .ofSession { t.session with done := true } ∧
      s'.explorer = t.explorer := by
  rcases hnext with hready | ⟨hdepth, hend, hspent⟩
  · exact hs.run_left hready hdfs hreach hlimit h
  · rw [← hs.config] at hlimit hdfs
    have hstopped := Stuck.terminated hspent hend hdepth hlimit hdfs h
    cases hterminated.symm.trans hstopped

/-- The next run finds something to do, or the initial state is spent. -/
theorem Prepared.primed (hm : Model.ofConfig p c = .ok m) (hdfs : c.strategy = .dfs)
    (hreach : m.fingerprints c.depthLimit ⊆ ↑reach) (hlimit : ∀ d ∈ c.depthLimit, 0 < d)
    (hs : Prepared p c s) : (∃ arrange, Primed { m with arrange } reach c s) ∧ (Ready s ∨
      s.explorer.depth = 0 ∧ s.explorer.isEnd = false ∧ s.explorer.Spent) := by
  induction hs with
  | new hstart hconfig =>
    obtain ⟨_, hofConfig⟩ := hstart.ofConfig
    cases hm.symm.trans hofConfig
    obtain ⟨s₀, f, hstarts⟩ := hstart.starts
    refine ⟨⟨_, hconfig, hstarts.confined hreach, fun d hd => ?_⟩, .inl fun hend => ?_⟩
    · rw [Explorer.depth, Trail.depth, hstarts.below]
      exact Nat.zero_le d
    · rw [hstarts.agenda, ← hstarts.state]
      exact Agenda.pending_ofState hend
  | @again s s' t _ _ _ h hterminated hexplorer hconfig ih =>
    obtain ⟨⟨arrange, hprimed⟩, hnext⟩ := ih
    obtain ⟨v, hleft, hv, rfl, hsame⟩ := hprimed.left hnext hdfs hreach hlimit h hterminated
    have hx : t.explorer = v.explorer := hexplorer.trans hsame
    refine ⟨⟨arrange, hv.of_explorer hx hconfig⟩, ?_⟩
    unfold Ready
    rw [hx]
    rcases hleft.left hterminated with ⟨_, hready⟩ | ⟨hdepth, hspent⟩
    · exact .inl hready
    · cases hend : v.explorer.isEnd with
      | true => exact .inl (by simp)
      | false => exact .inr ⟨hdepth, rfl, hspent hend⟩

variable (hm : Model.ofConfig p c = .ok m) (hvalid : c.problem? = none) (hdfs : c.strategy = .dfs)
  (hfinite : c.depthLimit = none → (m.fingerprints none).Finite) (hs : Prepared p c s)
  (h : s.perform (run fuel) = (.ok (some report), s')) (hterminated : report.terminated = false)
  (hexplorer : t.explorer = s'.explorer) (hconfig : t.config = c)

include hm hvalid hdfs hfinite hs h hterminated

theorem Prepared.left : ∃ (reach : Finset Fingerprint) (t : Search),
    m.fingerprints c.depthLimit ⊆ ↑reach ∧ Left t ∧
    (∃ arrange, Primed { m with arrange } reach c t) ∧
      report = .ofSession { t.session with done := true } ∧
    s'.explorer = t.explorer := by
  have hlimit := Config.depthLimit_pos hvalid
  obtain ⟨reach, hreach⟩ := Model.exists_reach hfinite
  obtain ⟨⟨arrange, hprimed⟩, hnext⟩ := hs.primed hm hdfs hreach hlimit
  obtain ⟨t, hleft, hprimed', hrest⟩ := hprimed.left hnext hdfs hreach hlimit h hterminated
  exact ⟨reach, t, hreach, hleft, ⟨arrange, hprimed'⟩, hrest⟩

include hexplorer

theorem Prepared.depth_of_isPass (hpass : report.isPass = true) : t.explorer.depth = 0 := by
  obtain ⟨reach, v, _, hleft, _, rfl, hsame⟩ := hs.left hm hvalid hdfs hfinite h hterminated
  have hclean := Report.isPass_ofSession.1 hpass
  rw [hexplorer, hsame]
  exact hleft.clean ⟨hclean.errors, hclean.constraints, hclean.terminated⟩

include hconfig

theorem Prepared.rerun_returns (hmore : 0 < t.explorer.depth ∨ t.explorer.isEnd = true) :
    ∃ n outcome t', outcome ≠ .ok none ∧ ∀ fuel ≥ n, t.perform (run fuel) = (outcome, t') := by
  obtain ⟨reach, v, hreach, hleft, ⟨_, hprimed⟩, rfl, hsame⟩ :=
    hs.left hm hvalid hdfs hfinite h hterminated
  have hx := hexplorer.trans hsame
  refine (hprimed.of_explorer hx hconfig).returns ?_ hdfs hreach
  unfold Ready
  rw [hx] at hmore ⊢
  rcases hleft.left hterminated with ⟨_, hready⟩ | ⟨hdepth, _⟩
  · exact hready
  · rcases hmore with hpos | hend
    · omega
    · simp [hend]

theorem Prepared.rerun_outlasts (hdepth : t.explorer.depth = 0) (hend : t.explorer.isEnd = false)
    (hfree : t.Unattended) (fuel : Nat) : ∃ t', t.perform (run fuel) = (.ok none, t') := by
  have hlimit := Config.depthLimit_pos hvalid
  obtain ⟨_, v, _, hleft, _, rfl, hsame⟩ := hs.left hm hvalid hdfs hfinite h hterminated
  have hx := hexplorer.trans hsame
  rcases hleft.left hterminated with ⟨hpos, _⟩ | ⟨_, hspent⟩
  · rw [← hx] at hpos
    omega
  · rw [← hx] at hspent
    rw [← hconfig] at hlimit hdfs
    exact Stuck.run_outlasts (hspent hend) hend hdepth hlimit hdfs hfree fuel

end Prepared

end Search

/-- After a depth-first run that was not asked to stop, another one has an outcome if the first one
left the explorer above the initial state, or if that is an end state. Otherwise, so after each run
that passes over a program which can make a step, another run goes on for ever. -/
theorem rerun_ends_iff {p : Program} {c : Config} {m : Model} (hm : Model.ofConfig p c = .ok m)
    (hvalid : c.problem? = none) (hdfs : c.strategy = .dfs)
    (hfinite : c.depthLimit = none → (m.fingerprints none).Finite) {s s' t : Search}
    (hs : s.Prepared p c) {fuel : Nat} {report : Report}
    (h : s.perform (Search.run fuel) = (.ok (some report), s'))
    (hterminated : report.terminated = false) (hexplorer : t.explorer = s'.explorer)
    (hconfig : t.config = c) :
    (report.isPass = true → t.explorer.depth = 0) ∧
      (0 < t.explorer.depth ∨ t.explorer.isEnd = true → ∃ n outcome t', outcome ≠ .ok none ∧
        ∀ fuel ≥ n, t.perform (Search.run fuel) = (outcome, t')) ∧
      (t.explorer.depth = 0 → t.explorer.isEnd = false → t.Unattended →
        ∀ fuel, ∃ t', t.perform (Search.run fuel) = (.ok none, t')) := by
  refine ⟨?_, ?_, ?_⟩
  · exact hs.depth_of_isPass hm hvalid hdfs hfinite h hterminated hexplorer
  · exact hs.rerun_returns hm hvalid hdfs hfinite h hterminated hexplorer hconfig
  · exact hs.rerun_outlasts hm hvalid hdfs hfinite h hterminated hexplorer hconfig

def Check.ran? (p : Program) (c : Config) (fuel : Nat) : Option (Report × Search) :=
  match Check.prepare p c .error with
  | .error _ => none
  | .ok s =>
    match s.perform (Search.run fuel) with
    | (.ok (some report), s') => some (report, s')
    | _ => none

theorem Check.ran?_eq_some {p : Program} {c : Config} {fuel : Nat} {report : Report} {s' : Search}
    (h : Check.ran? p c fuel = some (report, s')) :
    ∃ s, Search.Fresh p c s ∧ s.perform (Search.run fuel) = (.ok (some report), s') := by
  unfold Check.ran? at h
  split at h
  · cases h
  · next s hprepare =>
    split at h
    · next hrun =>
      cases h
      exact ⟨s, Check.prepare_fresh hprepare, hrun⟩
    · cases h

def tick : Program where
  path := "tick"
  classes := builtinClasses
  methods := [⟨"t", false, [], [⟨.yield, .onLine 2 3 7⟩], ["yield"]⟩]
  threads := [⟨"t", 0⟩]
  invariants := []

/-- The first run finds an error six steps from the initial state, and a second one has an outcome. -/
theorem relay_reruns : ∃ (s s' : Search) (report : Report),
    s.Fresh (relay (counter .eq 2)) { Config.default with depthLimit := some 10 } ∧
    s.perform (Search.run 1000) = (.ok (some report), s') ∧ report.errors.length = 1 ∧
    s'.explorer.depth = 6 ∧ ∃ n outcome t', outcome ≠ .ok none ∧
      ∀ fuel ≥ n, s'.perform (Search.run fuel) = (outcome, t') := by
  have hrun : (Check.ran? (relay (counter .eq 2))
      { Config.default with depthLimit := some 10 } 1000).map
        (fun (report, s') => (report.errors.length, report.terminated, s'.explorer.depth,
          decide (s'.config = { Config.default with depthLimit := some 10 }))) =
      some (1, false, 6, true) := by
    decide +kernel
  obtain ⟨⟨report, s'⟩, hran, hfound⟩ := Option.map_eq_some_iff.1 hrun
  simp only [Prod.mk.injEq, decide_eq_true_eq] at hfound
  obtain ⟨herrors, hterminated, hdepth, hconfig⟩ := hfound
  obtain ⟨s, hs, hperform⟩ := Check.ran?_eq_some hran
  obtain ⟨_, hm⟩ := hs.start.ofConfig
  obtain ⟨_, hreturns, _⟩ := rerun_ends_iff (t := s') hm rfl rfl (by simp)
    (.new hs.start hs.config) hperform hterminated rfl hconfig
  exact ⟨s, s', report, hs, hperform, herrors, hdepth, hreturns (.inl (by omega))⟩

/-- The first run passes, and a second one goes on for ever. -/
theorem tick_rerun_outlasts : ∃ (s s' : Search) (report : Report),
    Program.ofSource "thread t \x7b\n  yield\n\x7d\n" "tick" = .ok tick ∧
    s.Fresh tick { Config.default with depthLimit := some 5 } ∧
    s.perform (Search.run 10) = (.ok (some report), s') ∧ report.isPass = true ∧
    s'.stop = false ∧ ∀ fuel, ∃ t, s'.perform (Search.run fuel) = (.ok none, t) := by
  have hsource : Program.ofSource "thread t \x7b\n  yield\n\x7d\n" "tick" = .ok tick := by
    decide +kernel
  have hrun : (Check.ran? tick { Config.default with depthLimit := some 5 } 10).any
      (fun (report, s') => report.isPass && !report.terminated && !s'.stop &&
        s'.listeners.isEmpty && decide (s'.explorer.depth = 0) && !s'.explorer.isEnd &&
        decide (s'.config = { Config.default with depthLimit := some 5 })) = true := by
    decide +kernel
  obtain ⟨⟨report, s'⟩, hran, hfound⟩ := (Option.any_eq_true _ _).1 hrun
  simp only [Bool.and_eq_true, Bool.not_eq_true', decide_eq_true_eq] at hfound
  obtain ⟨⟨⟨⟨⟨⟨hpass, hterminated⟩, hstop⟩, hnobody⟩, hdepth⟩, hend⟩, hconfig⟩ := hfound
  obtain ⟨s, hs, hperform⟩ := Check.ran?_eq_some hran
  have hfree : s'.Unattended := by
    refine ⟨hstop, fun entry hentry => ?_⟩
    rw [List.isEmpty_iff.1 hnobody] at hentry
    cases hentry
  have hprepared : s.Prepared tick { Config.default with depthLimit := some 5 } :=
    .new hs.start hs.config
  obtain ⟨_, hm⟩ := hs.start.ofConfig
  refine ⟨s, s', report, hsource, hs, hperform, hpass, hstop, ?_⟩
  exact hprepared.rerun_outlasts hm rfl rfl (by simp) hperform hterminated rfl hconfig hdepth hend
    hfree

end Interleave
