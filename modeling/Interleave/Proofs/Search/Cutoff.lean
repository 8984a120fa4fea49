import Interleave.Proofs.Search.Termination

set_option autoImplicit false

/-! Each strategy looks at the depth in a place of its own, but none of them lets a step start at the
limit. -/

namespace Interleave

section Stride

variable {x : Explorer}

theorem Explorer.depth_shuffleSchedule (x : Explorer) (source : Random.Source) :
    (x.shuffleSchedule source).1.depth = x.depth := by
  unfold Explorer.shuffleSchedule
  split
  · rfl
  · rfl

theorem Explorer.cutOff?_eq_some {limit d : Nat} (hdepth : x.depth ≤ limit) :
    x.cutOff? (some limit) = some d ↔ limit = d ∧ x.depth = limit ∧ x.isEnd = false := by
  simp only [Explorer.cutOff?, Option.filter_eq_some_iff, Option.some.injEq, Bool.and_eq_true,
    decide_eq_true_eq, Bool.not_eq_true']
  constructor
  · rintro ⟨rfl, hle, hend⟩
    exact ⟨rfl, Nat.le_antisymm hdepth hle, hend⟩
  · rintro ⟨rfl, heq, hend⟩
    exact ⟨rfl, heq.ge, hend⟩

end Stride

namespace Search

section Limit

variable {s t : Search} {f : Frontier} {x : Explorer} {fuel : Nat} {step : Stride}

/-- A search that keeps within its limit goes forward only above it. -/
theorem Frontier.Confined.stance?_lt {m : Model} {reach : Finset Fingerprint}
    (hs : f.Confined m reach s) (hstance : f.stance? s = some x) :
    ∀ d ∈ s.config.depthLimit, x.depth < d := by
  intro d hd
  cases f with
  | depthFirst =>
    simp only [Frontier.stance?] at hstance
    split at hstance
    · cases hstance
    split at hstance
    · cases hstance
    split at hstance
    · have hdepth := Explorer.depth_of_backtrack? hstance
      have hle := hs.limit d hd
      omega
    · next hinner =>
      cases hstance
      simp only [DepthFirst.isLeaf, Bool.or_eq_true, not_or, Bool.not_eq_true, Bool.not_eq_true',
        Bool.not_eq_false] at hinner
      obtain ⟨⟨⟨_, hnew⟩, _⟩, hlimit⟩ := hinner
      rw [depthLimitReached, hs.depth hnew, hd] at hlimit
      simpa using hlimit
  | walks w =>
    rw [(Frontier.of_stance?_walks hstance).2, Explorer.depth_shuffleSchedule]
    exact (hs.limit d hd).2
  | bounded w =>
    obtain ⟨⟨trail, base, hactive⟩, rfl⟩ := Frontier.of_stance?_bounded hstance
    exact (hs.active trail base hactive).2 d hd

theorem exists_of_mem_strides (ht : s.Passes f t) (h : step ∈ strides fuel f t) :
    ∃ f' t', s.Passes f' t' ∧ f'.stride? t' = some step := by
  induction fuel generalizing f t with
  | zero => cases h
  | succ fuel ih =>
    unfold strides at h
    rcases List.mem_append.1 h with hfirst | hlater
    · exact ⟨f, t, ht, Option.mem_toList.1 hfirst⟩
    · split at hlater
      · next f' t' hturn => exact ih (.turn ht hturn) hlater
      · cases hlater

theorem exists_of_mem_journey (h : step ∈ s.journey fuel) :
    ∃ f t, s.Passes f t ∧ f.stride? t = some step := by
  unfold journey at h
  split at h
  · next f t hstart => exact exists_of_mem_strides (.start hstart) h
  · cases h

theorem source_lt_of_mem_journey {p : Program} {c : Config} {limit : Nat}
    (hstart : s.explorer.Started p c) (hvalid : c.problem? = none)
    (hconfig : s.config = c) (hlimit : c.depthLimit = some limit) (h : step ∈ s.journey fuel) :
    step.source.depth < limit := by
  obtain ⟨reach, hreach⟩ : ∃ reach : Finset Fingerprint,
      s.explorer.model.fingerprints c.depthLimit ⊆ ↑reach :=
    Model.exists_reach fun hnone => by cases hnone.symm.trans hlimit
  have hpositive := Config.depthLimit_pos hvalid
  obtain ⟨s₀, f₀, hstarts⟩ := hstart.starts
  have hconfined := hstarts.confined hreach
  rw [← hconfig] at hpositive hreach hlimit
  obtain ⟨f, t, hpasses, hstride⟩ := exists_of_mem_journey h
  obtain ⟨ht, hf⟩ := hpasses.invariant (I := fun f t => t.config = s.config ∧
      f.Confined s.explorer.model reach t)
    (fun hf => ⟨hf.config, .starts hstarts hconfined hpositive hf⟩)
    (fun hI hturns => ⟨hturns.records.config.trans hI.1, (hI.2.turns (hI.1 ▸ hreach) hturns).1⟩)
  obtain ⟨x, hstance, hx⟩ := Option.bind_eq_some_iff.1 hstride
  rw [Explorer.source_of_stride? hx]
  exact hf.stance?_lt hstance limit (ht ▸ hlimit)

end Limit

end Search

/-- With a depth limit no step of a run starts at that depth or beyond, whichever strategy,
properties and listeners the run has. A report counts these steps and knows of no greater depth. One
without errors has the limit once if a step reached it in a state that is not an end, and else not at
all. -/
theorem depth_limit_met {p : Program} {c : Config} {s : Search} {limit : Nat}
    (hstart : s.explorer.Started p c) (hvalid : c.problem? = none)
    (hconfig : s.config = c) (hlimit : c.depthLimit = some limit) (fuel : Nat) :
    (∀ step ∈ s.journey fuel, step.source.depth < limit) ∧
      ∀ report s', s.perform (Search.run fuel) = (.ok (some report), s') →
        report.stats.transitions = some (s.journey fuel).length ∧
        report.stats.maxDepth ≤ limit ∧
        (report.errors = [] → report.constraints.count (.depth limit) =
          if ∃ step ∈ s.journey fuel, step.target.depth = limit ∧ step.target.isEnd = false
          then 1 else 0) := by
  have hsource : ∀ step ∈ s.journey fuel, step.source.depth < limit := fun step hstep =>
    Search.source_lt_of_mem_journey hstart hvalid hconfig hlimit hstep
  have htarget : ∀ step ∈ s.journey fuel, step.target.depth ≤ limit := by
    intro step hstep
    rw [Explorer.depth_of_forward step.taken]
    exact hsource step hstep
  refine ⟨hsource, fun report s' h => ?_⟩
  obtain ⟨t, v, ht, hsession, hrecords, rfl⟩ := Search.run_records h
  have htransitions := hrecords.transitions 0 (hsession ▸ rfl)
  rw [Nat.zero_add] at htransitions
  refine ⟨htransitions, (hrecords.maxDepth limit).2 ⟨?_, htarget⟩, fun herrors => ?_⟩
  · rw [hsession]
    exact Nat.zero_le limit
  have hnodup := hrecords.nodup (hsession ▸ List.nodup_nil)
  have hmet : .depth limit ∈ v.session.constraints ↔
      ∃ step ∈ s.journey fuel, step.target.depth = limit ∧ step.target.isEnd = false := by
    rw [hrecords.limits (herrors.trans (hsession ▸ rfl)), ht, hconfig, hlimit]
    constructor
    · rintro (hbefore | ⟨step, hstep, hcut⟩)
      · rw [hsession] at hbefore
        cases hbefore
      · exact ⟨step, hstep, ((Explorer.cutOff?_eq_some (htarget step hstep)).1 hcut).2⟩
    · rintro ⟨step, hstep, hreached⟩
      exact .inr ⟨step, hstep,
        (Explorer.cutOff?_eq_some (htarget step hstep)).2 ⟨rfl, hreached⟩⟩
  split
  · next hreached => exact List.count_eq_one_of_mem hnodup (hmet.2 hreached)
  · next hnone => exact List.count_eq_zero.2 fun hmem => hnone (hmet.1 hmem)

/-- Three steps of the relay do not end it, six do. -/
theorem relay_cut_off :
    (∃ (s s' : Search) (report : Report),
      s.Fresh (relay (counter .ne 0))
        { Config.default with strategy := .contextBounded, depthLimit := some 3 } ∧
      s.perform (Search.run 1000) = (.ok (some report), s') ∧
      report.constraints = [.depth 3] ∧
      ∃ step ∈ s.journey 1000, step.target.depth = 3 ∧ step.target.isEnd = false) ∧
    ∃ (s s' : Search) (report : Report),
      s.Fresh (relay (counter .ne 0)) { Config.default with depthLimit := some 6 } ∧
      s.perform (Search.run 1000) = (.ok (some report), s') ∧
      report.stats.maxDepth = 6 ∧
      ¬ ∃ step ∈ s.journey 1000, step.target.depth = 6 ∧ step.target.isEnd = false := by
  have hshort : (Check.report? (relay (counter .ne 0))
      { Config.default with strategy := .contextBounded, depthLimit := some 3 } 1000).any
      (fun report => report.errors.isEmpty && decide (report.constraints = [.depth 3])) = true := by
    decide +kernel
  have hlong : (Check.report? (relay (counter .ne 0))
      { Config.default with depthLimit := some 6 } 1000).any
      (fun report => report.errors.isEmpty && decide (report.constraints = []) &&
        decide (report.stats.maxDepth = 6)) = true := by
    decide +kernel
  constructor
  · obtain ⟨report, hreport, hfound⟩ := (Option.any_eq_true _ _).1 hshort
    simp only [Bool.and_eq_true, List.isEmpty_iff, decide_eq_true_eq] at hfound
    obtain ⟨s, s', hs, hperform⟩ := Check.report?_eq_some hreport
    have hcount := (((depth_limit_met hs.start hs.accepted hs.config rfl 1000).2 report s'
      hperform).2.2) hfound.1
    rw [hfound.2] at hcount
    refine ⟨s, s', report, hs, hperform, hfound.2, ?_⟩
    by_contra hnone
    rw [if_neg hnone] at hcount
    cases hcount
  · obtain ⟨report, hreport, hfound⟩ := (Option.any_eq_true _ _).1 hlong
    simp only [Bool.and_eq_true, List.isEmpty_iff, decide_eq_true_eq] at hfound
    obtain ⟨s, s', hs, hperform⟩ := Check.report?_eq_some hreport
    have hcount := (((depth_limit_met hs.start hs.accepted hs.config rfl 1000).2 report s'
      hperform).2.2) hfound.1.1
    rw [hfound.1.2] at hcount
    refine ⟨s, s', report, hs, hperform, hfound.2, fun hreached => ?_⟩
    rw [if_pos hreached] at hcount
    cases hcount

end Interleave
