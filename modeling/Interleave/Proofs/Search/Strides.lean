import Interleave.Proofs.Search.Turns

set_option autoImplicit false

/-! A run is seen here as the list of its steps forward. What the books of a run say is a matter of
these steps alone. -/

namespace Interleave

structure Stride where
  source : Explorer
  target : Explorer
  taken : source.forward = (.ok true, target)

def Explorer.stride? (x : Explorer) : Option Stride :=
  match h : x.forward with
  | (.ok true, y) => some ⟨x, y, h⟩
  | _ => none

section Stride

variable {x y : Explorer}

theorem Explorer.stride?_of_moved (h : x.forward = (.ok true, y)) : x.stride? = some ⟨x, y, h⟩ := by
  unfold Explorer.stride?
  split
  · next z hz =>
    cases h.symm.trans hz
    rfl
  · next hother => exact absurd h (hother y)

theorem Explorer.stride?_of_stayed (h : x.forward = (.ok false, y)) : x.stride? = none := by
  unfold Explorer.stride?
  split
  · next z hz => cases h.symm.trans hz
  · rfl

theorem Explorer.source_of_stride? {step : Stride} (h : x.stride? = some step) :
    step.source = x := by
  unfold Explorer.stride? at h
  split at h
  · cases h
    rfl
  · cases h

end Stride

def Session.counted (b : Session) : Option Nat × Nat × List Violation :=
  (b.stats.transitions, b.stats.maxDepth, b.errors)

namespace Search

/-- Where a turn with the given work to do tries to go forward, if it does not end before. -/
def Frontier.stance? (f : Frontier) (s : Search) : Option Explorer :=
  if s.stop || s.session.terminated then none
  else match f with
    | .depthFirst =>
      if s.session.done then none
      else if DepthFirst.isLeaf s s.session.ignored then s.explorer.backtrack?
      else some s.explorer
    | .walks w => w.seen.map fun _ => (s.explorer.shuffleSchedule w.source).1
    | .bounded w => if s.session.done then none else w.active.map fun _ => s.explorer

def Frontier.stride? (f : Frontier) (s : Search) : Option Stride :=
  (f.stance? s).bind (·.stride?)

def strides : Nat → Frontier → Search → List Stride
  | 0, _, _ => []
  | fuel + 1, f, s =>
    (f.stride? s).toList ++
      match s.perform (turn f) with
      | (.ok (some f), t) => strides fuel f t
      | _ => []

def journey (fuel : Nat) (s : Search) : List Stride :=
  match s.perform start with
  | (.ok f, t) => strides fuel f t
  | _ => []

section Stance

variable {s s' : Search} {f : Frontier} {w : Walks} {b : Bounded} {x : Explorer}

theorem not_unasked : ¬ s.Unasked ↔ (s.stop || s.session.terminated) = true := by
  rw [← Bool.not_eq_false, Bool.or_eq_false_iff]
  exact not_congr ⟨fun h => ⟨h.stop, h.terminated⟩, fun h => ⟨h.1, h.2⟩⟩

theorem Frontier.stance?_of_asked (h : ¬ s.Unasked) (f : Frontier) : f.stance? s = none :=
  if_pos (not_unasked.1 h)

/-- A walk is stopped only on request, anything else also at its end. -/
theorem Frontier.stance?_of_stops (h : s.Stops s') (hf : ∀ w, f ≠ .walks w) :
    f.stance? s = none := by
  obtain ⟨_, _, _, _, _, hdone | hasked⟩ := h
  · unfold Frontier.stance?
    cases f with
    | depthFirst => simp [hdone]
    | walks w => exact absurd rfl (hf w)
    | bounded b => simp [hdone]
  · exact stance?_of_asked hasked f

theorem Frontier.stance?_depthFirst (hrunning : s.Running) (h : s.Unasked) :
    Frontier.depthFirst.stance? s = if DepthFirst.isLeaf s s.session.ignored then
      s.explorer.backtrack? else some s.explorer := by
  unfold Frontier.stance?
  simp [h.stop, h.terminated, hrunning.done]

theorem Frontier.stance?_walks (h : s.Unasked) :
    (Frontier.walks w).stance? s =
      w.seen.map fun _ => (s.explorer.shuffleSchedule w.source).1 := by
  unfold Frontier.stance?
  simp [h.stop, h.terminated]

theorem Frontier.stance?_bounded (hrunning : s.Running) (h : s.Unasked) :
    (Frontier.bounded b).stance? s = b.active.map fun _ => s.explorer := by
  unfold Frontier.stance?
  simp [h.stop, h.terminated, hrunning.done]

theorem Frontier.of_stance?_walks (h : (Frontier.walks w).stance? s = some x) :
    w.seen ≠ none ∧ x = (s.explorer.shuffleSchedule w.source).1 := by
  unfold Frontier.stance? at h
  split at h
  · cases h
  · obtain ⟨seen, hseen, rfl⟩ := Option.map_eq_some_iff.1 h
    exact ⟨by simp [hseen], rfl⟩

theorem Frontier.of_stance?_bounded (h : (Frontier.bounded b).stance? s = some x) :
    (∃ trail base, b.active = some (trail, base)) ∧ x = s.explorer := by
  simp only [Frontier.stance?] at h
  split at h
  · cases h
  · split at h
    · cases h
    · obtain ⟨⟨trail, base⟩, hactive, rfl⟩ := Option.map_eq_some_iff.1 h
      exact ⟨⟨trail, base, hactive⟩, rfl⟩

theorem Frontier.stride?_of_moved {y : Explorer} (hstance : f.stance? s = some x)
    (h : x.forward = (.ok true, y)) : f.stride? s = some ⟨x, y, h⟩ := by
  rw [Frontier.stride?, hstance, Option.bind_some, Explorer.stride?_of_moved h]

theorem Frontier.stride?_eq_none (h : ∀ x, f.stance? s = some x → x.stride? = none) :
    f.stride? s = none :=
  Option.bind_eq_none_iff.2 h

end Stance

structure Records (s : Search) (steps : List Stride) (s' : Search) : Prop where
  config : s'.config = s.config
  transitions : ∀ n, s.session.stats.transitions = some n →
    s'.session.stats.transitions = some (n + steps.length)
  maxDepth : ∀ d, s'.session.stats.maxDepth ≤ d ↔
    s.session.stats.maxDepth ≤ d ∧ ∀ step ∈ steps, step.target.depth ≤ d
  errors : s.session.errors <+: s'.session.errors
  nodup : s.session.constraints.Nodup → s'.session.constraints.Nodup
  limits : s'.session.errors = s.session.errors → ∀ d, .depth d ∈ s'.session.constraints ↔
    .depth d ∈ s.session.constraints ∨
      ∃ step ∈ steps, step.target.cutOff? s.config.depthLimit = some d
  properties : s'.properties = s.properties
  first : s.properties = Property.defaults →
    (s'.session.errors.drop s.session.errors.length).head? =
      steps.findSome? (firstViolation? ·.target s.session.errors.length)
  still : steps = [] → s'.session.errors = s.session.errors

section Records

variable {s s' t v : Search} {l l' : List Stride} {f : Frontier} {w w' : Bounded} {x : Explorer}
  {held : List Trail} {r : Option Walks} {fuel : Nat}

theorem Becomes.records {b : Session} (h : s.Becomes x b s') (hsame : b.counted = s.session.counted)
    (hmet : LimitsMet none s.session.constraints b.constraints) : s.Records [] s' := by
  obtain rfl := h.session
  obtain ⟨htransitions, hrest⟩ := Prod.mk.inj hsame
  obtain ⟨hmaxDepth, herrors⟩ := Prod.mk.inj hrest
  refine ⟨h.config, fun n hn => htransitions.trans hn, fun d => ?_, herrors ▸ List.prefix_rfl,
    hmet.nodup, fun _ d => ?_, h.properties, fun _ => ?_, fun _ => herrors⟩
  · simp [hmaxDepth]
  · simp [hmet.depth]
  · simp [herrors]

theorem Records.trans (h : s.Records l t) (h' : t.Records l' s') : s.Records (l ++ l') s' := by
  refine ⟨h'.config.trans h.config, fun n hn => ?_, fun d => ?_, h.errors.trans h'.errors,
    fun hnodup => h'.nodup (h.nodup hnodup), fun herrors d => ?_,
    h'.properties.trans h.properties, fun hdefaults => ?_, fun hnil => ?_⟩
  · rw [h'.transitions _ (h.transitions n hn), List.length_append, Nat.add_assoc]
  · rw [h'.maxDepth, h.maxDepth, List.forall_mem_append, and_assoc]
  · -- errors that are the same in the end were so all along
    have hlast : t.session.errors = s.session.errors := by
      refine (h.errors.eq_of_length_le ?_).symm
      rw [← herrors]
      exact h'.errors.length_le
    rw [h'.limits (herrors.trans hlast.symm), h.limits hlast, h.config, or_assoc]
    simp only [List.mem_append, or_and_right, exists_or]
  · obtain ⟨es, hes⟩ := h.errors
    obtain ⟨es', hes'⟩ := h'.errors
    have hfirst := h.first hdefaults
    have hnext := h'.first (h.properties.trans hdefaults)
    rw [← hes'] at hnext ⊢
    rw [List.drop_left] at hnext
    rw [← hes, List.drop_left] at hfirst
    rw [← hes, List.append_assoc, List.drop_left, List.head?_append, List.findSome?_append, hfirst,
      hnext, ← hfirst]
    cases es with
    | nil => rw [← hes, List.append_nil]
    | cons e es => rfl
  · obtain ⟨hl, hl'⟩ := List.append_eq_nil_iff.1 hnil
    exact (h'.still hl').trans (h.still hl)

theorem Booked.records (h : s.Booked held s') {step : Stride} (htarget : step.target = s.explorer) :
    s.Records [step] s' := by
  obtain ⟨errors, constraints, done, ignored, hsession⟩ := h.session
  obtain ⟨es, herrors, _⟩ := h.errors
  refine ⟨h.config, fun n hn => ?_, fun d => ?_, ⟨es, herrors.symm⟩, ?_, fun hsame d => ?_,
    h.properties, fun hdefaults => ?_, by simp⟩
  · rw [hsession]
    change some (s.session.stats.transitions.getD 0 + 1) = _
    rw [hn]
    rfl
  · rw [hsession, List.forall_mem_singleton, htarget]
    exact Nat.max_le
  · intro hnodup
    rcases h.limits with hmet | ⟨hkept, _⟩
    · exact hmet.nodup hnodup
    · rw [hkept]
      exact hnodup
  · rcases h.limits with hmet | ⟨_, hnew⟩
    · rw [hmet.depth, ← htarget]
      simp
    · exact absurd hsame hnew
  · rw [h.foremost hdefaults, List.findSome?_singleton, htarget]

theorem Records.moved (hforward : x.forward = (.ok true, t.explorer))
    (h : s.Becomes t.explorer s.session t) (hbooked : t.Booked held v) :
    s.Records [⟨x, t.explorer, hforward⟩] v :=
  (h.records rfl (.refl _)).trans (hbooked.records rfl)

theorem Records.then_quiet (h : s.Records l t) (h' : t.Records [] s') : s.Records l s' :=
  List.append_nil l ▸ h.trans h'

theorem Stops.records (h : s.Stops s') : s.Records [] s' := by
  obtain ⟨b, hbecomes, _, _, ⟨terminated, done, rfl⟩, _⟩ := h
  exact hbecomes.records rfl (.refl _)

theorem Retreats.records {moved : Bool} (h : s.Retreats moved s') : s.Records [] s' := by
  rcases h with ⟨_, _, hkeeps⟩ | ⟨_, tally, _, hbecomes⟩
  · exact hkeeps.records rfl (.refl _)
  · exact hbecomes.records rfl (.refl _)

theorem Walks.Ends.records {w : Walks} (h : w.Ends s r s') : s.Records [] s' := by
  cases h with
  | last _ h => exact h.records rfl (.refl _)
  | again h => exact h.records rfl (.refl _)

theorem Bounded.Defers.records (h : w.Defers s w' s') : s.Records [] s' := by
  cases h with
  | kept => exact (Keeps.refl s).records rfl (.refl _)
  | split _ _ h => exact h.records rfl (.refl _)

theorem DepthFirst.Proceeds.records (h : DepthFirst.Proceeds s s') :
    s.Records s.explorer.stride?.toList s' := by
  cases h with
  | moved hforward h hbooked =>
    rw [Explorer.stride?_of_moved hforward]
    exact .moved hforward h hbooked
  | processed hforward h =>
    rw [Explorer.stride?_of_stayed hforward]
    exact h.records rfl (.refl _)

theorem DepthFirst.Turns.records {more : Bool} (h : DepthFirst.Turns s more s') :
    s.Records (Frontier.depthFirst.stride? s).toList s' := by
  cases h with
  | stopped h =>
    rw [Frontier.stride?, Frontier.stance?_of_stops h (by simp)]
    exact h.records
  | exhausted hleaf hbottom h =>
    rw [Frontier.stride?_eq_none]
    · exact h.records rfl (.refl _)
    · intro x hx
      simp only [Frontier.stance?, hleaf, hbottom] at hx
      split at hx
      · cases hx
      · split at hx
        · cases hx
        · cases hx
  | back hleaf hback h hproceeds hrunning _ hunasked =>
    rw [Frontier.stride?, Frontier.stance?_depthFirst hrunning hunasked, if_pos hleaf, hback]
    exact (h.records rfl (.refl _)).trans hproceeds.records
  | on hleaf h hproceeds hrunning hunasked =>
    rw [Frontier.stride?, Frontier.stance?_depthFirst hrunning hunasked,
      if_neg (Bool.not_eq_true _ ▸ hleaf), ← h.explorer]
    exact (h.records rfl (.refl _)).trans hproceeds.records

theorem Walks.Turns.records {w : Walks} (h : w.Turns s r s') :
    s.Records ((Frontier.walks w).stride? s).toList s' := by
  have hidle : w.seen = none → (Frontier.walks w).stride? s = none := by
    intro hseen
    exact Frontier.stride?_eq_none fun x hx => absurd hseen (Frontier.of_stance?_walks hx).1
  have hstance : w.seen ≠ none → s.Unasked →
      (Frontier.walks w).stance? s = some (s.explorer.shuffleSchedule w.source).1 := by
    intro hseen hunasked
    obtain ⟨seen, hsome⟩ := Option.ne_none_iff_exists'.1 hseen
    rw [Frontier.stance?_walks hunasked, hsome, Option.map_some]
  cases h with
  | stopped h hseen =>
    rw [hidle hseen]
    exact h.records
  | cut _ h hseen hmet =>
    rw [hidle hseen]
    exact h.records rfl hmet
  | begun h hseen =>
    rw [hidle hseen]
    exact h.records rfl (.refl _)
  | halted h hends _ hasked =>
    rw [Frontier.stride?, Frontier.stance?_of_asked hasked]
    exact h.records.then_quiet hends.records
  | finished hforward h hends =>
    rw [Frontier.stride?_eq_none]
    · exact (h.records rfl (.refl _)).then_quiet hends.records
    · intro x hx
      rw [(Frontier.of_stance?_walks hx).2]
      exact Explorer.stride?_of_stayed hforward
  | moved hforward h hbooked hz hseen _ _ hunasked =>
    rw [Frontier.stride?_of_moved (hstance (by simp [hseen]) hunasked) hforward]
    exact (Records.moved hforward h hbooked).then_quiet (hz.records rfl (.refl _))
  | left hforward h hbooked hz hends hseen hunasked =>
    rw [Frontier.stride?_of_moved (hstance hseen hunasked) hforward]
    exact ((Records.moved hforward h hbooked).then_quiet (hz.records rfl (.refl _))).then_quiet
      hends.records

theorem Bounded.Takes.records {r : Option Bounded} (h : w.Takes s r s') : s.Records [] s' := by
  cases h with
  | stopped h => exact h.records
  | ended _ _ h => exact h.records rfl (.refl _)
  | cut _ h _ _ _ _ hmet => exact h.records rfl hmet
  | raised _ h | taken _ h => exact h.records rfl (.refl _)

theorem Bounded.Steps.records {trail : Trail} {base : Nat} (hactive : w.active = some (trail, base))
    (h : w.Steps base s w' s') : s.Records ((Frontier.bounded w).stride? s).toList s' := by
  have hstance : s.Running → s.Unasked → (Frontier.bounded w).stance? s = some s.explorer := by
    intro hrunning hunasked
    rw [Frontier.stance?_bounded hrunning hunasked, hactive, Option.map_some]
  have hstays : ∀ {y : Explorer}, s.explorer.forward = (.ok false, y) →
      (Frontier.bounded w).stride? s = none := by
    intro y hforward
    refine Frontier.stride?_eq_none fun x hx => ?_
    rw [(Frontier.of_stance?_bounded hx).2]
    exact Explorer.stride?_of_stayed hforward
  cases h with
  | stopped h =>
    rw [Frontier.stride?, Frontier.stance?_of_stops h (by simp)]
    exact h.records
  | finished hforward _ h =>
    rw [hstays hforward]
    exact h.records rfl (.refl _)
  | back hforward _ h hback =>
    rw [hstays hforward]
    exact (h.records rfl (.refl _)).then_quiet hback.records
  | broken hforward h hbooked _ hrunning hunasked =>
    rw [Frontier.stride?_of_moved (hstance hrunning hunasked) hforward]
    exact .moved hforward h hbooked
  | left hforward h hbooked hz _ hback _ hrunning hunasked =>
    rw [Frontier.stride?_of_moved (hstance hrunning hunasked) hforward]
    exact ((Records.moved hforward h hbooked).then_quiet (hz.records rfl (.refl _))).then_quiet
      hback.records
  | entered hforward h hbooked hz hdefers _ _ _ hrunning hunasked =>
    rw [Frontier.stride?_of_moved (hstance hrunning hunasked) hforward]
    exact ((Records.moved hforward h hbooked).then_quiet (hz.records rfl (.refl _))).then_quiet
      hdefers.records

theorem Frontier.Turns.records {r : Option Frontier} (h : f.Turns s r s') :
    s.Records (f.stride? s).toList s' := by
  cases h with
  | depthFirst h => exact h.records
  | exhausted h => exact h.records
  | walks h => exact h.records
  | takes hactive h =>
    rw [Frontier.stride?_eq_none]
    · exact h.records
    · intro x hx
      obtain ⟨⟨trail, base, hsome⟩, _⟩ := Frontier.of_stance?_bounded hx
      cases hactive.symm.trans hsome
  | steps hactive h => exact h.records hactive

theorem turns_record (h : Does (turns fuel f) s true s') : s.Records (strides fuel f s) s' := by
  induction fuel generalizing f s with
  | zero => cases (does_pure.1 h).1
  | succ fuel ih =>
    obtain ⟨r, t, hone, hrest⟩ := does_bind.1 h
    have hrecords := (turn_does hone).records
    unfold strides
    rw [show s.perform (turn f) = (.ok r, t) from hone]
    cases r with
    | none =>
      obtain ⟨_, rfl⟩ := does_pure.1 hrest
      rw [List.append_nil]
      exact hrecords
    | some f' => exact hrecords.trans (ih hrest)

/-- A report tells of the steps forward that were taken, and of nothing else. -/
theorem run_records {report : Report} (h : Does (run fuel) s (some report) s') :
    ∃ t v : Search, t.config = s.config ∧ t.session = .start s.explorer ∧
      t.Records (s.journey fuel) v ∧ report = .ofSession { v.session with done := true } := by
  obtain ⟨f, t, v, hf, hturns, hreport, _⟩ := run_does h
  obtain ⟨x, ht⟩ := (start_does hf).becomes
  refine ⟨t, v, ht.config, ht.session, ?_, hreport⟩
  unfold journey
  rw [show s.perform start = (.ok f, t) from hf]
  exact turns_record hturns

end Records

end Search

end Interleave
