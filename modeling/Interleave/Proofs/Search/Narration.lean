import Interleave.Proofs.Search.Bounded
import Interleave.Proofs.Search.Chronicle
import Interleave.Proofs.Search.Telling

set_option autoImplicit false

namespace Interleave.Search

def Kept (cs : List Callback) (kept : List Trail) : Prop :=
  ∀ trail ∈ kept, ∃ c ∈ cs, c.event = .stateStored ∧ c.explorer.trail = trail

structure Stands (s₀ : Search) (w : Watch) (kept : List Trail) (phase : Phase) (s : Search) :
    Prop where
  told : ∃ cs, Informed s₀ w cs s ∧ Chronicle s₀ phase cs s.explorer s.session ∧ Kept cs kept
  lower : w.lo ≤ s.explorer.births
  upper : s.explorer.births ≤ w.hi

/-- A run of `s₀` that was broken off: a listener has declined the newest callback, or everyone was
told and the run has failed otherwise. -/
inductive Breaks (s₀ : Search) (w : Watch) (e : SearchError) (s : Search) : Prop where
  | declined {phase : Phase} {cs : List Callback} {c : Callback} {x : Explorer} {b : Session}
      {told : List Telling} (hc : Chronicle s₀ phase (c :: cs) x b)
      (hdeclined : Declined s₀.deliveries c (Registry.tellings s₀.listeners cs)
        (Registry.order s₀.listeners c.event) e told)
      (htold : Told s₀ w told s) (hexplorer : s.explorer = c.explorer)
      (hupper : s.explorer.births ≤ w.hi)
  | failed {phase : Phase} (h : Stands s₀ w [] phase s)
      (he : ∀ name event reason, e ≠ .listener name event reason)

def Watch.more (w : Watch) : Watch := { w with hi := w.hi + 1 }

section Stands

variable {s₀ s t : Search} {w : Watch} {kept : List Trail} {phase : Phase} {cs : List Callback}
  {x : Explorer} {b : Session} {event : Event}

theorem Kept.cons (h : Kept cs kept) (c : Callback) : Kept (c :: cs) kept := by
  intro trail htrail
  obtain ⟨d, hd, hstored⟩ := h trail htrail
  exact ⟨d, List.mem_cons_of_mem c hd, hstored⟩

theorem Informed.more (h : Informed s₀ w cs s) : Informed s₀ w.more cs s :=
  ⟨h.config, h.properties, ⟨h.told.listeners, h.told.deliveries, h.told.stop, h.told.asked⟩,
    h.willing⟩

theorem Stands.more (h : Stands s₀ w kept phase s) : Stands s₀ w.more kept phase s := by
  obtain ⟨cs, hinformed, hrest⟩ := h.told
  exact ⟨⟨cs, hinformed.more, hrest⟩, h.lower, Nat.le_succ_of_le h.upper⟩

theorem Stands.forget {fewer : List Trail} (h : Stands s₀ w kept phase s)
    (hsub : ∀ trail ∈ fewer, trail ∈ kept) : Stands s₀ w fewer phase s := by
  obtain ⟨cs, hinformed, hc, hkept⟩ := h.told
  exact ⟨⟨cs, hinformed, hc, fun trail htrail => hkept trail (hsub trail htrail)⟩, h.lower, h.upper⟩

theorem Breaks.more {e : SearchError} (h : Breaks s₀ w e s) : Breaks s₀ w.more e s := by
  cases h with
  | declined hc hdeclined htold hexplorer hupper =>
    exact .declined hc hdeclined ⟨htold.listeners, htold.deliveries, htold.stop, htold.asked⟩
      hexplorer (Nat.le_succ_of_le hupper)
  | failed h he => exact .failed h.more he

theorem Stands.lingers (h : Stands s₀ w kept .ready s) (ht : s.Silently t)
    (hx : s.explorer.Lingers t.explorer) (hb : s.session.Lingers t.session) :
    Stands s₀ w kept .ready t := by
  obtain ⟨cs, hinformed, hc, hkept⟩ := h.told
  refine ⟨⟨cs, hinformed.silently ht, hc.lingered hx hb, hkept⟩, ?_, ?_⟩
  · rw [hx.births]
    exact h.lower
  · rw [hx.births]
    exact h.upper

theorem Stands.not_clean (h : Stands s₀ w kept .ready s) (hdone : s.session.done = true) :
    ¬ s.session.Clean := by
  obtain ⟨cs, _, hc, _⟩ := h.told
  exact hc.not_clean (by simp) hdone

theorem Stands.keeps (h : Stands s₀ w kept phase s) (ht : s.Silently t) (hkeeps : s.Keeps t) :
    Stands s₀ w kept phase t := by
  obtain ⟨cs, hinformed, hc, hkept⟩ := h.told
  refine ⟨⟨cs, hinformed.silently ht, ?_, hkept⟩, ?_, ?_⟩
  · rw [hkeeps.explorer, hkeeps.session]
    exact hc
  · rw [hkeeps.explorer]
    exact h.lower
  · rw [hkeeps.explorer]
    exact h.upper

theorem Stands.noted (h : Stands s₀ w kept phase s) (probe : Probe) (journal : Journal) :
    Stands s₀ w kept phase { s with probe, journal } :=
  h.keeps ⟨rfl, rfl, rfl, rfl, rfl⟩ ⟨rfl, rfl, rfl, rfl⟩

theorem emit_informs (h : Informed s₀ w cs s)
    (hc : Chronicle s₀ phase (⟨event, s.session, s.explorer⟩ :: cs) x b)
    (hlower : w.lo ≤ s.explorer.births) (hupper : s.explorer.births ≤ w.hi) :
    Ensures (emit event) s
      (fun _ t => s.Keeps t ∧ Informed s₀ w (⟨event, s.session, s.explorer⟩ :: cs) t)
      (Breaks s₀ w) := by
  refine (emit_ensures h hlower).mono (fun _ t ht => ht) ?_
  rintro e t ⟨hkeeps, told, htold, hdeclined⟩
  refine .declined hc hdeclined htold hkeeps.explorer ?_
  rw [hkeeps.explorer]
  exact hupper

theorem emit_stands (h : Informed s₀ w cs s)
    (hc : Chronicle s₀ phase (⟨event, s.session, s.explorer⟩ :: cs) s.explorer s.session)
    (hkept : Kept (⟨event, s.session, s.explorer⟩ :: cs) kept) (hlower : w.lo ≤ s.explorer.births)
    (hupper : s.explorer.births ≤ w.hi) :
    Ensures (emit event) s (fun _ t => s.Keeps t ∧ Stands s₀ w kept phase t) (Breaks s₀ w) := by
  refine (emit_informs h hc hlower hupper).mono ?_ fun e t ht => ht
  rintro _ t ⟨hkeeps, hinformed⟩
  refine ⟨hkeeps, ⟨_, hinformed, ?_, hkept⟩, ?_, ?_⟩
  · rw [hkeeps.explorer, hkeeps.session]
    exact hc
  · rw [hkeeps.explorer]
    exact hlower
  · rw [hkeeps.explorer]
    exact hupper

end Stands

structure Tries (s : Search) (moved : Bool) (t : Search) : Prop where
  forward : s.explorer.forward = (.ok moved, t.explorer)
  session : t.session = s.session
  silently : s.Silently t

section Moving

variable {s₀ s t : Search} {w : Watch} {kept : List Trail} {E : SearchError → Search → Prop}

variable (h : Stands s₀ w kept .ready s)

include h

theorem checkTerminated_ensures :
    Ensures checkTerminated s
      (fun ended t => Stands s₀ w kept .ready t ∧ (ended = false → t = s ∧ s.stop = false) ∧
        (ended = true → ¬ t.session.Clean) ∧ (s.stop = true → t.session.done = true))
      (Breaks s₀ w) := by
  have hreason : ¬ ({ s.session with terminated := true, done := true } : Session).Clean :=
    fun hclean => by cases hclean.terminated
  have hstop : ∀ journal, Stands s₀ w kept .ready { s with
      session := { s.session with terminated := true, done := true }, journal } := fun _ =>
    h.lingers ⟨rfl, rfl, rfl, rfl, rfl⟩ .refl
      ⟨⟨_, _, _, rfl⟩, fun _ => rfl, fun _ => .inr hreason⟩
  rw [checkTerminated, ensures_get]
  split
  · split
    · exact ⟨hstop _, by simp, fun _ => hreason, fun _ => rfl⟩
    · exact ⟨hstop _, by simp, fun _ => hreason, fun _ => rfl⟩
  · next hasked =>
    refine ⟨h, fun _ => ⟨rfl, by simpa using hasked⟩, ?_, fun h => absurd h hasked⟩
    intro hended hclean
    cases hended.symm.trans hclean.terminated

theorem takeIgnored_ensures :
    Ensures takeIgnored s (fun _ t => Stands s₀ w kept .ready t ∧ t.stop = s.stop) E :=
  ⟨h.lingers ⟨rfl, rfl, rfl, rfl, rfl⟩ .refl ⟨⟨_, _, _, rfl⟩, id, .inl⟩, rfl⟩

omit h in
theorem noteStep_ensures : Ensures noteStep s (fun _ t => s.Keeps t ∧ s.Silently t) E := by
  rw [noteStep, ensures_get]
  split
  · split
    · exact ⟨⟨rfl, rfl, rfl, rfl⟩, rfl, rfl, rfl, rfl, rfl⟩
    · exact ⟨.refl s, rfl, rfl, rfl, rfl, rfl⟩
  · exact ⟨.refl s, rfl, rfl, rfl, rfl, rfl⟩

theorem forward_ensures : Ensures forward s (s.Tries) (Breaks s₀ w) := by
  rw [forward, ensures_withExplorer]
  split
  · next moved hmoved =>
    have hforward : s.explorer.forward = (.ok moved, s.explorer.forward.2) := Prod.ext hmoved rfl
    split
    · refine noteStep_ensures.bind fun _ t ht => ?_
      obtain ⟨hkeeps, hsilently⟩ := ht
      exact ⟨hkeeps.explorer ▸ hforward, hkeeps.session, hsilently.config, hsilently.properties,
        hsilently.listeners, hsilently.deliveries, hsilently.stop⟩
    · exact ⟨hforward, rfl, rfl, rfl, rfl, rfl, rfl⟩
  · next e he =>
    rw [ensures_get, ensures_throw]
    have hforward : s.explorer.forward = (.error e, s.explorer.forward.2) := Prod.ext he rfl
    have hlingers := Explorer.lingers_of_forward hforward (by simp)
    have hstands : Stands s₀ w kept .ready { s with explorer := s.explorer.forward.2 } :=
      h.lingers ⟨rfl, rfl, rfl, rfl, rfl⟩ hlingers (.refl _)
    exact .failed (hstands.forget (by simp)) (by simp)

theorem processed_ensures (ht : s.Tries false t) :
    Ensures processed t (fun _ => Stands s₀ w kept .ready) (Breaks s₀ w) := by
  obtain ⟨cs, hinformed, hc, hkept⟩ := h.told
  have hbirths : t.explorer.births = s.explorer.births :=
    (Explorer.lingers_of_forward ht.forward (by simp)).births
  unfold processed modifyStats
  rw [ensures_modifySession_bind]
  refine (emit_stands (hinformed.silently ?_) ?_ (hkept.cons _) ?_ ?_).mono
    (fun _ _ hv => hv.2) fun _ _ he => he
  · exact ⟨ht.silently.config, ht.silently.properties, ht.silently.listeners,
      ht.silently.deliveries, ht.silently.stop⟩
  · exact hc.processed ht.forward (by rw [ht.session])
  · exact hbirths ▸ h.lower
  · exact hbirths ▸ h.upper

theorem backtrack_ensures :
    Ensures backtrack s (fun moved t => Stands s₀ w kept .ready t ∧ (moved = false → t = s))
      (Breaks s₀ w) := by
  obtain ⟨cs, hinformed, hc, hkept⟩ := h.told
  rw [backtrack, ensures_withExplorer]
  cases hx : s.explorer.backtrack? with
  | none => exact ⟨h, fun _ => rfl⟩
  | some x =>
    have hbirths := Explorer.births_of_backtrack? hx
    rw [if_pos rfl, ensures_get, ensures_modifySession_bind]
    refine Ensures.bind (emit_stands ?_ (hc.backtracked hx rfl) (hkept.cons _) ?_ ?_)
      fun _ t ht => ?_
    · exact hinformed.silently ⟨rfl, rfl, rfl, rfl, rfl⟩
    · exact hbirths ▸ h.lower
    · exact hbirths ▸ h.upper
    · exact ⟨ht.2, by simp⟩

theorem stored_ensures :
    Ensures stored s (fun trail => Stands s₀ w (trail :: kept) .ready) (Breaks s₀ w) := by
  obtain ⟨cs, hinformed, hc, hkept⟩ := h.told
  rw [stored, ensures_get]
  refine (emit_stands hinformed hc.stored ?_ h.lower h.upper).bind fun _ t ht => ht.2
  rintro trail (_ | ⟨_, htrail⟩)
  · exact ⟨_, List.mem_cons_self, rfl, rfl⟩
  · exact hkept.cons _ trail htrail

theorem restore_ensures {trail : Trail} (htrail : trail ∈ kept) :
    Ensures (restore trail) s (fun _ => Stands s₀ w kept .ready) (Breaks s₀ w) := by
  obtain ⟨cs, hinformed, hc, hkept⟩ := h.told
  obtain ⟨c, hmem, hstored, rfl⟩ := hkept trail htrail
  rw [restore, ensures_withExplorer, ensures_get, ensures_modifySession_bind]
  refine Ensures.mono (emit_stands ?_ (hc.restored hmem hstored rfl rfl) (hkept.cons _) h.lower
    h.upper) (fun _ _ ht => ht.2) fun _ _ he => he
  exact hinformed.silently ⟨rfl, rfl, rfl, rfl, rfl⟩

end Moving

section AfterForward

variable {s₀ s t : Search} {w : Watch} {kept : List Trail} {held : Unit → List Trail} {x : Explorer}

theorem record_ensures {p : Property} {left : List Property} {message : String}
    (h : Stands s₀ w kept (.checking (p :: left)) s)
    (hmessage : p.finds s.session s.explorer = .ok (some message)) :
    Ensures (record p.name message) s
      (fun _ t => Stands s₀ w kept (.checking (s₀.leftAfter left)) t ∧ t.session.errors ≠ [])
      (Breaks s₀ w) := by
  obtain ⟨cs, hinformed, hc, hkept⟩ := h.told
  rw [record, ensures_get, ensures_note_bind, ensures_modifySession_bind]
  refine Ensures.mono (emit_stands ?_ (hc.violated hmessage rfl rfl) (hkept.cons _) h.lower h.upper)
    ?_ fun _ _ he => he
  · exact hinformed.silently ⟨rfl, rfl, rfl, rfl, rfl⟩
  · rintro _ t ⟨hkeeps, ht⟩
    refine ⟨ht, ?_⟩
    rw [hkeeps.session]
    simp

theorem Stands.recalling {phase : Phase} (h : Stands s₀ w kept phase s)
    (memory : List (Nat × Option String)) : Stands s₀ w kept phase { s with memory } := by
  obtain ⟨cs, hinformed, hc, hkept⟩ := h.told
  exact ⟨⟨cs, hinformed.silently ⟨rfl, rfl, rfl, rfl, rfl⟩, hc, hkept⟩, h.lower, h.upper⟩

theorem checkProperties_ensures {i : Nat} {l : List Property}
    (h : Stands s₀ w kept (.checking l) s) :
    Ensures (checkProperties i l) s
      (fun violated t => Stands s₀ w kept (.checking []) t ∧
        (violated = true ∨ s.session.errors ≠ [] → t.session.errors ≠ []))
      (Breaks s₀ w) := by
  induction l generalizing s i with
  | nil => exact ⟨h, by simp⟩
  | cons p left ih =>
    have hchecked := (checkProperty_ensures i p s).mono (fun _ _ hfound => hfound)
      (F := Breaks s₀ w) fun e t ⟨_, memory, he, ht⟩ => by
        rw [he, ht]
        exact .failed ((h.recalling memory).forget (by simp)) (by simp)
    refine hchecked.bind fun found t ⟨hfound, memory, ht⟩ => ?_
    subst ht
    have h' := h.recalling memory
    obtain ⟨cs, hinformed, hc, hkept⟩ := h'.told
    cases found with
    | none => exact ih ⟨⟨cs, hinformed, hc.passed hfound, hkept⟩, h.lower, h.upper⟩
    | some message =>
      refine (record_ensures h' hfound).bind fun _ t ht => ?_
      obtain ⟨ht, herrors⟩ := ht
      obtain ⟨_, hinformed', _⟩ := ht.told
      rw [leftAfter, ← hinformed'.config] at ht
      rw [ensures_get]
      split
      · next hall =>
        rw [if_pos hall] at ht
        exact (ih ht).bind fun _ v hv => ⟨hv.1, fun _ => hv.2 (.inr herrors)⟩
      · next hone =>
        rw [if_neg hone] at ht
        exact ⟨ht, fun _ => herrors⟩

variable (h : Stands s₀ w kept .ready s)

include h

theorem constraintHit_ensures {limit : Constraint} :
    Ensures (constraintHit limit) s
      (fun _ t => Stands s₀ w kept .ready t ∧ t.session.constraints ≠ []) (Breaks s₀ w) := by
  obtain ⟨cs, hinformed, hc, hkept⟩ := h.told
  rw [constraintHit, ensures_note_bind]
  refine Ensures.bind (emit_informs ?_ (hc.limited limit) h.lower h.upper) fun _ t ht => ?_
  · exact hinformed.silently ⟨rfl, rfl, rfl, rfl, rfl⟩
  obtain ⟨hkeeps, ht⟩ := ht
  rw [ensures_modifySession, hkeeps.session]
  refine ⟨⟨⟨_, ht.silently ⟨rfl, rfl, rfl, rfl, rfl⟩, ?_, hkept.cons _⟩, ?_, ?_⟩, ?_⟩
  · exact hkeeps.explorer ▸ hc.limited limit
  · exact hkeeps.explorer ▸ h.lower
  · exact hkeeps.explorer ▸ h.upper
  · change (if limit ∈ s.session.constraints then s.session else
      { s.session with constraints := s.session.constraints ++ [limit] }).constraints ≠ []
    split
    · next hmem => exact List.ne_nil_of_mem hmem
    · simp

theorem checkDepth_ensures {limit : Option Nat} :
    Ensures (checkDepth limit x) s (fun _ => Stands s₀ w kept .ready) (Breaks s₀ w) := by
  unfold checkDepth
  split
  · split
    · exact (constraintHit_ensures h).mono (fun _ _ ht => ht.1) fun _ _ he => he
    · exact h
  · exact h

theorem checkMemory_ensures :
    Ensures (checkMemory held) s
      (fun enough t => Stands s₀ w kept .ready t ∧ (enough = false → t.session.constraints ≠ []))
      (Breaks s₀ w) := by
  simp only [checkMemory, ensures_get]
  split
  · exact ⟨h, by simp⟩
  rw [ensures_askMemory]
  split
  · exact ⟨h.noted _ _, by simp⟩
  split
  · exact ⟨h.noted _ _, by simp⟩
  have htidied : ∀ probe journal, Stands s₀ w kept .ready
      { s with explorer := (s.explorer.collect (held ())).2, probe, journal } := fun _ _ =>
    h.lingers ⟨rfl, rfl, rfl, rfl, rfl⟩ (.collects .refl _) (.refl _)
  rw [ensures_withExplorer, ensures_askMemory, ensures_note_bind]
  split
  · exact ⟨htidied _ _, by simp⟩
  · rw [ensures_note_bind]
    exact (constraintHit_ensures (htidied _ _)).bind fun _ t ht => ⟨ht.1, fun _ => ht.2⟩

theorem Stands.ends (hreason : ¬ s.session.Clean) :
    Stands s₀ w kept .ready { s with session := { s.session with done := true } } :=
  h.lingers ⟨rfl, rfl, rfl, rfl, rfl⟩ .refl ⟨⟨_, _, _, rfl⟩, id, fun _ => .inr fun hclean =>
    hreason ⟨hclean.errors, hclean.constraints, hclean.terminated⟩⟩

theorem checkLimits_ensures :
    Ensures (checkLimits x held) s (fun _ => Stands s₀ w kept .ready) (Breaks s₀ w) := by
  rw [checkLimits, ensures_get]
  refine (checkDepth_ensures h).bind fun _ t ht => ?_
  refine (checkMemory_ensures ht).bind fun enough v hv => ?_
  split
  · next hspent =>
    rw [ensures_modifySession]
    exact hv.1.ends fun hclean => hv.2 (by simpa using hspent) hclean.constraints
  · exact hv.1

theorem afterForward_ensures (ht : s.Tries true t) :
    Ensures (afterForward held) t (fun _ => Stands s₀ w.more kept .ready) (Breaks s₀ w.more) := by
  obtain ⟨cs, hinformed, hc, hkept⟩ := h.told
  have hbirths : t.explorer.births = s.explorer.births + 1 := Explorer.births_of_forward ht.forward
  have htold := (hinformed.silently ht.silently).more
  rw [afterForward, ensures_get, ensures_get, ensures_modifySession_bind]
  refine Ensures.bind (emit_stands ?_ (hc.advanced ht.forward ?_) (hkept.cons _) ?_ ?_)
    fun _ v hv => ?_
  · exact htold.silently ⟨rfl, rfl, rfl, rfl, rfl⟩
  · rw [ht.session, htold.config]
  · change w.lo ≤ t.explorer.births
    exact hbirths ▸ Nat.le_succ_of_le h.lower
  · change t.explorer.births ≤ w.hi + 1
    exact hbirths ▸ Nat.succ_le_succ h.upper
  obtain ⟨hkeeps, hv⟩ := hv
  rw [ensures_get, hkeeps.properties]
  change Ensures (checkProperties 0 t.properties >>= _) v _ _
  rw [htold.properties]
  refine (checkProperties_ensures hv).bind fun violated z hz => ?_
  obtain ⟨hz, hviolated⟩ := hz
  have hready : Stands s₀ w.more kept .ready z := by
    obtain ⟨cs, hinformed, hc, hkept⟩ := hz.told
    exact ⟨⟨cs, hinformed, hc.checked, hkept⟩, hz.lower, hz.upper⟩
  split
  · next hstop =>
    rw [ensures_modifySession]
    refine hready.ends fun hclean => hviolated (.inl ?_) hclean.errors
    exact (Bool.and_eq_true_iff.1 hstop).1
  · split
    · rw [ensures_modifySession_bind]
      refine checkLimits_ensures ?_
      exact hready.lingers ⟨rfl, rfl, rfl, rfl, rfl⟩ .refl ⟨⟨_, _, _, rfl⟩, id, .inl⟩
    · exact checkLimits_ensures hready

end AfterForward

end Interleave.Search
