import Interleave.Proofs.Search.Exhaustive

set_option autoImplicit false

/-! A run tells its listeners of everything that moves the explorer or counts in the books. Its
callbacks are therefore a chronicle: from one to the next, explorer and books change in the one way
that the event stands for. -/

namespace Interleave

/-- An explorer that lingers where it is: what is left to decide and the random words may change, and
garbage may be collected. -/
inductive Explorer.Lingers (x : Explorer) : Explorer → Prop where
  | refl : Lingers x x
  | decides {y : Explorer} (h : Lingers x y) (agenda : Option Agenda)
      (random : Option Random.Source) : Lingers x { y.setAgenda agenda with random }
  | collects {y : Explorer} (h : Lingers x y) (held : List Trail) : Lingers x (y.collect held).2

/-- Books that count and have found the same. The end of the run is noted for a reason only, and a
request is not forgotten. -/
structure Session.Lingers (b b' : Session) : Prop where
  same : ∃ terminated done ignored, b' = { b with terminated, done, ignored }
  terminated : b.terminated = true → b'.terminated = true
  done : b'.done = true → b.done = true ∨ ¬ b'.Clean

def Trail.transitions (t : Trail) : List (Option Transition) := t.chain.map (·.transition)

section Lingering

variable {x y : Explorer} {b b' : Session}

theorem Session.Lingers.refl (b : Session) : b.Lingers b := ⟨⟨_, _, _, rfl⟩, id, .inl⟩

theorem Session.Lingers.clean (h : b.Lingers b') (hclean : b'.Clean) : b.Clean := by
  have hterminated : b.terminated = false := by
    by_contra hrequested
    cases (h.terminated (by simpa using hrequested)).symm.trans hclean.terminated
  obtain ⟨terminated, done, ignored, rfl⟩ := h.same
  exact ⟨hclean.errors, hclean.constraints, hterminated⟩

theorem Explorer.Lingers.table (h : x.Lingers y) : y.table = x.table := by
  induction h with
  | refl => rfl
  | decides _ _ _ ih => exact ih
  | collects _ _ ih => exact ih

theorem Explorer.Lingers.births (h : x.Lingers y) : y.births = x.births := by
  induction h with
  | refl => rfl
  | decides _ _ _ ih => exact ih
  | collects _ _ ih => exact ih

theorem Explorer.Lingers.transitions (h : x.Lingers y) :
    y.trail.transitions = x.trail.transitions := by
  induction h with
  | refl => rfl
  | decides _ _ _ ih => exact ih
  | @collects y _ held ih =>
    rw [← ih]
    change (y.trail.collect held).2.transitions = _
    rw [Trail.collect_eq]
    simp [Trail.transitions, Trail.chain, Node.tidy_transition]

theorem Explorer.depth_add_one (x : Explorer) : x.depth + 1 = x.trail.transitions.length := by
  simp [Explorer.depth, Trail.depth, Trail.transitions, Trail.chain]

theorem Explorer.Lingers.depth (h : x.Lingers y) : y.depth = x.depth := by
  have hx := x.depth_add_one
  have hy := y.depth_add_one
  rw [h.transitions] at hy
  omega

theorem Explorer.lingers_setAgenda (x : Explorer) (agenda : Option Agenda) :
    x.Lingers (x.setAgenda agenda) :=
  Lingers.refl.decides agenda x.random

theorem Explorer.lingers_randomizeChoices (x : Explorer) (seed : UInt64) :
    x.Lingers (x.randomizeChoices seed) :=
  Lingers.refl.decides x.trail.top.agenda (some (.ofSeed seed))

theorem Explorer.lingers_shuffleSchedule (x : Explorer) (source : Random.Source) :
    x.Lingers (x.shuffleSchedule source).1 := by
  unfold Explorer.shuffleSchedule
  split
  · exact .refl
  · exact x.lingers_setAgenda _

theorem Explorer.lingers_decide (x : Explorer) : x.Lingers x.decide.2 := by
  unfold Explorer.decide
  split
  · exact .refl
  split
  · split
    · exact x.lingers_setAgenda _
    split
    · split
      · exact Lingers.refl.decides _ _
      · exact Lingers.refl.decides _ _
    · exact x.lingers_setAgenda _
  · exact x.lingers_setAgenda _

theorem Explorer.lingers_of_forward {r : Except ExploreError Bool} (h : x.forward = (r, y))
    (hr : r ≠ .ok true) : x.Lingers y := by
  have hdecide := x.lingers_decide
  unfold Explorer.forward at h
  split at h
  · next heq =>
    rw [heq] at hdecide
    cases h
    exact hdecide
  · next heq =>
    rw [heq] at hdecide
    cases h
    exact hdecide
  · next heq =>
    rw [heq] at hdecide
    split at h
    · cases h
      exact hdecide
    · cases h
      exact absurd rfl hr

end Lingering

/-- How far a run has come: properties of the newest state are left to be checked, the next move is
to be decided, or the books are closed. -/
inductive Phase where
  | checking (left : List Property)
  | ready
  | ended

namespace Search

abbrev finding (s₀ : Search) (x : Explorer) (b : Session) (p : Property) (message : String) :
    Violation :=
  violation { s₀ with explorer := x, session := b } p.name message

def leftAfter (s₀ : Search) (left : List Property) : List Property :=
  if s₀.config.reportAllErrors then left else []

/-- The callbacks of a run of `s₀`, newest first, and where they leave explorer and books. -/
inductive Chronicle (s₀ : Search) : Phase → List Callback → Explorer → Session → Prop where
  | started : Chronicle s₀ .ready [⟨.searchStarted, .start s₀.explorer, s₀.explorer⟩] s₀.explorer
      (.start s₀.explorer)
  | lingered {cs : List Callback} {x y : Explorer} {b b' : Session}
      (h : Chronicle s₀ .ready cs x b) (hx : x.Lingers y) (hb : b.Lingers b') :
      Chronicle s₀ .ready cs y b'
  | advanced {cs : List Callback} {x y : Explorer} {b b' : Session}
      (h : Chronicle s₀ .ready cs x b) (hforward : x.forward = (.ok true, y))
      (hb : b' = b.advance y s₀.config.matchDepth) :
      Chronicle s₀ (.checking s₀.properties) (⟨.stateAdvanced, b', y⟩ :: cs) y b'
  | passed {cs : List Callback} {x : Explorer} {b : Session} {p : Property} {left : List Property}
      (h : Chronicle s₀ (.checking (p :: left)) cs x b) (hholds : p.finds b x = .ok none) :
      Chronicle s₀ (.checking left) cs x b
  | violated {cs : List Callback} {x : Explorer} {b b' : Session} {e : Violation} {p : Property}
      {left : List Property} {message : String} (h : Chronicle s₀ (.checking (p :: left)) cs x b)
      (hmessage : p.finds b x = .ok (some message)) (he : e = s₀.finding x b p message)
      (hb : b' = { b with errors := b.errors ++ [e] }) :
      Chronicle s₀ (.checking (s₀.leftAfter left)) (⟨.propertyViolated e, b', x⟩ :: cs) x b'
  | checked {cs : List Callback} {x : Explorer} {b : Session}
      (h : Chronicle s₀ (.checking []) cs x b) : Chronicle s₀ .ready cs x b
  | backtracked {cs : List Callback} {x y : Explorer} {b b' : Session}
      (h : Chronicle s₀ .ready cs x b) (hback : x.backtrack? = some y)
      (hb : b' = { b with depth := y.depth, isNew := false, stats := { b.stats with
        backtracked := b.stats.backtracked + 1 } }) :
      Chronicle s₀ .ready (⟨.stateBacktracked, b', y⟩ :: cs) y b'
  | processed {cs : List Callback} {x y : Explorer} {b b' : Session}
      (h : Chronicle s₀ .ready cs x b) (hforward : x.forward = (.ok false, y))
      (hb : b' = { b with stats := { b.stats with processed := b.stats.processed + 1 } }) :
      Chronicle s₀ .ready (⟨.stateProcessed, b', y⟩ :: cs) y b'
  | stored {cs : List Callback} {x : Explorer} {b : Session} (h : Chronicle s₀ .ready cs x b) :
      Chronicle s₀ .ready (⟨.stateStored, b, x⟩ :: cs) x b
  | restored {cs : List Callback} {x y : Explorer} {b b' : Session} {c : Callback}
      (h : Chronicle s₀ .ready cs x b) (hmem : c ∈ cs) (hstored : c.event = .stateStored)
      (hy : y = x.restore c.explorer.trail)
      (hb : b' = { b with depth := y.depth, isNew := false, stats := { b.stats with
        restored := b.stats.restored + 1 } }) :
      Chronicle s₀ .ready (⟨.stateRestored, b', y⟩ :: cs) y b'
  -- The limit comes into the books when everyone has been told of it.
  | limited {cs : List Callback} {x : Explorer} {b : Session} (limit : Constraint)
      (h : Chronicle s₀ .ready cs x b) :
      Chronicle s₀ .ready (⟨.constraintHit limit, b, x⟩ :: cs) x
        (if limit ∈ b.constraints then b else { b with constraints := b.constraints ++ [limit] })
  | finished {cs : List Callback} {x : Explorer} {b b' : Session}
      (h : Chronicle s₀ .ready cs x b) (hb : b' = { b with done := true }) :
      Chronicle s₀ .ended (⟨.searchFinished, b', x⟩ :: cs) x b'

end Search

def advances (cs : List Callback) : Nat := cs.countP (·.event = .stateAdvanced)

section Births

variable {x y : Explorer}

theorem Explorer.births_of_forward (h : x.forward = (.ok true, y)) : y.births = x.births + 1 := by
  have hdecide := x.lingers_decide.births
  unfold Explorer.forward at h
  split at h
  · cases h
  · cases h
  · next heq =>
    rw [heq] at hdecide
    split at h
    · cases h
    · cases h
      exact congrArg (· + 1) hdecide

theorem Explorer.births_of_backtrack? (h : x.backtrack? = some y) : y.births = x.births := by
  obtain ⟨trail, _, rfl⟩ := Option.map_eq_some_iff.1 h
  rfl

end Births

namespace Search

section Chronicle

variable {s₀ : Search} {phase : Phase} {cs : List Callback} {x : Explorer} {b : Session}

/-- Steps are told of one by one, so that nodes and callbacks count the same. -/
theorem Chronicle.births (h : Chronicle s₀ phase cs x b) :
    x.births = s₀.explorer.births + advances cs := by
  induction h with
  | started => rfl
  | lingered _ hx _ ih => rw [hx.births, ih]
  | advanced _ hforward _ ih =>
    rw [Explorer.births_of_forward hforward, ih]
    simp [advances, Nat.add_assoc]
  | passed _ _ ih => exact ih
  | checked _ ih => exact ih
  | backtracked _ hback _ ih => simpa [advances, Explorer.births_of_backtrack? hback] using ih
  | processed _ hforward _ ih =>
    simpa [advances, (Explorer.lingers_of_forward hforward (by simp)).births] using ih
  | restored _ _ _ hy _ ih => simpa [advances, hy, Explorer.restore] using ih
  | violated _ _ _ _ ih => simpa [advances] using ih
  | stored _ ih => simpa [advances] using ih
  | limited _ _ ih => simpa [advances] using ih
  | finished _ _ ih => simpa [advances] using ih

/-- As long as the books are open, the end of the run is noted for a reason only. -/
theorem Chronicle.not_clean (h : Chronicle s₀ phase cs x b) (hphase : phase ≠ .ended)
    (hdone : b.done = true) : ¬ b.Clean := by
  induction h with
  | started => cases hdone
  | @lingered _ _ _ b b' _ _ hb ih =>
    rcases hb.done hdone with hbefore | hunclean
    · exact fun hclean => ih (by simp) hbefore (hb.clean hclean)
    · exact hunclean
  | advanced _ _ hb ih =>
    subst hb
    exact fun hclean => ih (by simp) hdone ⟨hclean.errors, hclean.constraints, hclean.terminated⟩
  | passed _ _ ih => exact ih (by simp) hdone
  | violated _ _ _ hb ih =>
    subst hb
    exact fun hclean => by simpa using hclean.errors
  | checked _ ih => exact ih (by simp) hdone
  | backtracked _ _ hb ih | processed _ _ hb ih =>
    subst hb
    exact fun hclean => ih (by simp) hdone ⟨hclean.errors, hclean.constraints, hclean.terminated⟩
  | stored _ ih => exact ih (by simp) hdone
  | restored _ _ _ _ hb ih =>
    subst hb
    exact fun hclean => ih (by simp) hdone ⟨hclean.errors, hclean.constraints, hclean.terminated⟩
  | limited limit _ ih =>
    split
    · next hmem => exact fun hclean => by simp [hclean.constraints] at hmem
    · exact fun hclean => by simpa using hclean.constraints
  | finished => exact absurd rfl hphase

end Chronicle

end Search

end Interleave
