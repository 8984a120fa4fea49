import Interleave.Proofs.Search.Cutoff
import Interleave.Proofs.Search.Parallel

set_option autoImplicit false

/-! A search that reports all errors goes on where another one stops at the first. Only the check of
the properties after a step looks at this setting, so that the two searches are in step up to the
first violation, which both of them find. -/

namespace Interleave.Search

def relentless (s : Search) : Search :=
  { s with config := { s.config with reportAllErrors := true } }

variable {s t : Search} {p : Program} {c : Config} {f : Frontier} {fuel : Nat}

abbrev ReportsAll (core : Core) (v : Variant) : Prop :=
  v = ⟨core.table, core.config.stateSet, true, core.deliveries⟩

abbrev Unspoilt (_ : StateTable) (c : Config) (errors : List Violation) : Prop :=
  c.reportAllErrors = false ∧ errors = []

theorem Parallel.relentless {α : Type} {m : Run α} (h : Parallel ReportsAll Unspoilt m)
    (hclean : Granted Unspoilt (s.perform m).2) :
    s.relentless.perform m = ((s.perform m).1, (s.perform m).2.relentless) := by
  obtain ⟨_, rfl, heq⟩ := h.same s _ rfl hclean
  exact heq

section Steps

end Steps

def Frontier.Rests : Frontier → Prop
  | .depthFirst => True
  | .walks k => k.seen = none
  | .bounded q => q.active = none

section Closes

variable {s' v : Search}

def Closed (s s' : Search) : Prop :=
  s'.session.done = true ∧ ∃ e, s'.session.errors = s.session.errors ++ [e]

theorem Booked.closes {held : List Trail} (h : s.Becomes t.explorer s.session t)
    (hbooked : t.Booked held v) (hfirst : s.config.reportAllErrors = false)
    (hnew : v.session.errors ≠ s.session.errors) : s.Closed v := by
  unfold Closed
  rw [← h.session] at hnew ⊢
  exact (hbooked.first (h.config ▸ hfirst)).resolve_left hnew

theorem Walks.Ends.closes {w : Walks} {r : Option Walks} (h : w.Ends v r s') :
    s'.session.done = v.session.done ∧ s'.session.errors = v.session.errors ∧
      ∀ k, r = some k → k.seen = none := by
  cases h with
  | last _ h => exact ⟨congrArg _ h.session, congrArg _ h.session, by simp⟩
  | again h =>
    exact ⟨congrArg (·.done) h.session, congrArg (·.errors) h.session,
      fun k hk => Option.some.inj hk ▸ rfl⟩

variable (hfirst : s.config.reportAllErrors = false)
  (hnew : s'.session.errors ≠ s.session.errors)

include hfirst hnew

theorem DepthFirst.Proceeds.closes (h : DepthFirst.Proceeds s s') : s.Closed s' := by
  cases h with
  | moved _ h hbooked => exact hbooked.closes h hfirst hnew
  | processed _ h => exact absurd (congrArg (·.errors) h.session) hnew

theorem DepthFirst.Turns.closes {more : Bool} (h : DepthFirst.Turns s more s') :
    s.Closed s' := by
  cases h with
  | stopped h => exact absurd (h.records.still rfl) hnew
  | exhausted _ _ h => exact absurd (congrArg (·.errors) h.session) hnew
  | back _ _ h hproceeds | on _ h hproceeds =>
    have hsame := congrArg (·.errors) h.session
    have hclosed := hproceeds.closes (h.config ▸ hfirst) (hsame ▸ hnew)
    exact ⟨hclosed.1, hsame ▸ hclosed.2⟩

theorem Walks.Turns.closes {w : Walks} {r : Option Walks} (h : w.Turns s r s') :
    s.Closed s' ∧ ∀ k, r = some k → k.seen = none := by
  cases h with
  | stopped h => exact absurd (h.records.still rfl) hnew
  | cut _ h | begun h => exact absurd (congrArg (·.errors) h.session) hnew
  | halted h hends => exact absurd (hends.closes.2.1.trans (h.records.still rfl)) hnew
  | finished _ h hends =>
    exact absurd (hends.closes.2.1.trans (congrArg (·.errors) h.session)) hnew
  | moved _ h hbooked hz _ _ _ _ hgoes =>
    rw [hz.session] at hnew hgoes
    exact absurd (hbooked.closes h hfirst hnew).1 (Bool.eq_false_iff.1 hgoes)
  | left _ h hbooked hz hends =>
    obtain ⟨hdone, herrors, hrests⟩ := hends.closes
    rw [hz.session] at hdone herrors
    have hclosed := hbooked.closes h hfirst (herrors ▸ hnew)
    exact ⟨⟨hdone.trans hclosed.1, herrors ▸ hclosed.2⟩, hrests⟩

theorem Bounded.Steps.closes {w w' : Bounded} {base : Nat} (h : w.Steps base s w' s') :
    s.Closed s' ∧ w'.active = none := by
  cases h with
  | stopped h => exact absurd (h.records.still rfl) hnew
  | finished _ _ h => exact absurd (congrArg (·.errors) h.session) hnew
  | back _ _ h hback =>
    exact absurd ((hback.records.still rfl).trans (congrArg (·.errors) h.session)) hnew
  | broken _ h hbooked => exact ⟨hbooked.closes h hfirst hnew, rfl⟩
  | left _ h hbooked hz _ hback hdone =>
    have herrors := (hback.records.still rfl).trans (congrArg (·.errors) hz.session)
    exact absurd (hbooked.closes h hfirst (herrors ▸ hnew)).1 (Bool.eq_false_iff.1 hdone)
  | entered _ h hbooked hz hdefers _ _ hdone =>
    have herrors := (hdefers.records.still rfl).trans (congrArg (·.errors) hz.session)
    exact absurd (hbooked.closes h hfirst (herrors ▸ hnew)).1 (Bool.eq_false_iff.1 hdone)

/-- When a violation ends the run, no piece of work is left. -/
theorem Frontier.Turns.closes {r : Option Frontier} (h : f.Turns s r s') :
    s.Closed s' ∧ ∀ g, r = some g → g.Rests := by
  cases h with
  | depthFirst h => exact ⟨h.closes hfirst hnew, fun g hg => Option.some.inj hg ▸ trivial⟩
  | exhausted h => exact ⟨h.closes hfirst hnew, by simp⟩
  | takes _ h => exact absurd (h.records.still rfl) hnew
  | walks h =>
    obtain ⟨hclosed, hrests⟩ := h.closes hfirst hnew
    refine ⟨hclosed, fun g hg => ?_⟩
    obtain ⟨k, hk, rfl⟩ := Option.map_eq_some_iff.1 hg
    exact hrests k hk
  | steps _ h =>
    obtain ⟨hclosed, hactive⟩ := h.closes hfirst hnew
    exact ⟨hclosed, fun g hg => Option.some.inj hg ▸ hactive⟩

end Closes

theorem Fresh.relentless (hs : s.Fresh p c) :
    s.relentless.Fresh p { c with reportAllErrors := true } where
  start := hs.start
  accepted := hs.accepted
  config := by rw [← hs.config]; rfl
  properties := hs.properties
  session := hs.session

end Interleave.Search
