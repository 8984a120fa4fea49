import Interleave.Proofs.Search.Exhaustive

set_option autoImplicit false

namespace Interleave.Search.DepthFirst

def openNodes (s : Search) : List Node :=
  if s.session.isNew then s.explorer.trail.chain else s.explorer.trail.chain.tail

structure Thorough (m : Model) (s₀ : State) (nodes : List Node) (s : Search) : Prop where
  honest : s.Honest m.program m.symmetry
  steady : s.explorer.Steady m
  guarded : s.Guarded
  kept : s.session.Clean → s.session.ignored = false
  limit : s.session.Clean → s.session.isNew = true → s.depthLimitReached = true →
    s.explorer.isEnd = true
  explored : s.session.Clean → Explored m s₀ s.explorer.table.Holds nodes

variable {m : Model} {s₀ : State} {s s' t : Search}

theorem Thorough.moved (hm : m.Exact) (hs : Thorough m s₀ s.explorer.trail.chain s)
    (hforward : s.explorer.forward = (.ok true, t.explorer))
    (h : s.Becomes t.explorer s.session t) (hbooked : t.Booked [] s') :
    Thorough m s₀ (openNodes s') s' := by
  obtain ⟨a, move, a', n, f, hstep⟩ := Explorer.forward_true hforward
  have ht := hs.honest.becomes h (hs.honest.forward hforward) rfl
  have hsteady := hs.steady.advances hstep
  have hguarded := hs.guarded.becomes h ⟨rfl, rfl, rfl⟩ rfl
  have hbefore : s'.session.Clean → s.session.Clean := fun hclean =>
    h.clean ⟨rfl, rfl, rfl⟩ (hbooked.clean hclean).1
  refine ⟨ht.booked hbooked, hbooked.explorer.steady hsteady, hguarded.booked hbooked, ?_, ?_, ?_⟩
  · intro hclean
    obtain ⟨_, _, hignored, _⟩ := hbooked.clean hclean
    rw [hignored, h.session]
    exact hs.kept (hbefore hclean)
  · intro hclean _ hlimit
    exact hbooked.isEnd_of_limit ht.explorer hclean hlimit
  · intro hclean
    obtain ⟨hsees, hcovers⟩ := hs.explored (hbefore hclean)
    have hextends := (hs.steady.table.add hstep.added).2
    have hkept : ∀ g, s.explorer.table.Holds g → t.explorer.table.Holds g := by
      rintro g ⟨id, hid⟩
      exact ⟨id, hextends.kept g id hid⟩
    have honly : ∀ g, t.explorer.table.Holds g → s.explorer.table.Holds g ∨ g = f := by
      rintro g ⟨id, hid⟩
      exact (hextends.only g id hid).imp_left fun hold => ⟨id, hold⟩
    have hall :
        s.explorer.trail.chain.take (s.explorer.depth + 1) ++ [] = s.explorer.trail.chain := by
      rw [List.append_nil]
      exact List.take_of_length_le (Nat.le_refl _)
    have hdepth : s'.explorer.trail.chain.length = s.explorer.depth + 2 := by
      obtain ⟨g, hchain, _⟩ := hbooked.explorer.chain ht.explorer
      rw [hchain, List.length_map, hstep.trail]
      rfl
    rw [← hall] at hcovers
    obtain ⟨hopen, hclosed⟩ := Booked.covers hm hs.honest hs.steady hstep ht hbooked hclean hcovers
      hkept ⟨_, hextends.number⟩ honly
    rw [List.append_nil, List.take_of_length_le (Nat.le_of_eq hdepth)] at hopen hclosed
    rw [hbooked.explorer.table]
    refine ⟨hsees.mono hkept, ?_⟩
    unfold openNodes
    split
    · exact hopen
    · next hseen =>
      have hnotNew : t.explorer.isNew = false := by
        rw [hbooked.isNew] at hseen
        simp only [Session.advance, Bool.or_eq_true, not_or, Bool.not_eq_true] at hseen
        exact hseen.1
      exact hclosed ⟨_, hextends.old hnotNew⟩

theorem Thorough.proceeds (hm : m.Exact) (hs : Thorough m s₀ s.explorer.trail.chain s)
    (h : Proceeds s s') : Thorough m s₀ (openNodes s') s' := by
  cases h with
  | moved hforward h hbooked => exact hs.moved hm hforward h hbooked
  | @processed _ tally hforward h =>
    obtain ⟨agenda, hx, hnone, _⟩ := Explorer.decide_none (Explorer.forward_false hforward)
    have hbefore : s'.session.Clean → s.session.Clean := h.clean ⟨rfl, rfl, rfl⟩
    refine ⟨hs.honest.becomes h (hs.honest.forward hforward) rfl, ?_,
      hs.guarded.becomes h ⟨rfl, rfl, rfl⟩ rfl, ?_, ?_, ?_⟩
    · rw [hx]
      exact hs.steady.setAgenda _
    · intro hclean
      rw [h.session]
      exact hs.kept (hbefore hclean)
    · intro hclean hnew hlimit
      unfold depthLimitReached at hlimit
      rw [h.session] at hnew
      rw [h.config, h.session] at hlimit
      rw [hx]
      exact hs.limit (hbefore hclean) hnew hlimit
    · intro hclean
      obtain ⟨hsees, hcovers⟩ := hs.explored (hbefore hclean)
      have hbelow := hcovers.drop (.inr hnone)
      rw [hx]
      refine ⟨hsees, hbelow.mono (fun _ hV => hV) fun s t data hpending => ?_⟩
      refine hpending.subset fun k hk => ?_
      unfold openNodes
      rw [hx]
      split
      · exact List.mem_cons_of_mem _ hk
      · exact hk

theorem Thorough.leave (hs : Thorough m s₀ (openNodes s) s) (hclean : s.session.Clean)
    (hleaf : isLeaf s s.session.ignored = true) :
    Explored m s₀ s.explorer.table.Holds s.explorer.trail.below := by
  obtain ⟨hsees, hcovers⟩ := hs.explored hclean
  refine ⟨hsees, ?_⟩
  unfold openNodes at hcovers
  by_cases hnew : s.session.isNew = true
  · rw [if_pos hnew] at hcovers
    unfold isLeaf at hleaf
    rw [hs.kept hclean, hnew] at hleaf
    simp only [Bool.not_true, Bool.or_false, Bool.false_or, Bool.or_eq_true] at hleaf
    have hend : s.explorer.isEnd = true := hleaf.elim id (hs.limit hclean hnew)
    exact hcovers.drop (.inl hend)
  · rw [if_neg hnew] at hcovers
    exact hcovers

theorem Thorough.turns (hm : m.Exact) (hs : Thorough m s₀ (openNodes s) s) {more : Bool}
    (h : Turns s more s') :
    (more = true → Thorough m s₀ (openNodes s') s') ∧ (more = false → Complete m s₀ s') := by
  cases h with
  | stopped h => exact ⟨nofun, fun _ hclean => absurd hclean (hs.guarded.stops h)⟩
  | exhausted hleaf hbottom h =>
    refine ⟨nofun, fun _ hclean => ?_⟩
    have hexplored := hs.leave (h.clean ⟨rfl, rfl, rfl⟩ hclean) hleaf
    rw [Explorer.below_of_backtrack?_none hbottom] at hexplored
    rw [← h.explorer] at hexplored
    exact ⟨_, fun _ hf => hf, hexplored⟩
  | @back t _ _ _ hleaf hback h hproceeds =>
    refine ⟨fun _ => ?_, nofun⟩
    have hbefore : t.session.Clean → s.session.Clean := h.clean ⟨rfl, rfl, rfl⟩
    obtain ⟨hchain, htable⟩ := Explorer.chain_of_backtrack? hback
    refine Thorough.proceeds hm ⟨hs.honest.becomes h
      (Explorer.backtrack?_genuine hs.honest.explorer hback) rfl, hs.steady.backtrack? hback,
      hs.guarded.becomes h ⟨rfl, rfl, rfl⟩ rfl, ?_, ?_, ?_⟩ hproceeds
    · intro _
      rw [h.session]
    · intro _ hnew
      rw [h.session] at hnew
      cases hnew
    · intro hclean
      rw [hchain, htable]
      exact hs.leave (hbefore hclean) hleaf
  | @on t _ hleaf h hproceeds =>
    refine ⟨fun _ => ?_, nofun⟩
    have hbefore : t.session.Clean → s.session.Clean := h.clean ⟨rfl, rfl, rfl⟩
    simp only [isLeaf, Bool.or_eq_false_iff, Bool.not_eq_false'] at hleaf
    obtain ⟨⟨⟨_, hnew⟩, _⟩, hlimit⟩ := hleaf
    refine Thorough.proceeds hm ⟨hs.honest.becomes h hs.honest.explorer rfl, ?_,
      hs.guarded.becomes h ⟨rfl, rfl, rfl⟩ rfl, ?_, ?_, ?_⟩ hproceeds
    · rw [h.explorer]
      exact hs.steady
    · intro _
      rw [h.session]
    · intro _ _ hreached
      unfold depthLimitReached at hreached hlimit
      rw [h.config, h.session, hlimit] at hreached
      cases hreached
    · intro hclean
      have hexplored := hs.explored (hbefore hclean)
      unfold openNodes at hexplored
      rw [if_pos hnew] at hexplored
      rw [h.explorer]
      exact hexplored

end Interleave.Search.DepthFirst
