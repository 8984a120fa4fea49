import Mathlib.Data.Finset.Card
import Interleave.Proofs.Store.Collections

set_option autoImplicit false

namespace Interleave

namespace IdSet

variable {κ : Type} [DecidableEq κ] [Identity κ]

/-- The set that a sequence of operations makes of an empty set of the given mode, and the
mathematical set that it makes of `∅`. The sets that are given to an operation came about likewise,
in any mode. -/
inductive Built : Symmetry → IdSet κ → Finset κ → Prop where
  | empty (mode : Symmetry) : Built mode (.empty mode) ∅
  | add {mode : Symmetry} {s : IdSet κ} {A : Finset κ} (h : Built mode s A) (k : κ)
      (arrange : Arrangement κ := fun _ _ => []) : Built mode (s.add k arrange).2 (insert k A)
  | remove {mode : Symmetry} {s : IdSet κ} {A : Finset κ} (h : Built mode s A) (k : κ) :
      Built mode (s.remove k).2 (A.erase k)
  | retainAll {mode other : Symmetry} {s t : IdSet κ} {A B : Finset κ} (h : Built mode s A)
      (ht : Built other t B) : Built mode (s.retainAll t).2 (A ∩ B)
  | removeAll {mode other : Symmetry} {s t : IdSet κ} {A B : Finset κ} (h : Built mode s A)
      (ht : Built other t B) : Built mode (s.removeAll t).2 (A \ B)

structure Represents (mode : Symmetry) (s : IdSet κ) (A : Finset κ) : Prop where
  mode : s.mode = mode
  nodup : s.members.Nodup
  mem : ∀ k, k ∈ s.members ↔ k ∈ A

variable {mode other : Symmetry} {s t : IdSet κ} {A B : Finset κ} {arrange : Arrangement κ}

theorem add_mode (s : IdSet κ) (k : κ) : (s.add k arrange).2.mode = s.mode := by
  unfold add
  split <;> rfl

theorem remove_mode (s : IdSet κ) (k : κ) : (s.remove k).2.mode = s.mode := by
  unfold remove
  split <;> rfl

section

variable (h : Represents mode s A)

include h

theorem Represents.add (k : κ) : Represents mode (s.add k arrange).2 (insert k A) := by
  refine ⟨(add_mode s k).trans h.mode, add_nodup h.nodup k, fun l => ?_⟩
  rw [Finset.mem_insert, ← h.mem]
  by_cases hk : k ∈ s.members
  · rw [add_of_mem hk]
    exact ⟨.inr, fun hl => hl.elim (fun heq => heq ▸ hk) id⟩
  · rw [(add_of_notMem hk).2.mem_iff, List.mem_cons]

theorem Represents.remove (k : κ) : Represents mode (s.remove k).2 (A.erase k) := by
  refine ⟨(remove_mode s k).trans h.mode, remove_nodup h.nodup k, fun l => ?_⟩
  rw [remove_members, h.nodup.mem_erase_iff, Finset.mem_erase, h.mem]

theorem Represents.removeEach (keys : List κ) :
    Represents mode (keys.foldl (fun s k => (s.remove k).2) s) (A \ keys.toFinset) := by
  induction keys generalizing s A with
  | nil => simpa using h
  | cons k rest ih =>
    have hrest := ih (h.remove k)
    rwa [Finset.erase_sdiff_comm, ← Finset.sdiff_insert, ← List.toFinset_cons] at hrest

theorem Represents.toFinset : s.members.toFinset = A := by
  ext k
  rw [List.mem_toFinset, h.mem]

omit h in
theorem Represents.retainAll (hs : Represents mode s A) (ht : Represents other t B) :
    Represents mode (s.retainAll t).2 (A ∩ B) := by
  have hdoomed : (s.members.filter fun k => !t.contains k).toFinset = A \ B := by
    ext k
    simp [hs.mem, ht.mem]
  have heach := hs.removeEach (s.members.filter fun k => !t.contains k)
  rwa [hdoomed, sdiff_sdiff_right_self] at heach

theorem Represents.remove_fst (k : κ) : (s.remove k).1 = decide (k ∈ A) := by
  by_cases hk : k ∈ s.members
  · rw [remove_of_mem hk, decide_eq_true ((h.mem k).1 hk)]
  · rw [remove_of_notMem hk, decide_eq_false (mt (h.mem k).2 hk)]

theorem Represents.foldl_remove (keys : List κ) (changed : Bool) :
    keys.foldl (fun (changed, s) k =>
      let (removed, s) := IdSet.remove s k
      (changed || removed, s)) (changed, s) =
      (changed || decide (∃ k ∈ keys, k ∈ A), keys.foldl (fun s k => (s.remove k).2) s) := by
  induction keys generalizing s A changed with
  | nil => simp
  | cons k rest ih =>
    rw [List.foldl_cons, List.foldl_cons]
    refine (ih (h.remove k) (changed || (s.remove k).1)).trans (Prod.ext ?_ rfl)
    -- A key that is listed twice is found once, and that is enough.
    rw [h.remove_fst]
    by_cases hk : k ∈ A <;> simp [hk]

omit h in
theorem Represents.removeAll (hs : Represents mode s A) (ht : Represents other t B) :
    Represents mode (s.removeAll t).2 (A \ B) := by
  have heach := hs.removeEach t.members
  rw [ht.toFinset] at heach
  unfold IdSet.removeAll
  rw [hs.foldl_remove]
  exact heach

omit h in
theorem Built.represents (h : Built mode s A) : Represents mode s A := by
  induction h with
  | empty mode => exact ⟨rfl, List.nodup_nil, fun k => by simp [IdSet.empty]⟩
  | add _ k _ ih => exact ih.add k
  | remove _ k ih => exact ih.remove k
  | retainAll _ _ ih iht => exact ih.retainAll iht
  | removeAll _ _ ih iht => exact ih.removeAll iht

structure BehavesAs (s : IdSet κ) (A : Finset κ) : Prop where
  size : s.size = A.card
  contains : ∀ k, s.contains k = decide (k ∈ A)
  add : ∀ k arrange, (s.add k arrange).1 = decide (k ∉ A)
  remove : ∀ k, (s.remove k).1 = decide (k ∈ A)

/-- Two sets answer together as two mathematical sets do; an operation that changes its set tells
so. -/
structure CompareAs (s : IdSet κ) (A : Finset κ) (t : IdSet κ) (B : Finset κ) : Prop where
  containsAll : s.containsAll t = decide (B ⊆ A)
  same : s.same t = decide (A = B)
  retainAll : (s.retainAll t).1 = decide (A ∩ B ≠ A)
  removeAll : (s.removeAll t).1 = decide (A \ B ≠ A)

theorem Represents.add_fst (k : κ) (arrange : Arrangement κ) :
    (s.add k arrange).1 = decide (k ∉ A) := by
  by_cases hk : k ∈ s.members
  · rw [add_of_mem hk, decide_eq_false (not_not_intro ((h.mem k).1 hk))]
  · rw [(add_of_notMem hk).1, decide_eq_true (mt (h.mem k).2 hk)]

theorem Represents.behavesAs : s.BehavesAs A where
  size := by rw [IdSet.size, ← List.toFinset_card_of_nodup h.nodup, h.toFinset]
  contains k := (contains_eq s k).trans (decide_eq_decide.2 (h.mem k))
  add := h.add_fst
  remove := h.remove_fst

end

theorem Represents.compareAs (hs : Represents mode s A) (ht : Represents other t B) :
    s.CompareAs A t B := by
  have hall : s.containsAll t = decide (B ⊆ A) := by
    rw [Bool.eq_iff_iff]
    simp [containsAll, hs.mem, ht.mem, Finset.subset_iff]
  refine ⟨hall, ?_, ?_, ?_⟩
  · rw [IdSet.same, hall, hs.behavesAs.size, ht.behavesAs.size, Bool.eq_iff_iff]
    simp only [Bool.and_eq_true, beq_iff_eq, decide_eq_true_eq]
    constructor
    · rintro ⟨hcard, hsub⟩
      exact (Finset.eq_of_subset_of_card_le hsub hcard.le).symm
    · rintro rfl
      exact ⟨rfl, Finset.Subset.refl _⟩
  · rw [Bool.eq_iff_iff]
    simp [IdSet.retainAll, hs.mem, ht.mem, Finset.inter_eq_left, Finset.subset_iff]
  · unfold IdSet.removeAll
    rw [hs.foldl_remove, Bool.eq_iff_iff]
    simp [ht.mem, Finset.not_disjoint_iff, and_comm]

omit [DecidableEq κ] in
theorem Represents.members_eq (hs : Represents .canonical s A) (ht : Represents .canonical t A)
    (hcode : Function.Injective (Identity.code : κ → Nat)) : s.members = t.members := by
  have hperm : s.members.Perm t.members :=
    (List.perm_ext_iff_of_nodup hs.nodup ht.nodup).2 fun k => (hs.mem k).trans (ht.mem k).symm
  exact hperm.eq_of_pairwise (fun _ _ _ _ hle hge => hcode (Nat.le_antisymm hle hge))
    (s.ordered hs.mode) (t.ordered ht.mode)

/-- Sets of either mode behave like mathematical sets with the same history, alone and with one
another. Canonical sets are sorted by code, and where codes tell keys apart the members fix their
order. -/
theorem built_behavesAs (hs : Built mode s A) (ht : Built other t B) :
    s.BehavesAs A ∧ s.CompareAs A t B ∧ s.members.Nodup ∧ (∀ k, k ∈ s.members ↔ k ∈ A) ∧
      (mode = .canonical → SortedByCode id s.members) ∧
      (Function.Injective (Identity.code : κ → Nat) → mode = .canonical → other = .canonical →
        A = B → s.members = t.members) := by
  have hrs := hs.represents
  have hrt := ht.represents
  refine ⟨hrs.behavesAs, hrs.compareAs hrt, hrs.nodup, hrs.mem, ?_, ?_⟩
  · rintro rfl
    exact s.ordered hrs.mode
  · rintro hcode rfl rfl rfl
    exact hrs.members_eq hrt hcode

end IdSet

structure Badge where
  series : Nat
  number : Nat
deriving DecidableEq

instance : Identity Badge := ⟨Badge.series⟩

namespace IdSet

/-- Two badges of one series in a canonical set, next to a fast set with one of them; and two
histories of one canonical set of numbers. -/
theorem built_behavesAs_badges :
    CompareAs (((empty .canonical).add (⟨1, 0⟩ : Badge)).2.add ⟨1, 1⟩).2 {⟨1, 1⟩, ⟨1, 0⟩}
        ((empty .fast).add (⟨1, 1⟩ : Badge)).2 {⟨1, 1⟩} ∧
      (((empty .canonical).add 3).2.add 1).2.members =
        (((((empty .canonical).add 1).2.add 7).2.add 3).2.remove 7).2.members := by
  have hbadges := built_behavesAs (.add (.add (.empty .canonical) (⟨1, 0⟩ : Badge)) ⟨1, 1⟩)
    (.add (.empty .fast) ⟨1, 1⟩)
  have hnumbers := built_behavesAs (.add (.add (.empty .canonical) 3) 1)
    (.remove (.add (.add (.add (.empty .canonical) 1) 7) 3) 7)
  exact ⟨hbadges.2.1, hnumbers.2.2.2.2.2 Function.injective_id rfl rfl (by decide)⟩

end IdSet

end Interleave
