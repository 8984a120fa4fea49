import Mathlib.Data.Multiset.Count
import Interleave.Proofs.Store.Sets

set_option autoImplicit false

namespace Interleave

namespace IdBag

variable {κ : Type} [DecidableEq κ] [Identity κ]

/-- The bag that a sequence of operations makes of an empty bag of the given mode, and the multiset
that it makes of `0`. The sets that are given to an operation came about by operations likewise, in
any mode. -/
inductive Built : Symmetry → IdBag κ → Multiset κ → Prop where
  | empty (mode : Symmetry) : Built mode (.empty mode) 0
  | add {mode : Symmetry} {b : IdBag κ} {M : Multiset κ} (h : Built mode b M) (k : κ)
      (arrange : Arrangement κ := fun _ _ => []) : Built mode (b.add k arrange) (k ::ₘ M)
  | removeOne {mode : Symmetry} {b : IdBag κ} {M : Multiset κ} (h : Built mode b M) (k : κ) :
      Built mode (b.removeOne k).2 (M.erase k)
  | removeEvery {mode : Symmetry} {b : IdBag κ} {M : Multiset κ} (h : Built mode b M) (k : κ) :
      Built mode (b.removeEvery k).2 (M.filter (· ≠ k))
  | retainAll {mode other : Symmetry} {b : IdBag κ} {M : Multiset κ} {t : IdSet κ} {A : Finset κ}
      (h : Built mode b M) (ht : t.Built other A) :
      Built mode (b.retainAll t).2 (M.filter (· ∈ A))
  | removeAll {mode other : Symmetry} {b : IdBag κ} {M : Multiset κ} {t : IdSet κ} {A : Finset κ}
      (h : Built mode b M) (ht : t.Built other A) :
      Built mode (b.removeAll t).2 (M.filter (· ∉ A))

structure Represents (mode : Symmetry) (b : IdBag κ) (M : Multiset κ) : Prop where
  mode : b.mode = mode
  tidy : b.Tidy
  count : ∀ k, b.count k = M.count k

variable {mode other : Symmetry} {b b' c : IdBag κ} {M N : Multiset κ} {t : IdSet κ} {A : Finset κ}
  {k : κ} {n : Nat} {arrange : Arrangement κ}

theorem Tidy.mem_entries (h : b.Tidy) : (k, n) ∈ b.entries ↔ b.count k = n ∧ 0 < n := by
  constructor
  · intro hk
    exact ⟨count_of_mem h hk, h.positive _ hk⟩
  · rintro ⟨rfl, hpos⟩
    have hk := (contains_iff h k).1 (decide_eq_true hpos)
    obtain ⟨e, he, rfl⟩ := List.mem_map.1 hk
    have hcount : b.count e.1 = e.2 := count_of_mem h he
    rwa [hcount]

theorem Tidy.mem_distinct (h : b.Tidy) : k ∈ b.distinct ↔ 0 < b.count k := by
  rw [← contains_iff h, contains, decide_eq_true_eq]

theorem Assigns.mem_entries (ha : b.Assigns k n b') {l : κ} {m : Nat} :
    (l, m) ∈ b'.entries ↔ (l = k ∧ m = n ∧ n ≠ 0) ∨ (l ≠ k ∧ (l, m) ∈ b.entries) := by
  rw [ha.entries.mem_iff]
  by_cases hn : n = 0
  · simp [hn, others, and_comm]
  · simp [hn, others, and_comm]

theorem Assigns.count (h : b.Tidy) (ha : b.Assigns k n b') (l : κ) :
    b'.count l = if l = k then n else b.count l := by
  have hentry : ∀ m, b'.count l = m ∧ 0 < m ↔ (if l = k then n else b.count l) = m ∧ 0 < m := by
    intro m
    rw [← ha.tidy.mem_entries, ha.mem_entries, h.mem_entries]
    by_cases hl : l = k
    · simp only [hl, true_and, ne_eq, not_true_eq_false, false_and, or_false, if_true]
      omega
    · simp [hl]
  -- two numbers that are positive together, and then equal, are equal
  have hleft := hentry (b'.count l)
  have hright := hentry (if l = k then n else b.count l)
  omega

section

variable (h : Represents mode b M)

include h

theorem Represents.assigns (ha : b.Assigns k n b')
    (hN : ∀ l, N.count l = if l = k then n else M.count l) : Represents mode b' N := by
  refine ⟨ha.mode.trans h.mode, ha.tidy, fun l => ?_⟩
  rw [ha.count h.tidy, hN, h.count]

theorem Represents.add (k : κ) : Represents mode (b.add k arrange) (k ::ₘ M) := by
  refine h.assigns (add_assigns h.tidy k) fun l => ?_
  rw [Multiset.count_cons, h.count]
  split
  · next heq => rw [heq]
  · rfl

theorem Represents.removeOne (k : κ) : Represents mode (b.removeOne k).2 (M.erase k) := by
  refine h.assigns (removeOne_assigns h.tidy k) fun l => ?_
  rw [h.count]
  split
  · next heq => rw [heq, Multiset.count_erase_self]
  · next hne => rw [Multiset.count_erase_of_ne hne]

theorem Represents.removeEvery (k : κ) :
    Represents mode (b.removeEvery k).2 (M.filter (· ≠ k)) := by
  refine h.assigns (removeEvery_assigns h.tidy k) fun l => ?_
  rw [Multiset.count_filter]
  by_cases heq : l = k <;> simp [heq]

theorem Represents.removeEach (keys : List κ) :
    Represents mode (keys.foldl (fun b k => (b.removeEvery k).2) b) (M.filter (· ∉ keys)) := by
  induction keys generalizing b M with
  | nil => simpa using h
  | cons k rest ih =>
    have hrest := ih (h.removeEvery k)
    rw [Multiset.filter_filter] at hrest
    rw [List.foldl_cons]
    convert hrest using 2
    simp [and_comm]

theorem Represents.mem_distinct : k ∈ b.distinct ↔ k ∈ M := by
  rw [h.tidy.mem_distinct, h.count, Multiset.count_pos]

theorem Represents.retainAll (ht : t.Represents other A) :
    Represents mode (b.retainAll t).2 (M.filter (· ∈ A)) := by
  have heach := h.removeEach (b.distinct.filter fun k => !t.contains k)
  rw [Multiset.filter_congr (q := (· ∈ A))] at heach
  · exact heach
  · intro k hk
    simp [h.mem_distinct.2 hk, ht.mem]

theorem Represents.removeEvery_fst (k : κ) : (b.removeEvery k).1 = M.count k := by
  rw [← h.count, IdBag.removeEvery, IdBag.count]
  cases b.find k <;> rfl

theorem Represents.foldl_removeEvery (keys : List κ) (changed : Bool) :
    keys.foldl (fun (changed, b) k =>
      let (removed, b) := IdBag.removeEvery b k
      (changed || decide (0 < removed), b)) (changed, b) =
      (changed || decide (∃ k ∈ keys, k ∈ M), keys.foldl (fun b k => (b.removeEvery k).2) b) := by
  induction keys generalizing b M changed with
  | nil => simp
  | cons k rest ih =>
    rw [List.foldl_cons, List.foldl_cons]
    refine (ih (h.removeEvery k) (changed || decide (0 < (b.removeEvery k).1))).trans
      (Prod.ext ?_ rfl)
    -- A key that is listed twice is found once, and that is enough.
    rw [h.removeEvery_fst]
    by_cases hk : k ∈ M
    · simp [hk, Multiset.count_pos]
    · have hother : ∀ l ∈ M, l ≠ k := fun l hl heq => hk (heq ▸ hl)
      have hsame : (∃ l ∈ rest, l ∈ M ∧ l ≠ k) ↔ ∃ l ∈ rest, l ∈ M := by
        constructor
        · rintro ⟨l, hrest, hl, _⟩
          exact ⟨l, hrest, hl⟩
        · rintro ⟨l, hrest, hl⟩
          exact ⟨l, hrest, hl, hother l hl⟩
      simp [hk, hsame]

theorem Represents.removeAll (ht : t.Represents other A) :
    Represents mode (b.removeAll t).2 (M.filter (· ∉ A)) := by
  have heach := h.removeEach t.members
  simp only [ht.mem] at heach
  unfold IdBag.removeAll
  rw [h.foldl_removeEvery]
  exact heach

omit h in
theorem Built.represents (h : Built mode b M) : Represents mode b M := by
  induction h with
  | empty =>
    refine ⟨rfl, empty_tidy mode, fun k => ?_⟩
    rw [count_of_notMem (empty_tidy mode) List.not_mem_nil, Multiset.count_zero]
  | add _ k _ ih => exact ih.add k
  | removeOne _ k ih => exact ih.removeOne k
  | removeEvery _ k ih => exact ih.removeEvery k
  | retainAll _ ht ih => exact ih.retainAll ht.represents
  | removeAll _ ht ih => exact ih.removeAll ht.represents

structure BehavesAs (b : IdBag κ) (M : Multiset κ) : Prop where
  listing : (b.toList : Multiset κ) = M
  count : ∀ k, b.count k = M.count k
  size : b.size = M.card
  distinctSize : b.distinctSize = M.toFinset.card
  contains : ∀ k, b.contains k = decide (k ∈ M)
  removeOne : ∀ k, (b.removeOne k).1 = decide (k ∈ M)
  removeEvery : ∀ k, (b.removeEvery k).1 = M.count k

structure CompareAs (b : IdBag κ) (M : Multiset κ) (t : IdSet κ) (A : Finset κ) : Prop where
  containsAll : b.containsAll t = decide (∀ k ∈ A, k ∈ M)
  retainAll : (b.retainAll t).1 = decide (M.filter (· ∈ A) ≠ M)
  removeAll : (b.removeAll t).1 = decide (M.filter (· ∉ A) ≠ M)

omit h in
theorem Tidy.count_toList (h : b.Tidy) (k : κ) : b.toList.count k = b.count k := by
  have hnone : ∀ entries : List (κ × Nat), k ∉ entries.map Prod.fst →
      (entries.flatMap fun e => List.replicate e.2 e.1).count k = 0 := by
    intro entries hk
    refine List.count_eq_zero.2 fun hmem => hk ?_
    obtain ⟨e, he, hrepeat⟩ := List.mem_flatMap.1 hmem
    exact List.mem_map.2 ⟨e, he, (List.eq_of_mem_replicate hrepeat).symm⟩
  by_cases hk : k ∈ b.distinct
  · obtain ⟨before, n, after, hentries, _⟩ := find_of_mem h hk
    have hnodup := h.nodup
    rw [distinct, hentries, List.map_append, List.map_cons, List.nodup_middle, List.nodup_cons,
      ← List.map_append] at hnodup
    have hcount : b.count k = n := count_of_mem h (by simp [hentries])
    have hrest := hnone _ hnodup.1
    rw [List.flatMap_append, List.count_append] at hrest
    rw [hcount, toList, hentries, List.flatMap_append, List.flatMap_cons, List.count_append,
      List.count_append, List.count_replicate_self]
    omega
  · rw [count_of_notMem h hk]
    exact hnone _ hk

theorem Represents.listing : (b.toList : Multiset κ) = M := by
  refine Multiset.ext.2 fun k => ?_
  rw [Multiset.coe_count, h.tidy.count_toList, h.count]

theorem Represents.toFinset : b.distinct.toFinset = M.toFinset := by
  ext k
  rw [List.mem_toFinset, Multiset.mem_toFinset, h.mem_distinct]

theorem Represents.contains (k : κ) : b.contains k = decide (k ∈ M) := by
  rw [IdBag.contains, h.count, decide_eq_decide, Multiset.count_pos]

theorem Represents.removeOne_fst (k : κ) : (b.removeOne k).1 = decide (k ∈ M) := by
  by_cases hk : k ∈ b.distinct
  · obtain ⟨before, n, after, _, hfind⟩ := find_of_mem h.tidy hk
    rw [IdBag.removeOne, hfind, decide_eq_true (h.mem_distinct.1 hk)]
  · obtain ⟨before, after, _, hfind, _⟩ := find_of_notMem h.tidy hk
    rw [IdBag.removeOne, hfind, decide_eq_false (mt h.mem_distinct.2 hk)]

theorem Represents.behavesAs : b.BehavesAs M where
  listing := h.listing
  count := h.count
  size := by
    rw [← h.listing, Multiset.coe_card, size_eq_sum, toList, List.length_flatMap]
    simp
  distinctSize := by
    rw [← h.toFinset, List.toFinset_card_of_nodup h.tidy.nodup, distinctSize, distinct,
      List.length_map]
  contains := h.contains
  removeOne := h.removeOne_fst
  removeEvery := h.removeEvery_fst

theorem Represents.compareAs (ht : t.Represents other A) :
    b.CompareAs M t A where
  containsAll := by
    rw [Bool.eq_iff_iff]
    simp [containsAll, h.contains, ht.mem]
  retainAll := by
    rw [Bool.eq_iff_iff]
    simp [IdBag.retainAll, h.mem_distinct, ht.mem, Multiset.filter_eq_self]
  removeAll := by
    unfold IdBag.removeAll
    rw [h.foldl_removeEvery, Bool.eq_iff_iff]
    simp [ht.mem, Multiset.filter_eq_self, and_comm]

/-- Equality looks at the members of one side only; the numbers of members make up for the other. -/
theorem Represents.same (hc : Represents other c N) : b.same c = decide (M = N) := by
  rw [Bool.eq_iff_iff, IdBag.same, h.behavesAs.distinctSize, hc.behavesAs.distinctSize]
  simp only [Bool.and_eq_true, beq_iff_eq, List.all_eq_true, decide_eq_true_eq, h.mem_distinct,
    h.count, hc.count]
  constructor
  · rintro ⟨hcard, hcounts⟩
    have hsub : M.toFinset ⊆ N.toFinset := fun k hk => by
      rw [Multiset.mem_toFinset] at hk ⊢
      rw [← Multiset.count_pos, ← hcounts k hk]
      exact Multiset.count_pos.2 hk
    have hsame := Finset.eq_of_subset_of_card_le hsub hcard.ge
    refine Multiset.ext.2 fun k => ?_
    by_cases hk : k ∈ M
    · exact hcounts k hk
    · have hk' : k ∉ N := by rwa [← Multiset.mem_toFinset, ← hsame, Multiset.mem_toFinset]
      rw [Multiset.count_eq_zero_of_notMem hk, Multiset.count_eq_zero_of_notMem hk']
  · rintro rfl
    exact ⟨rfl, fun _ _ => rfl⟩

end

/-- Entries in the order of their codes have one order only, unless two of them share a code. -/
theorem Represents.entries_eq (h : Represents .canonical b M) (hc : Represents .canonical c M)
    (hcode : Function.Injective (Identity.code : κ → Nat)) : b.entries = c.entries := by
  have hperm : b.entries.Perm c.entries := by
    refine (List.perm_ext_iff_of_nodup h.tidy.nodup.of_map hc.tidy.nodup.of_map).2 ?_
    rintro ⟨k, n⟩
    rw [h.tidy.mem_entries, hc.tidy.mem_entries, h.count, hc.count]
  refine hperm.eq_of_pairwise (fun e f he hf hle hge => ?_) (h.tidy.ordered h.mode)
    (hc.tidy.ordered hc.mode)
  exact List.inj_on_of_nodup_map h.tidy.nodup he (hperm.mem_iff.2 hf)
    (hcode (Nat.le_antisymm hle hge))

/-- Bags of either mode behave like multisets with the same history, alone, with one another and with
sets. No entry says zero and no key has two. Canonical bags are sorted by code, and where codes tell
keys apart the multiset fixes their entries. -/
theorem built_agrees {side : Symmetry} (hb : Built mode b M) (hc : Built other c N)
    (ht : t.Built side A) :
    b.BehavesAs M ∧ b.CompareAs M t A ∧ b.same c = decide (M = N) ∧
      (∀ e ∈ b.entries, e.2 ≠ 0) ∧ b.distinct.Nodup ∧
      (mode = .canonical → SortedByCode Prod.fst b.entries) ∧
      (Function.Injective (Identity.code : κ → Nat) → mode = .canonical → other = .canonical →
        M = N → b.entries = c.entries) := by
  have hrb := hb.represents
  have hrc := hc.represents
  refine ⟨hrb.behavesAs, hrb.compareAs ht.represents, hrb.same hrc,
    fun e he => (hrb.tidy.positive e he).ne', hrb.tidy.nodup, ?_, ?_⟩
  · rintro rfl
    exact hrb.tidy.ordered hrb.mode
  · rintro hcode rfl rfl rfl
    exact hrb.entries_eq hrc hcode

/-- Two badges of one series in a canonical bag, one of them twice, next to a fast bag with the other
and a set with the first; and two histories of one canonical bag of numbers. -/
theorem built_agrees_badges :
    CompareAs ((((empty .canonical).add (⟨1, 0⟩ : Badge)).add ⟨1, 1⟩).add ⟨1, 0⟩)
        {⟨1, 0⟩, ⟨1, 1⟩, ⟨1, 0⟩} ((IdSet.empty .fast).add ⟨1, 0⟩).2 {⟨1, 0⟩} ∧
      same ((((empty .canonical).add (⟨1, 0⟩ : Badge)).add ⟨1, 1⟩).add ⟨1, 0⟩)
        ((empty .fast).add ⟨1, 1⟩) = false ∧
      ((((empty .canonical).add 3).add 1).add 3).entries =
        ((((((empty .canonical).add 1).add 3).add 7).add 3).removeEvery 7).2.entries := by
  have hbadges := built_agrees
    (.add (.add (.add (.empty .canonical) (⟨1, 0⟩ : Badge)) ⟨1, 1⟩) ⟨1, 0⟩)
    (.add (.empty .fast) ⟨1, 1⟩) (.add (.empty .fast) ⟨1, 0⟩)
  have hnumbers := built_agrees (.add (.add (.add (.empty .canonical) 3) 1) 3)
    (.removeEvery (.add (.add (.add (.add (.empty .canonical) 1) 3) 7) 3) 7)
    (IdSet.Built.empty .fast)
  exact ⟨hbadges.2.1, hbadges.2.2.1.trans (by decide),
    hnumbers.2.2.2.2.2.2 Function.injective_id rfl rfl (by decide)⟩

end IdBag

end Interleave
