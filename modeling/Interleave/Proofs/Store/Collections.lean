import Mathlib.Algebra.GroupWithZero.Nat
import Mathlib.Data.List.Nodup
import Mathlib.Data.Multiset.Filter
import Mathlib.Data.Multiset.MapFold
import Mathlib.Logic.Relator
import Interleave.Store.IdBag

set_option autoImplicit false

namespace Interleave

variable {α β : Type}

theorem rel_mem_iff {R : α → β → Prop} (hR : Relator.BiUnique R) {m : Multiset α} {n : Multiset β}
    (h : m.Rel R n) {a : α} {b : β} (hab : R a b) : a ∈ m ↔ b ∈ n := by
  constructor
  · intro ha
    obtain ⟨c, hc, hac⟩ := Multiset.exists_mem_of_rel_of_mem h ha
    rwa [hR.2 hab hac]
  · intro hb
    obtain ⟨c, hc, hcb⟩ := Multiset.exists_mem_of_rel_of_mem (Multiset.rel_flip.2 h) hb
    rwa [hR.1 hab hcb]

theorem biUnique_swap {R : α → β → Prop} (hR : Relator.BiUnique R) :
    Relator.BiUnique (Function.swap R) :=
  ⟨fun _ _ _ h h' => hR.2 h h', fun _ _ _ h h' => hR.1 h h'⟩

theorem rel_erase [DecidableEq α] [DecidableEq β] {R : α → β → Prop} (hR : Relator.BiUnique R)
    {m : Multiset α} {n : Multiset β} (h : m.Rel R n) {a : α} {b : β} (hab : R a b) :
    (m.erase a).Rel R (n.erase b) := by
  by_cases ha : a ∈ m
  · rw [← Multiset.cons_erase ha] at h
    obtain ⟨c, n', hac, hrest, rfl⟩ := Multiset.rel_cons_left.1 h
    rw [hR.2 hab hac, Multiset.erase_cons_head]
    exact hrest
  · have hb : b ∉ n := fun hb => ha ((rel_mem_iff hR h hab).2 hb)
    rwa [Multiset.erase_of_notMem ha, Multiset.erase_of_notMem hb]

theorem rel_filter {R : α → β → Prop} {p : α → Prop} {q : β → Prop} [DecidablePred p]
    [DecidablePred q] (hpq : ∀ a b, R a b → (p a ↔ q b)) {m : Multiset α} {n : Multiset β}
    (h : m.Rel R n) : (m.filter p).Rel R (n.filter q) := by
  induction h with
  | zero => exact .zero
  | @cons a b m n hab _ ih =>
    by_cases ha : p a
    · rw [Multiset.filter_cons_of_pos _ ha, Multiset.filter_cons_of_pos _ ((hpq a b hab).1 ha)]
      exact .cons hab ih
    · have hb : ¬ q b := fun hb => ha ((hpq a b hab).2 hb)
      rwa [Multiset.filter_cons_of_neg _ ha, Multiset.filter_cons_of_neg _ hb]

theorem rel_comp {γ : Type} {R : α → β → Prop} {S : β → γ → Prop} {l : Multiset α}
    {m : Multiset β} {n : Multiset γ} (h : l.Rel R m) (h' : m.Rel S n) :
    l.Rel (Relation.Comp R S) n := by
  induction h generalizing n with
  | zero =>
    rw [Multiset.rel_zero_left.1 h']
    exact .zero
  | @cons a b l m hab _ ih =>
    obtain ⟨c, n', hbc, hrest, rfl⟩ := Multiset.rel_cons_left.1 h'
    exact .cons ⟨b, hab, hbc⟩ (ih hrest)

@[simp] theorem insertIdx_length (before after : List α) (a : α) :
    (before ++ after).insertIdx before.length a = before ++ a :: after := by
  induction before with
  | nil => rfl
  | cons x before ih => exact congrArg (x :: ·) ih

@[simp] theorem modify_length (before after : List α) (a : α) (f : α → α) :
    (before ++ a :: after).modify before.length f = before ++ f a :: after := by
  induction before with
  | nil => rfl
  | cons x before ih => exact congrArg (x :: ·) ih

@[simp] theorem eraseIdx_length (before after : List α) (a : α) :
    (before ++ a :: after).eraseIdx before.length = before ++ after := by
  rw [List.eraseIdx_append_of_length_le (Nat.le_refl _), Nat.sub_self]
  rfl

theorem rearranged_perm (mode : Symmetry) (positions : List Nat) (entries : List α) :
    (rearranged mode positions entries).Perm entries := by
  have hself : (List.range entries.length).filterMap (entries[·]?) = entries := by
    induction entries with
    | nil => rfl
    | cons e entries ih =>
      rw [List.length_cons, List.range_succ_eq_map, List.filterMap_cons, List.filterMap_map]
      exact congrArg (e :: ·) ih
  unfold rearranged
  split
  · next h => exact (h.2.filterMap _).trans (.of_eq hself)
  · exact .refl _

namespace IdSet

variable {κ : Type} [DecidableEq κ] [Identity κ] {arrange arrange' : Arrangement κ}

@[simp]
theorem contains_eq (s : IdSet κ) (k : κ) : s.contains k = decide (k ∈ s.members) := by
  by_cases h : k ∈ s.members
  · simp [contains, find_of_mem h, Position.isTaken, h]
  · obtain ⟨i, hi, _⟩ := find_of_notMem h
    simp [contains, hi, Position.isTaken, h]

theorem add_of_mem {s : IdSet κ} {k : κ} (h : k ∈ s.members) : s.add k arrange = (false, s) := by
  unfold add
  split
  · rfl
  · next hfree => cases (find_of_mem h).symm.trans hfree

theorem add_of_notMem {s : IdSet κ} {k : κ} (h : k ∉ s.members) :
    (s.add k arrange).1 = true ∧ (s.add k arrange).2.members.Perm (k :: s.members) := by
  obtain ⟨i, hi, hle, _⟩ := find_of_notMem h
  unfold add
  split
  · next htaken => cases hi.symm.trans htaken
  · next j hj =>
    cases hi.symm.trans hj
    exact ⟨rfl, (rearranged_perm _ _ _).trans (List.perm_insertIdx k s.members hle)⟩

theorem remove_of_mem {s : IdSet κ} {k : κ} (h : k ∈ s.members) : (s.remove k).1 = true := by
  rw [remove, find_of_mem h]

theorem remove_of_notMem {s : IdSet κ} {k : κ} (h : k ∉ s.members) :
    s.remove k = (false, s) := by
  obtain ⟨i, hi, _⟩ := find_of_notMem h
  rw [remove, hi]

theorem remove_members (s : IdSet κ) (k : κ) : (s.remove k).2.members = s.members.erase k := by
  by_cases h : k ∈ s.members
  · rw [remove, find_of_mem h]
    exact (List.erase_eq_eraseIdx_of_idxOf rfl).symm
  · rw [remove_of_notMem h, List.erase_of_not_mem h]

theorem add_nodup {s : IdSet κ} (h : s.members.Nodup) (k : κ) :
    (s.add k arrange).2.members.Nodup := by
  by_cases hk : k ∈ s.members
  · rwa [add_of_mem hk]
  · rw [(add_of_notMem hk).2.nodup_iff]
    exact List.nodup_cons.2 ⟨hk, h⟩

theorem remove_nodup {s : IdSet κ} (h : s.members.Nodup) (k : κ) :
    (s.remove k).2.members.Nodup := by
  rw [remove_members]
  exact h.erase k

variable {R : κ → κ → Prop} (hR : Relator.BiUnique R) {s t : IdSet κ} {k l : κ} (hkl : R k l)

def Matches (R : κ → κ → Prop) (s t : IdSet κ) : Prop :=
  (s.members : Multiset κ).Rel R t.members

omit [DecidableEq κ] in
theorem Matches.size (h : Matches R s t) : s.size = t.size := by
  simpa [IdSet.size] using Multiset.card_eq_card_of_rel h

include hR hkl

omit [DecidableEq κ] in
theorem Matches.mem (h : Matches R s t) : k ∈ s.members ↔ l ∈ t.members := by
  simpa using rel_mem_iff hR h hkl

theorem Matches.contains (h : Matches R s t) : s.contains k = t.contains l := by
  simpa using h.mem hR hkl

theorem Matches.add (h : Matches R s t) :
    Matches R (s.add k arrange).2 (t.add l arrange').2 := by
  by_cases hk : k ∈ s.members
  · rw [add_of_mem hk, add_of_mem ((h.mem hR hkl).1 hk)]
    exact h
  · have hl : l ∉ t.members := fun hl => hk ((h.mem hR hkl).2 hl)
    unfold Matches
    rw [Multiset.coe_eq_coe.2 (add_of_notMem hk).2, Multiset.coe_eq_coe.2 (add_of_notMem hl).2]
    exact .cons hkl h

theorem Matches.remove (h : Matches R s t) : Matches R (s.remove k).2 (t.remove l).2 := by
  unfold Matches
  rw [remove_members, remove_members]
  exact rel_erase hR h hkl

end IdSet

namespace IdBag

variable {κ : Type} [DecidableEq κ] [Identity κ] {arrange arrange' : Arrangement κ}

/-- Every member has one entry, with at least one occurrence, and canonical bags list their entries by
code. -/
structure Tidy (b : IdBag κ) : Prop where
  nodup : b.distinct.Nodup
  positive : ∀ e ∈ b.entries, 0 < e.2
  ordered : b.mode = .canonical → SortedByCode Prod.fst b.entries

omit [DecidableEq κ] in
theorem empty_tidy (mode : Symmetry) : (empty mode : IdBag κ).Tidy :=
  ⟨List.nodup_nil, by simp [empty], fun _ => .nil⟩

variable {b b' : IdBag κ} {k : κ} {n : Nat} {before after : List (κ × Nat)}

section

variable (h : b.Tidy)

include h

theorem find_of_mem (hk : k ∈ b.distinct) :
    ∃ before n after, b.entries = before ++ (k, n) :: after ∧ b.find k = .taken before.length := by
  obtain ⟨⟨k, n⟩, he, rfl⟩ := List.mem_map.1 hk
  obtain ⟨before, after, hentries⟩ := List.append_of_mem he
  have hout : ∀ e ∈ before, e.1 ≠ k := by
    intro e hbefore heq
    have hnodup := h.nodup
    rw [distinct, hentries, List.map_append] at hnodup
    exact (List.nodup_append.1 hnodup).2.2 _ (List.mem_map_of_mem hbefore) _ List.mem_cons_self heq
  have hindex : b.entries.findIdx (·.1 = k) = before.length := by
    rw [hentries, List.findIdx_append, if_neg]
    · simp [List.findIdx_cons]
    · rw [List.findIdx_lt_length]
      rintro ⟨e, he, heq⟩
      exact hout e he (of_decide_eq_true heq)
  refine ⟨before, n, after, hentries, ?_⟩
  rw [← hindex]
  unfold find
  split
  · rw [if_pos hk]
  · next hmode => exact (h.ordered hmode).position_of_mem ⟨(k, n), he, rfl⟩

theorem find_of_notMem (hk : k ∉ b.distinct) :
    ∃ before after, b.entries = before ++ after ∧ b.find k = .free before.length ∧
      (b.mode = .canonical → SortedByCode Prod.fst (before ++ (k, 1) :: after)) := by
  cases hmode : b.mode with
  | fast =>
    refine ⟨b.entries, [], (List.append_nil _).symm, ?_, by simp⟩
    simp [find, hmode, hk]
  | canonical =>
    have hordered := h.ordered hmode
    obtain ⟨i, hi, hsorted, hle⟩ : ∃ i, b.find k = .free i ∧
        SortedByCode Prod.fst (b.entries.insertIdx i (k, 1)) ∧ i ≤ b.entries.length := by
      refine ⟨_, ?_, hordered.insertIdx (k, 1), List.findIdx_le_length⟩
      unfold find
      rw [hmode]
      exact hordered.position_of_notMem fun e he heq => hk (heq ▸ List.mem_map_of_mem he)
    have hlength : (b.entries.take i).length = i := List.length_take_of_le hle
    refine ⟨b.entries.take i, b.entries.drop i, (List.take_append_drop i _).symm, ?_, fun _ => ?_⟩
    · rw [hi, hlength]
    · rwa [← insertIdx_length, hlength, List.take_append_drop]

omit [DecidableEq κ] [Identity κ] h in
theorem countAt_length (hentries : b.entries = before ++ (k, n) :: after) :
    b.countAt before.length = n := by
  simp [countAt, hentries]

theorem count_of_mem (hk : (k, n) ∈ b.entries) : b.count k = n := by
  obtain ⟨before, m, after, hentries, hfind⟩ := find_of_mem h (List.mem_map_of_mem hk)
  have hm : (k, m) ∈ b.entries := by simp [hentries]
  have heq : (k, n) = (k, m) := List.inj_on_of_nodup_map h.nodup hk hm rfl
  rw [count, hfind]
  exact (countAt_length hentries).trans (Prod.ext_iff.1 heq).2.symm

theorem count_of_notMem (hk : k ∉ b.distinct) : b.count k = 0 := by
  obtain ⟨before, after, _, hfind, _⟩ := find_of_notMem h hk
  rw [count, hfind]

theorem contains_iff (k : κ) : b.contains k = true ↔ k ∈ b.distinct := by
  by_cases hk : k ∈ b.distinct
  · obtain ⟨e, he, rfl⟩ := List.mem_map.1 hk
    have hpos := h.positive e he
    have hcount : b.count e.1 = e.2 := count_of_mem h he
    simp [contains, hcount, hpos, hk]
  · simp [contains, count_of_notMem h hk, hk]

def others (b : IdBag κ) (k : κ) : List (κ × Nat) := b.entries.filter fun e => e.1 ≠ k

structure Assigns (b : IdBag κ) (k : κ) (n : Nat) (b' : IdBag κ) : Prop where
  mode : b'.mode = b.mode
  tidy : b'.Tidy
  entries : b'.entries.Perm (if n = 0 then b.others k else (k, n) :: b.others k)

omit [Identity κ] h in
theorem others_of_notMem (hk : k ∉ b.distinct) : b.others k = b.entries := by
  refine List.filter_eq_self.2 fun e he => ?_
  simpa using fun heq : e.1 = k => hk (heq ▸ List.mem_map_of_mem he)

section

variable (hentries : b.entries = before ++ (k, n) :: after)

include hentries

theorem others_of_entry : b.others k = before ++ after := by
  have hnodup := h.nodup
  rw [distinct, hentries, List.map_append, List.map_cons, List.nodup_middle, List.nodup_cons,
    ← List.map_append] at hnodup
  have hrest : (before ++ after).filter (fun e => decide (e.1 ≠ k)) = before ++ after := by
    refine List.filter_eq_self.2 fun e he => ?_
    simpa using fun heq : e.1 = k => hnodup.1 (List.mem_map.2 ⟨e, he, heq⟩)
  rw [List.filter_append] at hrest
  rw [others, hentries, List.filter_append, List.filter_cons, if_neg (by simp), hrest]

omit [DecidableEq κ] hentries in
theorem Tidy.of_distinct (hmode : b'.mode = b.mode) (hkeys : b'.distinct = b.distinct)
    (hpositive : ∀ e ∈ b'.entries, 0 < e.2) : b'.Tidy := by
  refine ⟨hkeys ▸ h.nodup, hpositive, fun hcanonical => ?_⟩
  have hordered : b.distinct.Pairwise fun k l => Identity.code k ≤ Identity.code l :=
    List.pairwise_map.2 (h.ordered (hmode ▸ hcanonical))
  rw [← hkeys, distinct, List.pairwise_map] at hordered
  exact hordered

theorem assigns_replaced {m : Nat} (hm : 0 < m) :
    b.Assigns k m { b with entries := before ++ (k, m) :: after } := by
  refine ⟨rfl, h.of_distinct rfl (by simp [distinct, hentries]) fun e he => ?_, ?_⟩
  · have hpositive := h.positive
    rw [hentries] at hpositive
    rcases List.mem_append.1 he with he | he
    · exact hpositive e (List.mem_append_left _ he)
    · rcases List.mem_cons.1 he with rfl | he
      · exact hm
      · exact hpositive e (List.mem_append_right _ (List.mem_cons_of_mem _ he))
  · rw [if_neg (by omega), others_of_entry h hentries]
    exact List.perm_middle

theorem assigns_erased : b.Assigns k 0 { b with entries := before ++ after } := by
  have hsublist : (before ++ after).Sublist b.entries := by
    rw [hentries]
    exact (List.sublist_cons_self _ _).append_left before
  refine ⟨rfl, ⟨h.nodup.sublist (hsublist.map _), fun e he => h.positive e (hsublist.subset he),
    fun hmode => (h.ordered hmode).sublist hsublist⟩, ?_⟩
  rw [if_pos rfl, others_of_entry h hentries]

end

theorem assigns_inserted (hk : k ∉ b.distinct) {entries : List (κ × Nat)}
    (hperm : entries.Perm ((k, 1) :: b.entries))
    (hordered : b.mode = .canonical → SortedByCode Prod.fst entries) :
    b.Assigns k 1 { b with entries } := by
  refine ⟨rfl, ⟨?_, fun e he => ?_, hordered⟩, ?_⟩
  · have hkeys := hperm.map Prod.fst
    exact hkeys.nodup_iff.2 (List.nodup_cons.2 ⟨hk, h.nodup⟩)
  · rcases List.mem_cons.1 (hperm.mem_iff.1 he) with rfl | he
    · exact Nat.one_pos
    · exact h.positive e he
  · rwa [if_neg Nat.one_ne_zero, others_of_notMem hk]

theorem assigns_self (hk : k ∉ b.distinct) : b.Assigns k 0 b :=
  ⟨rfl, h, by rw [if_pos rfl, others_of_notMem hk]⟩

theorem add_assigns (k : κ) : b.Assigns k (b.count k + 1) (b.add k arrange) := by
  by_cases hk : k ∈ b.distinct
  · obtain ⟨before, n, after, hentries, hfind⟩ := find_of_mem h hk
    rw [count, add, hfind]
    simp only [countAt_length hentries, hentries, modify_length]
    exact assigns_replaced h hentries (Nat.succ_pos n)
  · obtain ⟨before, after, hentries, hfind, hordered⟩ := find_of_notMem h hk
    have hperm : (before ++ (k, 1) :: after).Perm ((k, 1) :: b.entries) := by
      rw [hentries]
      exact List.perm_middle
    rw [count, add, hfind]
    simp only [hentries, insertIdx_length]
    refine assigns_inserted h hk ((rearranged_perm _ _ _).trans hperm) fun hmode => ?_
    rw [hmode, rearranged_canonical]
    exact hordered hmode

theorem removeOne_assigns (k : κ) : b.Assigns k (b.count k - 1) (b.removeOne k).2 := by
  by_cases hk : k ∈ b.distinct
  · obtain ⟨before, n, after, hentries, hfind⟩ := find_of_mem h hk
    have hless : countAt { b with entries := before ++ (k, n - 1) :: after } before.length = n - 1 :=
      countAt_length rfl
    rw [count, removeOne, hfind]
    simp only [countAt_length hentries, hentries, modify_length, hless, eraseIdx_length]
    split
    · next hlast =>
      rw [hlast]
      exact assigns_erased h hentries
    · next hmore => exact assigns_replaced h hentries (Nat.pos_of_ne_zero hmore)
  · obtain ⟨before, after, _, hfind, _⟩ := find_of_notMem h hk
    rw [count, removeOne, hfind]
    exact assigns_self h hk

theorem removeEvery_assigns (k : κ) : b.Assigns k 0 (b.removeEvery k).2 := by
  by_cases hk : k ∈ b.distinct
  · obtain ⟨before, n, after, hentries, hfind⟩ := find_of_mem h hk
    rw [removeEvery, hfind]
    simp only [hentries, eraseIdx_length]
    exact assigns_erased h hentries
  · obtain ⟨before, after, _, hfind, _⟩ := find_of_notMem h hk
    rw [removeEvery, hfind]
    exact assigns_self h hk

end

variable {R : κ → κ → Prop} (hR : Relator.BiUnique R) {c c' : IdBag κ} {l : κ} (hkl : R k l)

structure Matches (R : κ → κ → Prop) (b c : IdBag κ) : Prop where
  left : b.Tidy
  right : c.Tidy
  entries : (b.entries : Multiset (κ × Nat)).Rel (fun e f : κ × Nat => R e.1 f.1 ∧ e.2 = f.2)
    c.entries

omit [DecidableEq κ] [Identity κ] in
theorem size_eq_sum (b : IdBag κ) : b.size = (b.entries.map (·.2)).sum := by
  rw [List.sum_eq_foldr, List.foldr_map]
  rfl

omit [DecidableEq κ] in
theorem Matches.size (h : Matches R b c) : b.size = c.size := by
  have hmap : ((b.entries : Multiset (κ × Nat)).map (·.2)).Rel (· = ·)
      ((c.entries : Multiset (κ × Nat)).map (·.2)) :=
    Multiset.rel_map.2 (h.entries.mono fun _ _ _ _ hef => hef.2)
  rw [size_eq_sum, size_eq_sum]
  exact (Multiset.coe_eq_coe.1 (Multiset.rel_eq.1 hmap)).sum_nat

include hR hkl

omit [DecidableEq κ] in
theorem Matches.mem_distinct (h : Matches R b c) (hk : k ∈ b.distinct) : l ∈ c.distinct := by
  obtain ⟨e, he, rfl⟩ := List.mem_map.1 hk
  obtain ⟨f, hf, hef, _⟩ := Multiset.exists_mem_of_rel_of_mem h.entries (Multiset.mem_coe.2 he)
  rw [hR.2 hkl hef]
  exact List.mem_map.2 ⟨f, Multiset.mem_coe.1 hf, rfl⟩

omit hR hkl in
omit [DecidableEq κ] in
theorem Matches.flip (h : Matches R b c) : Matches (Function.swap R) c b :=
  ⟨h.right, h.left, (Multiset.rel_flip.2 h.entries).mono fun _ _ _ _ hef => ⟨hef.1, hef.2.symm⟩⟩

variable (h : Matches R b c)

include h

theorem Matches.count : b.count k = c.count l := by
  by_cases hk : k ∈ b.distinct
  · obtain ⟨e, he, rfl⟩ := List.mem_map.1 hk
    obtain ⟨f, hf, hef, hn⟩ := Multiset.exists_mem_of_rel_of_mem h.entries (Multiset.mem_coe.2 he)
    have hl : f.1 = l := (hR.2 hkl hef).symm
    have hb : b.count e.1 = e.2 := count_of_mem h.left he
    have hc : c.count f.1 = f.2 := count_of_mem h.right (Multiset.mem_coe.1 hf)
    rw [hb, hn, ← hc, hl]
  · have hl : l ∉ c.distinct := fun hl =>
      hk (h.flip.mem_distinct (biUnique_swap hR) hkl hl)
    rw [count_of_notMem h.left hk, count_of_notMem h.right hl]

theorem Matches.contains : b.contains k = c.contains l := by
  rw [IdBag.contains, IdBag.contains, h.count hR hkl]

theorem Matches.assigns (hb : b.Assigns k n b') (hc : c.Assigns l n c') : Matches R b' c' := by
  refine ⟨hb.tidy, hc.tidy, ?_⟩
  have hpq : ∀ e f : κ × Nat, R e.1 f.1 ∧ e.2 = f.2 → (e.1 ≠ k ↔ f.1 ≠ l) := fun e f hef =>
    not_congr ⟨fun he => hR.2 (he ▸ hef.1) hkl, fun hf => hR.1 (hf ▸ hef.1) hkl⟩
  have hothers : (b.others k : Multiset (κ × Nat)).Rel
      (fun e f : κ × Nat => R e.1 f.1 ∧ e.2 = f.2) (c.others l) := by
    simpa [others] using rel_filter hpq h.entries
  rw [Multiset.coe_eq_coe.2 hb.entries, Multiset.coe_eq_coe.2 hc.entries]
  split
  · exact hothers
  · exact .cons ⟨hkl, rfl⟩ hothers

theorem Matches.add : Matches R (b.add k arrange) (c.add l arrange') := by
  have hb : b.Assigns k (b.count k + 1) (b.add k arrange) := add_assigns h.left k
  rw [h.count hR hkl] at hb
  exact h.assigns hR hkl hb (add_assigns h.right l)

theorem Matches.removeOne : Matches R (b.removeOne k).2 (c.removeOne l).2 := by
  have hb := removeOne_assigns h.left k
  rw [h.count hR hkl] at hb
  exact h.assigns hR hkl hb (removeOne_assigns h.right l)

end IdBag

end Interleave
