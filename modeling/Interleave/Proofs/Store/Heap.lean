import Mathlib.Data.List.Nodup
import Interleave.Store.Heap

set_option autoImplicit false

namespace Interleave.Heap

variable {heap : Heap} {h k : Handle} {found roots targets : List Handle} {o q : Object}

theorem lt_of_get? (ho : heap.get? h = some o) : h < heap.cells.length := by
  rcases Nat.lt_or_ge h heap.cells.length with hlt | hge
  · exact hlt
  · unfold get? at ho
    rw [List.getElem?_eq_none hge] at ho
    cases ho

@[simp] theorem put_length (heap : Heap) (h : Handle) (o : Object) :
    (heap.put h o).cells.length = heap.cells.length := by
  simp [put]

theorem get?_put_self (hlt : h < heap.cells.length) (o : Object) :
    (heap.put h o).get? h = some o := by
  simp [put, get?, hlt]

theorem get?_put_of_ne (hne : k ≠ h) (o : Object) : (heap.put h o).get? k = heap.get? k := by
  simp [put, get?, Ne.symm hne]

@[simp] theorem allocate_length (heap : Heap) (o : Object) :
    (heap.allocate o).2.cells.length = heap.cells.length + 1 := by
  simp [allocate]

@[simp] theorem get?_allocate_self (heap : Heap) (o : Object) :
    (heap.allocate o).2.get? heap.cells.length = some o := by
  simp [allocate, get?]

theorem get?_allocate_of_get? (hq : heap.get? h = some q) (o : Object) :
    (heap.allocate o).2.get? h = some q := by
  have hlt := lt_of_get? hq
  unfold get? at hq ⊢
  rw [allocate, List.getElem?_append_left hlt]
  exact hq

theorem get?_of_allocate (hq : (heap.allocate o).2.get? h = some q) :
    heap.get? h = some q ∨ (h = heap.cells.length ∧ q = o) := by
  have hlt := lt_of_get? hq
  rw [allocate_length] at hlt
  rcases Nat.lt_succ_iff_lt_or_eq.1 hlt with hlt | rfl
  · left
    unfold get? at hq ⊢
    rwa [allocate, List.getElem?_append_left hlt] at hq
  · right
    rw [get?_allocate_self] at hq
    exact ⟨rfl, (Option.some.inj hq).symm⟩

theorem get?_allocate (heap : Heap) (o : Object) (h : Handle) :
    (heap.allocate o).2.get? h = if h = heap.cells.length then some o else heap.get? h := by
  split
  · next heq => rw [heq, get?_allocate_self]
  · next hne =>
    unfold get?
    rcases Nat.lt_or_ge h heap.cells.length with hlt | hge
    · rw [allocate, List.getElem?_append_left hlt]
    · have hgt : heap.cells.length < h := Nat.lt_of_le_of_ne hge (Ne.symm hne)
      rw [List.getElem?_eq_none hge, List.getElem?_eq_none (by rw [allocate_length]; exact hgt)]

def AgreesOn (K : Handle → Prop) (a b : Heap) : Prop := ∀ h, K h → a.get? h = b.get? h

theorem AgreesOn.allocate {K : Handle → Prop} {a b : Heap} (h : a.AgreesOn K b)
    (hsize : a.cells.length = b.cells.length) (o : Object) :
    (a.allocate o).2.AgreesOn K (b.allocate o).2 := by
  intro k hk
  rw [get?_allocate, get?_allocate, h k hk, hsize]

theorem isLive_iff : heap.isLive h = true ↔ ∃ o, heap.get? h = some o := by
  unfold isLive
  exact Option.isSome_iff_exists

theorem discover_cons (heap : Heap) (found : List Handle) (h : Handle) (targets : List Handle) :
    heap.discover found (h :: targets) =
      heap.discover (if h ∈ found || !heap.isLive h then found else found ++ [h]) targets := rfl

theorem isPrefix_discover (heap : Heap) (found targets : List Handle) :
    found <+: heap.discover found targets := by
  induction targets generalizing found with
  | nil => exact List.prefix_rfl
  | cons h targets ih =>
    rw [discover_cons]
    split
    · exact ih found
    · exact (List.prefix_append found [h]).trans (ih _)

theorem mem_discover_of_live (hk : k ∈ targets) (hlive : heap.isLive k = true) :
    k ∈ heap.discover found targets := by
  induction targets generalizing found with
  | nil => cases hk
  | cons h targets ih =>
    rw [discover_cons]
    rcases List.mem_cons.1 hk with rfl | hk
    · refine (isPrefix_discover heap _ targets).subset ?_
      by_cases hmem : k ∈ found
      · simp [hmem]
      · simp [hmem, hlive]
    · exact ih hk

theorem discover_nodup (hf : found.Nodup) (targets : List Handle) :
    (heap.discover found targets).Nodup := by
  induction targets generalizing found with
  | nil => exact hf
  | cons h targets ih =>
    rw [discover_cons]
    split
    · exact ih hf
    · rename_i hcond
      have hmem : h ∉ found := fun hmem => hcond (by simp [hmem])
      refine ih ((List.perm_append_singleton h found).nodup_iff.2 ?_)
      exact List.nodup_cons.2 ⟨hmem, hf⟩

theorem live_of_mem_discover (hf : ∀ h ∈ found, heap.isLive h = true)
    (hk : k ∈ heap.discover found targets) : heap.isLive k = true := by
  induction targets generalizing found with
  | nil => exact hf k hk
  | cons h targets ih =>
    rw [discover_cons] at hk
    refine ih (fun x hx => ?_) hk
    split at hx
    · exact hf x hx
    · rename_i hcond
      rcases List.mem_append.1 hx with hx | hx
      · exact hf x hx
      · obtain rfl := List.mem_singleton.1 hx
        by_contra hdead
        exact hcond (by simp [hdead])

theorem length_le_of_live (hn : found.Nodup) (hf : ∀ h ∈ found, heap.isLive h = true) :
    found.length ≤ heap.cells.length := by
  have hsub : found ⊆ List.range heap.cells.length := by
    intro h hh
    obtain ⟨o, ho⟩ := isLive_iff.1 (hf h hh)
    exact List.mem_range.2 (lt_of_get? ho)
  have hle := hn.length_le_of_subset hsub
  rwa [List.length_range] at hle

theorem getElem?_of_isPrefix {α : Type} {l m : List α} (h : l <+: m) {i : Nat}
    (hi : i < l.length) : m[i]? = l[i]? := by
  obtain ⟨r, rfl⟩ := h
  exact List.getElem?_append_left hi

def ClosedUpTo (heap : Heap) (done : Nat) (found : List Handle) : Prop :=
  ∀ i, i < done → ∀ h, found[i]? = some h → ∀ k ∈ heap.outgoing h, heap.isLive k = true → k ∈ found

theorem follow_spec {fuel done : Nat} (hn : found.Nodup) (hf : ∀ h ∈ found, heap.isLive h = true)
    (hfuel : heap.cells.length ≤ done + fuel) (hclosed : heap.ClosedUpTo done found) :
    found <+: heap.follow fuel done found ∧
      ∀ h ∈ heap.follow fuel done found, ∀ k ∈ heap.outgoing h, heap.isLive k = true →
        k ∈ heap.follow fuel done found := by
  induction fuel generalizing done found with
  | zero =>
    refine ⟨List.prefix_rfl, fun h hh => ?_⟩
    obtain ⟨i, hi⟩ := List.getElem?_of_mem hh
    have hlt : i < found.length := (List.getElem?_eq_some_iff.1 hi).1
    have hle := length_le_of_live hn hf
    exact hclosed i (by omega) h hi
  | succ fuel ih =>
    cases hd : found[done]? with
    | none =>
      simp only [follow, hd]
      refine ⟨List.prefix_rfl, fun h hh => ?_⟩
      obtain ⟨i, hi⟩ := List.getElem?_of_mem hh
      have hlt : i < found.length := (List.getElem?_eq_some_iff.1 hi).1
      have hle : found.length ≤ done := List.getElem?_eq_none_iff.1 hd
      exact hclosed i (by omega) h hi
    | some x =>
      simp only [follow, hd]
      have hpre := isPrefix_discover heap found (heap.outgoing x)
      have hclosed' : heap.ClosedUpTo (done + 1) (heap.discover found (heap.outgoing x)) := by
        intro i hi h hh k hk hlive
        have hbound : done < found.length := (List.getElem?_eq_some_iff.1 hd).1
        have hold : found[i]? = some h := by
          rw [← getElem?_of_isPrefix hpre (by omega)]
          exact hh
        rcases Nat.lt_succ_iff_lt_or_eq.1 hi with hi | rfl
        · exact hpre.subset (hclosed i hi h hold k hk hlive)
        · obtain rfl : x = h := Option.some.inj (hd.symm.trans hold)
          exact mem_discover_of_live hk hlive
      have hstep := ih (discover_nodup hn (heap.outgoing x))
        (fun _ hk => live_of_mem_discover hf hk) (by omega) hclosed'
      exact ⟨hpre.trans hstep.1, hstep.2⟩

theorem reachable_spec (heap : Heap) (roots : List Handle) :
    heap.discover [] roots <+: heap.reachable roots ∧
      ∀ h ∈ heap.reachable roots, ∀ k ∈ heap.outgoing h, heap.isLive k = true →
        k ∈ heap.reachable roots := by
  have hn : (heap.discover [] roots).Nodup := discover_nodup List.nodup_nil roots
  have hf : ∀ k ∈ heap.discover [] roots, heap.isLive k = true :=
    fun _ hk => live_of_mem_discover (by simp) hk
  refine follow_spec hn hf (by omega) ?_
  intro i hi
  omega

theorem mem_reachable_of_root (hh : h ∈ roots) (hlive : heap.isLive h = true) :
    h ∈ heap.reachable roots :=
  (reachable_spec heap roots).1.subset (mem_discover_of_live hh hlive)

theorem mem_reachable_of_outgoing (hh : h ∈ heap.reachable roots) (hk : k ∈ heap.outgoing h)
    (hlive : heap.isLive k = true) : k ∈ heap.reachable roots :=
  (reachable_spec heap roots).2 h hh k hk hlive

theorem retain_length (heap : Heap) (roots : List Handle) :
    (heap.retain roots).2.cells.length = heap.cells.length := by
  simp [retain]

theorem get?_retain_of_mem (hh : h ∈ heap.reachable roots) :
    (heap.retain roots).2.get? h = heap.get? h := by
  simp only [retain, get?, List.getElem?_mapIdx]
  cases heap.cells[h]? with
  | none => rfl
  | some cell => simp [hh]

theorem get?_of_retain (ho : (heap.retain roots).2.get? h = some o) : heap.get? h = some o := by
  simp only [retain, get?, List.getElem?_mapIdx] at ho ⊢
  cases hc : heap.cells[h]? with
  | none => simp [hc] at ho
  | some cell =>
    by_cases hh : h ∈ heap.reachable roots
    · simpa [hc, hh] using ho
    · simp [hc, hh] at ho

end Interleave.Heap
