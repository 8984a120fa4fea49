import Interleave.Fingerprint.Table

set_option autoImplicit false

namespace Interleave

theorem addKey_eq {κ : Type} [Ord κ] [Std.TransOrd κ] [Std.LawfulEqOrd κ] [DecidableEq κ]
    {ids ids' : Std.TreeMap κ StateId} {key : κ} {id : StateId} {isNew : Bool}
    (h : addKey ids key = (id, isNew, ids')) :
    (isNew = false ∧ ids' = ids ∧ ids[key]? = some id) ∨
      (isNew = true ∧ id = ids.size ∧ ids[key]? = none ∧ ids'.size = ids.size + 1 ∧
        ∀ k, ids'[k]? = if k = key then some ids.size else ids[k]?) := by
  cases hlook : ids[key]? with
  | some old =>
    simp only [addKey, hlook, Prod.mk.injEq] at h
    obtain ⟨rfl, rfl, rfl⟩ := h
    exact .inl ⟨rfl, rfl, rfl⟩
  | none =>
    simp only [addKey, hlook, Prod.mk.injEq] at h
    obtain ⟨rfl, rfl, rfl⟩ := h
    refine .inr ⟨rfl, rfl, rfl, ?_, fun k => ?_⟩
    · have hfresh : ¬ ids.contains key = true := by
        rw [Std.TreeMap.contains_eq_isSome_getElem?, hlook]
        simp
      rw [Std.TreeMap.size_insert, if_neg hfresh]
    · rw [Std.TreeMap.getElem?_insert]
      simp only [Std.LawfulEqCmp.compare_eq_iff_eq, @eq_comm κ key]

namespace StateTable

def number? (table : StateTable) (f : Fingerprint) : Option StateId :=
  match table with
  | exact ids => ids[f.words]?
  | compact short ids => ids[short f]?

variable {table table' : StateTable} {f : Fingerprint} {id : StateId} {isNew : Bool}
  {short : Fingerprint → Nat}

inductive Adds (table : StateTable) (f : Fingerprint) : StateId → Bool → StateTable → Prop where
  | met {id : StateId} (h : table.number? f = some id) : Adds table f id false table
  | fresh {table' : StateTable} (h : table.number? f = none)
      (hsize : table'.size = table.size + 1) (hnumber : table'.number? f = some table.size)
      (hkept : ∀ g i, table.number? g = some i → table'.number? g = some i)
      (honly : ∀ g i, table'.number? g = some i → table.number? g = some i ∨ i = table.size) :
      Adds table f table.size true table'

theorem adds_of_addKey {κ : Type} [Ord κ] [Std.TransOrd κ] [Std.LawfulEqOrd κ] [DecidableEq κ]
    {ids ids' : Std.TreeMap κ StateId} {key : Fingerprint → κ}
    (wrap : Std.TreeMap κ StateId → StateTable)
    (hnumber : ∀ ids g, (wrap ids).number? g = ids[key g]?) (hsize : ∀ ids, (wrap ids).size = ids.size)
    (h : addKey ids (key f) = (id, isNew, ids')) : (wrap ids).Adds f id isNew (wrap ids') := by
  rcases addKey_eq h with ⟨rfl, rfl, hid⟩ | ⟨rfl, rfl, hnone, hmore, hinsert⟩
  · exact .met ((hnumber _ f).trans hid)
  · rw [← hsize ids]
    refine .fresh ((hnumber _ f).trans hnone) ?_ ?_ ?_ ?_
    · rw [hsize, hsize, hmore]
    · rw [hnumber, hinsert, if_pos rfl, hsize]
    · intro g i hg
      rw [hnumber] at hg ⊢
      have hne : key g ≠ key f := by
        intro heq
        rw [heq] at hg
        cases hnone.symm.trans hg
      rw [hinsert, if_neg hne, hg]
    · intro g i hg
      rw [hnumber, hinsert] at hg
      rw [hnumber, hsize]
      split at hg
      · exact .inr (Option.some.inj hg).symm
      · exact .inl hg

theorem adds (h : table.add f = (id, isNew, table')) : table.Adds f id isNew table' := by
  cases table with
  | exact ids =>
    rcases hadd : addKey ids f.words with ⟨i, b, ids'⟩
    simp only [StateTable.add, hadd, Prod.mk.injEq] at h
    obtain ⟨rfl, rfl, rfl⟩ := h
    exact adds_of_addKey exact (fun _ _ => rfl) (fun _ => rfl) hadd
  | compact short ids =>
    rcases hadd : addKey ids (short f) with ⟨i, b, ids'⟩
    simp only [StateTable.add, hadd, Prod.mk.injEq] at h
    obtain ⟨rfl, rfl, rfl⟩ := h
    exact adds_of_addKey (compact short) (fun _ _ => rfl) (fun _ => rfl) hadd

theorem add_of_number? (h : table.number? f = some id) : table.add f = (id, false, table) := by
  rcases hadd : table.add f with ⟨i, b, table'⟩
  cases adds hadd with
  | met hi => rw [Option.some.inj (hi.symm.trans h)]
  | fresh hnone => cases hnone.symm.trans h

theorem number?_add_self (table : StateTable) (f : Fingerprint) :
    (table.add f).2.2.number? f = some (table.add f).1 := by
  rcases hadd : table.add f with ⟨i, b, table'⟩
  cases adds hadd with
  | met hid => exact hid
  | fresh _ _ hnumber => exact hnumber

theorem number?_add_of_number? (f : Fingerprint) {g : Fingerprint} (h : table.number? g = some id) :
    (table.add f).2.2.number? g = some id := by
  rcases hadd : table.add f with ⟨i, b, table'⟩
  cases adds hadd with
  | met => exact h
  | fresh _ _ _ hkept => exact hkept g id h

theorem size_add (h : table.add f = (id, isNew, table')) :
    table'.size = table.size + if isNew then 1 else 0 := by
  cases adds h with
  | met => rfl
  | fresh _ hsize => exact hsize

theorem number?_empty (kind : TableKind) (f : Fingerprint) : (empty kind short).number? f = none := by
  cases kind with
  | exact | compact => exact Std.TreeMap.getElem?_emptyc

theorem size_empty (kind : TableKind) : (empty kind short).size = 0 := by
  cases kind with
  | exact => rfl
  | compact => rfl

structure Distinct (table : StateTable) : Prop where
  isExact : ∃ ids, table = exact ids
  bound : ∀ f id, table.number? f = some id → id < table.size
  injective : ∀ f g id, table.number? f = some id → table.number? g = some id → f = g

theorem distinct_empty : (empty .exact short).Distinct := by
  refine ⟨⟨∅, rfl⟩, fun f id hf => ?_, fun f g id hf => ?_⟩
  all_goals
    rw [number?_empty] at hf
    cases hf

structure Extends (table : StateTable) (f : Fingerprint) (id : StateId) (isNew : Bool)
    (table' : StateTable) : Prop where
  number : table'.number? f = some id
  kept : ∀ g i, table.number? g = some i → table'.number? g = some i
  only : ∀ g i, table'.number? g = some i → table.number? g = some i ∨ g = f
  old : isNew = false → table.number? f = some id
  fresh : isNew = true → table.number? f = none

theorem Distinct.add (h : table.Distinct) (hadd : table.add f = (id, isNew, table')) :
    table'.Distinct ∧ table.Extends f id isNew table' := by
  have hadds := adds hadd
  obtain ⟨ids, rfl⟩ := h.isExact
  rcases hkey : addKey ids f.words with ⟨i, b, ids'⟩
  simp only [StateTable.add, hkey, Prod.mk.injEq] at hadd
  obtain ⟨rfl, rfl, rfl⟩ := hadd
  rcases addKey_eq hkey with ⟨rfl, rfl, hid⟩ | ⟨rfl, rfl, hnone, hsize, hinsert⟩
  · exact ⟨h, hid, fun g i hg => hg, fun g i hg => .inl hg, fun _ => hid, nofun⟩
  · have hcases : ∀ g i, (exact ids').number? g = some i →
        (g = f ∧ i = ids.size) ∨ (g ≠ f ∧ (exact ids).number? g = some i) := by
      intro g i hg
      change ids'[g.words]? = some i at hg
      rw [hinsert] at hg
      split at hg
      · next heq => exact .inl ⟨congrArg Fingerprint.mk heq, (Option.some.inj hg).symm⟩
      · next hne => exact .inr ⟨fun heq => hne (congrArg Fingerprint.words heq), hg⟩
    cases hadds with
    | fresh _ _ hnumber hkept =>
      refine ⟨⟨⟨_, rfl⟩, ?_, ?_⟩, hnumber, hkept, ?_, nofun, fun _ => hnone⟩
      · intro g i hg
        refine Nat.lt_of_lt_of_eq ?_ hsize.symm
        rcases hcases g i hg with ⟨_, rfl⟩ | ⟨_, hbefore⟩
        · exact Nat.lt_succ_self _
        · exact Nat.lt_succ_of_lt (h.bound g i hbefore)
      · intro g k i hg hk
        rcases hcases g i hg with ⟨rfl, rfl⟩ | ⟨_, hbefore⟩
        · rcases hcases k _ hk with ⟨rfl, _⟩ | ⟨_, hbefore⟩
          · rfl
          · exact absurd (h.bound k _ hbefore) (Nat.lt_irrefl _)
        · rcases hcases k i hk with ⟨rfl, rfl⟩ | ⟨_, hbefore'⟩
          · exact absurd (h.bound g _ hbefore) (Nat.lt_irrefl _)
          · exact h.injective g k i hbefore hbefore'
      · intro g i hg
        rcases hcases g i hg with ⟨hgf, _⟩ | ⟨_, hbefore⟩
        · exact .inr hgf
        · exact .inl hbefore

end StateTable

end Interleave
