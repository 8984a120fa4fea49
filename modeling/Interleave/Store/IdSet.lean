import Interleave.Store.Identity

set_option autoImplicit false

/-! Every operation that may change a set tells whether it did. A canonical set is searched by code,
which its order allows. A fast set is a hash table, and a member that joins it may change the order
of all others. -/

namespace Interleave

/-- Where a hash table lists its entries when a new one joins those it had: their positions in the
listing that has the new one last. -/
abbrev Arrangement (κ : Type) := List κ → κ → List Nat

/-- The entries of a hash table in the order that the positions give. Positions that do not name each
entry once change nothing, and neither do any where entries are sorted. -/
def rearranged {α : Type} (mode : Symmetry) (positions : List Nat) (entries : List α) : List α :=
  if mode = .fast ∧ positions.Perm (List.range entries.length) then
    positions.filterMap (entries[·]?)
  else entries

theorem rearranged_canonical {α : Type} (positions : List Nat) (entries : List α) :
    rearranged .canonical positions entries = entries := if_neg (by simp)

@[ext]
structure IdSet (κ : Type) [Identity κ] where
  mode : Symmetry
  members : List κ
  /-- Canonical sets list their members by code. -/
  ordered : mode = .canonical → SortedByCode id members

namespace IdSet

variable {κ : Type} [DecidableEq κ] [Identity κ]

def empty (mode : Symmetry) : IdSet κ := ⟨mode, [], fun _ => .nil⟩

def size (s : IdSet κ) : Nat := s.members.length

def find (s : IdSet κ) (k : κ) : Position :=
  match s.mode with
  | .fast =>
    if k ∈ s.members then .taken (s.members.findIdx (· = k)) else .free s.members.length
  | .canonical => position id k s.members

theorem find_of_mem {s : IdSet κ} {k : κ} (h : k ∈ s.members) :
    s.find k = .taken (s.members.findIdx (· = k)) := by
  unfold find
  split
  · rw [if_pos h]
  · next hmode => exact (s.ordered hmode).position_of_mem ⟨k, h, rfl⟩

theorem find_of_notMem {s : IdSet κ} {k : κ} (h : k ∉ s.members) :
    ∃ i, s.find k = .free i ∧ i ≤ s.members.length ∧
      (s.mode = .canonical → SortedByCode id (s.members.insertIdx i k)) := by
  cases hmode : s.mode with
  | fast =>
    refine ⟨s.members.length, ?_, Nat.le_refl _, by simp⟩
    simp [find, hmode, h]
  | canonical =>
    have hordered := s.ordered hmode
    refine ⟨_, ?_, List.findIdx_le_length, fun _ => hordered.insertIdx k⟩
    unfold find
    rw [hmode]
    exact hordered.position_of_notMem fun e he heq => h (heq ▸ he)

theorem ordered_insertIdx {s : IdSet κ} {k : κ} {i : Nat} (h : s.find k = .free i)
    (positions : List Nat) (hmode : s.mode = .canonical) :
    SortedByCode id (rearranged s.mode positions (s.members.insertIdx i k)) := by
  rw [hmode, rearranged_canonical]
  by_cases hk : k ∈ s.members
  · cases (find_of_mem hk).symm.trans h
  · obtain ⟨j, hj, _, hordered⟩ := find_of_notMem hk
    cases hj.symm.trans h
    exact hordered hmode

def contains (s : IdSet κ) (k : κ) : Bool := (s.find k).isTaken

def add (s : IdSet κ) (k : κ) (arrange : Arrangement κ := fun _ _ => []) : Bool × IdSet κ :=
  match h : s.find k with
  | .taken _ => (false, s)
  | .free i => (true, ⟨s.mode, rearranged s.mode (arrange s.members k) (s.members.insertIdx i k),
      ordered_insertIdx h _⟩)

def remove (s : IdSet κ) (k : κ) : Bool × IdSet κ :=
  match s.find k with
  | .taken i => (true, ⟨s.mode, s.members.eraseIdx i,
      fun hmode => (s.ordered hmode).sublist (List.eraseIdx_sublist _ _)⟩)
  | .free _ => (false, s)

def containsAll (s t : IdSet κ) : Bool := t.members.all s.contains

def retainAll (s t : IdSet κ) : Bool × IdSet κ :=
  let doomed := s.members.filter fun k => !t.contains k
  (!doomed.isEmpty, doomed.foldl (fun s k => (s.remove k).2) s)

def removeAll (s t : IdSet κ) : Bool × IdSet κ :=
  t.members.foldl (fun (changed, s) k =>
    let (removed, s) := s.remove k
    (changed || removed, s)) (false, s)

def same (s t : IdSet κ) : Bool := s.size == t.size && s.containsAll t

end IdSet

end Interleave
