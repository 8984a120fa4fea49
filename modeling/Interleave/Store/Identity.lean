set_option autoImplicit false

namespace Interleave

/-- How the collections of a search list their members: as a hash table does, or sorted by an identity
code. Members are known by identity, never by content. -/
inductive Symmetry where
  | fast
  | canonical
deriving DecidableEq

/-- Keys with an identity code. Two keys may share a code. -/
class Identity (κ : Type) where
  code : κ → Nat

instance : Identity Nat := ⟨id⟩

/-- Where a key stands in a listing, or where it belongs if it does not stand there. -/
inductive Position where
  | taken (index : Nat)
  | free (index : Nat)
deriving DecidableEq

def Position.isTaken : Position → Bool
  | taken _ => true
  | free _ => false

section SortedByCode

variable {α κ : Type} [Identity κ]

def SortedByCode (key : α → κ) (entries : List α) : Prop :=
  entries.Pairwise fun a b => Identity.code (key a) ≤ Identity.code (key b)

instance (key : α → κ) (entries : List α) : Decidable (SortedByCode key entries) :=
  inferInstanceAs (Decidable (entries.Pairwise _))

variable {key : α → κ} {entries : List α}

theorem SortedByCode.split (h : SortedByCode key entries) (k : κ) :
    ∃ smaller rest, entries = smaller ++ rest ∧
      smaller.length = entries.findIdx (fun e => Identity.code k ≤ Identity.code (key e)) ∧
      (∀ e ∈ smaller, Identity.code (key e) < Identity.code k) ∧
      ∀ e ∈ rest, Identity.code k ≤ Identity.code (key e) := by
  induction entries with
  | nil => exact ⟨[], [], rfl, rfl, by simp, by simp⟩
  | cons e rest ih =>
    obtain ⟨hfirst, hrest⟩ := List.pairwise_cons.1 h
    by_cases hcode : Identity.code k ≤ Identity.code (key e)
    · refine ⟨[], e :: rest, rfl, by simp [List.findIdx_cons, hcode], by simp, fun x hx => ?_⟩
      rcases List.mem_cons.1 hx with rfl | hx
      · exact hcode
      · exact Nat.le_trans hcode (hfirst x hx)
    · obtain ⟨smaller, larger, rfl, hlength, hsmaller, hlarger⟩ := ih hrest
      refine ⟨e :: smaller, larger, rfl, by simp [List.findIdx_cons, hcode, hlength],
        fun x hx => ?_, hlarger⟩
      rcases List.mem_cons.1 hx with rfl | hx
      · exact Nat.lt_of_not_le hcode
      · exact hsmaller x hx

theorem SortedByCode.insertIdx (h : SortedByCode key entries) (entry : α) :
    SortedByCode key (entries.insertIdx
      (entries.findIdx fun e => Identity.code (key entry) < Identity.code (key e)) entry) := by
  induction entries with
  | nil => exact List.pairwise_singleton _ _
  | cons e rest ih =>
    obtain ⟨hfirst, hrest⟩ := List.pairwise_cons.1 h
    by_cases hcode : Identity.code (key entry) < Identity.code (key e)
    · simp only [List.findIdx_cons, hcode, decide_true, cond_true, List.insertIdx_zero]
      refine List.pairwise_cons.2 ⟨fun x hx => ?_, h⟩
      rcases List.mem_cons.1 hx with rfl | hx
      · exact Nat.le_of_lt hcode
      · exact Nat.le_trans (Nat.le_of_lt hcode) (hfirst x hx)
    · simp only [List.findIdx_cons, hcode, decide_false, cond_false, List.insertIdx_succ_cons]
      refine List.pairwise_cons.2 ⟨fun x hx => ?_, ih hrest⟩
      rcases (List.mem_insertIdx List.findIdx_le_length).1 hx with rfl | hx
      · exact Nat.le_of_not_lt hcode
      · exact hfirst x hx

end SortedByCode

section Search

variable {α κ : Type} [DecidableEq κ] [Identity κ]

def scan (key : α → κ) (k : κ) (index : Nat) : List α → Position
  | [] => .free index
  | entry :: rest =>
    if Identity.code (key entry) = Identity.code k then
      if key entry = k then .taken index else scan key k (index + 1) rest
    else .free index

/-- Looks for a key among ordered entries: those with smaller codes are passed over, those with its
code are gone through. -/
def position (key : α → κ) (k : κ) (entries : List α) : Position :=
  let start := entries.findIdx fun entry => Identity.code k ≤ Identity.code (key entry)
  scan key k start (entries.drop start)

variable {key : α → κ} {k : κ} {entries : List α}

theorem scan_of_mem (index : Nat) (hcode : ∀ e ∈ entries, Identity.code k ≤ Identity.code (key e))
    (h : SortedByCode key entries) (hk : ∃ e ∈ entries, key e = k) :
    scan key k index entries = .taken (entries.findIdx (key · = k) + index) := by
  induction entries generalizing index with
  | nil =>
    obtain ⟨e, he, _⟩ := hk
    cases he
  | cons e rest ih =>
    obtain ⟨hfirst, hrest⟩ := List.pairwise_cons.1 h
    by_cases hkey : key e = k
    · simp [scan, hkey, List.findIdx_cons]
    · obtain ⟨x, hx, rfl⟩ : ∃ x ∈ rest, key x = k := by simpa [hkey] using hk
      -- the code of the first entry lies between two equal ones
      have hsame := Nat.le_antisymm (hfirst x hx) (hcode e List.mem_cons_self)
      rw [scan, if_pos hsame, if_neg hkey,
        ih (index + 1) (fun y hy => hcode y (List.mem_cons_of_mem _ hy)) hrest ⟨x, hx, rfl⟩]
      simp [List.findIdx_cons, hkey, Nat.add_assoc, Nat.add_comm 1]

theorem scan_of_notMem (index : Nat)
    (hcode : ∀ e ∈ entries, Identity.code k ≤ Identity.code (key e))
    (hk : ∀ e ∈ entries, key e ≠ k) : scan key k index entries =
      .free ((entries.findIdx fun e => Identity.code k < Identity.code (key e)) + index) := by
  induction entries generalizing index with
  | nil => simp [scan]
  | cons e rest ih =>
    have hkey := hk e List.mem_cons_self
    by_cases hsame : Identity.code (key e) = Identity.code k
    · rw [scan, if_pos hsame, if_neg hkey, ih (index + 1)
        (fun y hy => hcode y (List.mem_cons_of_mem _ hy))
        fun y hy => hk y (List.mem_cons_of_mem _ hy)]
      simp [List.findIdx_cons, hsame, Nat.add_assoc, Nat.add_comm 1]
    · have hlarger := Nat.lt_of_le_of_ne (hcode e List.mem_cons_self) (Ne.symm hsame)
      simp [scan, hsame, List.findIdx_cons, hlarger]

theorem SortedByCode.position_of_mem (h : SortedByCode key entries) (hk : ∃ e ∈ entries, key e = k) :
    position key k entries = .taken (entries.findIdx (key · = k)) := by
  obtain ⟨smaller, rest, rfl, hlength, hsmaller, hrest⟩ := h.split k
  have hout : ∀ e ∈ smaller, key e ≠ k := by
    rintro e he rfl
    exact Nat.lt_irrefl _ (hsmaller e he)
  have hk' : ∃ e ∈ rest, key e = k := by
    obtain ⟨e, he, hkey⟩ := hk
    rcases List.mem_append.1 he with he | he
    · exact absurd hkey (hout e he)
    · exact ⟨e, he, hkey⟩
  have hindex : (smaller ++ rest).findIdx (key · = k) =
      rest.findIdx (key · = k) + smaller.length := by
    rw [List.findIdx_append, if_neg]
    simpa [List.findIdx_lt_length] using hout
  unfold position
  simp only [← hlength, List.drop_left]
  rw [scan_of_mem _ hrest (List.pairwise_append.1 h).2.1 hk', hindex]

theorem SortedByCode.position_of_notMem (h : SortedByCode key entries)
    (hk : ∀ e ∈ entries, key e ≠ k) : position key k entries =
      .free (entries.findIdx fun e => Identity.code k < Identity.code (key e)) := by
  obtain ⟨smaller, rest, rfl, hlength, hsmaller, hrest⟩ := h.split k
  have hindex : ((smaller ++ rest).findIdx fun e => Identity.code k < Identity.code (key e)) =
      (rest.findIdx fun e => Identity.code k < Identity.code (key e)) + smaller.length := by
    rw [List.findIdx_append, if_neg]
    simpa [List.findIdx_lt_length] using fun e he => Nat.le_of_lt (hsmaller e he)
  unfold position
  simp only [← hlength, List.drop_left]
  rw [scan_of_notMem _ hrest fun e he => hk e (List.mem_append_right _ he), hindex]

end Search

end Interleave
