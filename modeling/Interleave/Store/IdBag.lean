import Interleave.Store.IdSet

set_option autoImplicit false

namespace Interleave

structure IdBag (κ : Type) where
  mode : Symmetry
  entries : List (κ × Nat)

namespace IdBag

variable {κ : Type} [DecidableEq κ] [Identity κ]

def empty (mode : Symmetry) : IdBag κ := ⟨mode, []⟩

def size (b : IdBag κ) : Nat := b.entries.foldr (fun entry n => entry.2 + n) 0

def distinct (b : IdBag κ) : List κ := b.entries.map (·.1)

def distinctSize (b : IdBag κ) : Nat := b.entries.length

def toList (b : IdBag κ) : List κ := b.entries.flatMap fun entry => List.replicate entry.2 entry.1

def find (b : IdBag κ) (k : κ) : Position :=
  match b.mode with
  | .fast =>
    if k ∈ b.distinct then .taken (b.entries.findIdx (·.1 = k)) else .free b.entries.length
  | .canonical => position Prod.fst k b.entries

def countAt (b : IdBag κ) (i : Nat) : Nat := b.entries[i]?.elim 0 (·.2)

def count (b : IdBag κ) (k : κ) : Nat :=
  match b.find k with
  | .taken i => b.countAt i
  | .free _ => 0

def contains (b : IdBag κ) (k : κ) : Bool := 0 < b.count k

def add (b : IdBag κ) (k : κ) (arrange : Arrangement κ := fun _ _ => []) : IdBag κ :=
  match b.find k with
  | .taken i => { b with entries := b.entries.modify i fun (k, n) => (k, n + 1) }
  | .free i =>
    { b with entries := rearranged b.mode (arrange b.distinct k) (b.entries.insertIdx i (k, 1)) }

def removeOne (b : IdBag κ) (k : κ) : Bool × IdBag κ :=
  match b.find k with
  | .taken i =>
    let b := { b with entries := b.entries.modify i fun (k, n) => (k, n - 1) }
    (true, if b.countAt i = 0 then { b with entries := b.entries.eraseIdx i } else b)
  | .free _ => (false, b)

def removeEvery (b : IdBag κ) (k : κ) : Nat × IdBag κ :=
  match b.find k with
  | .taken i => (b.countAt i, { b with entries := b.entries.eraseIdx i })
  | .free _ => (0, b)

def containsAll (b : IdBag κ) (t : IdSet κ) : Bool := t.members.all b.contains

def retainAll (b : IdBag κ) (t : IdSet κ) : Bool × IdBag κ :=
  let doomed := b.distinct.filter fun k => !t.contains k
  (!doomed.isEmpty, doomed.foldl (fun b k => (b.removeEvery k).2) b)

def removeAll (b : IdBag κ) (t : IdSet κ) : Bool × IdBag κ :=
  t.members.foldl (fun (changed, b) k =>
    let (removed, b) := b.removeEvery k
    (changed || 0 < removed, b)) (false, b)

def same (b c : IdBag κ) : Bool :=
  b.distinctSize == c.distinctSize && b.distinct.all fun k => b.count k == c.count k

end IdBag

end Interleave
