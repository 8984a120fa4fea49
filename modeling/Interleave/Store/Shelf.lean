import Interleave.Store.IdBag

set_option autoImplicit false

namespace Interleave

inductive Collection (κ : Type) [Identity κ] where
  | set (members : IdSet κ)
  | bag (members : IdBag κ)

structure Stored (κ : Type) [Identity κ] where
  storage : Nat
  content : Collection κ

structure Shelf (κ : Type) [Identity κ] where
  slots : List (String × Stored κ)
  next : Nat

namespace Shelf

variable {κ : Type} [DecidableEq κ] [Identity κ]

def empty : Shelf κ := ⟨[], 0⟩

def find? (shelf : Shelf κ) (name : String) : Option (Stored κ) := shelf.slots.lookup name

def put (shelf : Shelf κ) (name : String) (stored : Stored κ) : Shelf κ :=
  { shelf with slots := (name, stored) :: shelf.slots.filter (·.1 ≠ name) }

def putNew (shelf : Shelf κ) (name : String) (content : Collection κ) : Shelf κ :=
  { shelf.put name ⟨shelf.next, content⟩ with next := shelf.next + 1 }

def copy (shelf : Shelf κ) (source target : String) : Shelf κ :=
  match shelf.find? source with
  | some stored => shelf.put target stored
  | none => shelf

def set (shelf : Shelf κ) (name : String) : IdSet κ :=
  match shelf.find? name with
  | some ⟨_, .set members⟩ => members
  | _ => .empty .fast

def bag (shelf : Shelf κ) (name : String) : IdBag κ :=
  match shelf.find? name with
  | some ⟨_, .bag members⟩ => members
  | _ => .empty .fast

def changeSet (shelf : Shelf κ) (name : String) (change : IdSet κ → Bool × IdSet κ) :
    Bool × Shelf κ :=
  match change (shelf.set name) with
  | (true, members) => (true, shelf.putNew name (.set members))
  | (false, _) => (false, shelf)

def changeBag {α : Type} (shelf : Shelf κ) (name : String) (change : IdBag κ → α × IdBag κ) :
    α × Shelf κ :=
  let (result, members) := change (shelf.bag name)
  (result, shelf.putNew name (.bag members))

def shares (shelf : Shelf κ) (a b : String) : Bool :=
  match shelf.find? a, shelf.find? b with
  | some x, some y => x.storage = y.storage
  | _, _ => false

end Shelf

end Interleave
