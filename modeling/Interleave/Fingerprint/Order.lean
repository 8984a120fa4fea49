import Interleave.Fingerprint.Mask
import Interleave.Machine.State

set_option autoImplicit false

/-! A fingerprint must not depend on the order in which a collection lists its members, so they are
sorted first: members that already have a number by that number, the others by a key that encodes
everything they reach. In a key, numbered objects appear as their numbers and the others are
numbered locally, in the order in which the key meets them. A collection that is met inside a key is
ordered in the same way; one that is being ordered already is ordered by shallow keys, so that the
recursion ends. -/

namespace Interleave

def invalidWord : Nat := Nat.pow 2 64 - 1

def intWord (v : Int64) : Nat := v.toUInt64.toNat

def Monitor.words (m : Monitor) : List Nat := [m.owner.elim 0 (· + 1), m.count]

def FieldMask.emitted (mask : FieldMask) (values : List Value) : List (Nat × Value) :=
  values.zipIdx.filterMap fun (v, slot) => if mask.emits slot then some (slot, v) else none

def wordsLe : List Nat → List Nat → Bool
  | [], _ => true
  | _ :: _, [] => false
  | a :: as, b :: bs => a < b || (a == b && wordsLe as bs)

def insertByRank (entry : List Nat × Handle) :
    List (List Nat × Handle) → List (List Nat × Handle)
  | [] => [entry]
  | first :: rest =>
    if wordsLe entry.1 first.1 then entry :: first :: rest else first :: insertByRank entry rest

/-- Sorts by rank and keeps the given order among equal ranks. -/
def sortByRank (rank : Handle → List Nat) (members : List Handle) : List Handle :=
  ((members.map fun m => (rank m, m)).foldr insertByRank []).map (·.2)

def number? (found : List Handle) (h : Handle) : Option Nat := (found.idxOf? h).map (· + 1)

/-- The slots of an instance that are looked at when it is ordered; without a mask, all of them. -/
def Masks.visible (masks : Masks) (owner : ClassId) (values : List Value) : List Value :=
  match masks.classes[owner]? with
  | some mask => (mask.fields.emitted values).map (·.2)
  | none => values

def shallowKey (heap : Heap) (masks : Masks) (h : Handle) : List Nat :=
  match heap.get? h with
  | none => [invalidWord]
  | some object =>
    object.owner :: match object.payload with
      | .fields values => (masks.visible object.owner values).map fun v =>
          match v with
          | .int v => intWord v
          | .null => 0
          | .ref _ => 1
      | .ints elements => elements.length :: elements.map intWord
      | .refs elements => elements.length :: elements.map fun e => if e.isSome then 1 else 0
      | .set members => [members.size]
      | .bag members => [members.size]

/-- What a key is computed from: the heap, the masks and the objects that have numbers. -/
structure KeyContext where
  heap : Heap
  masks : Masks
  numbered : List Handle

abbrev KeyWalk := StateM (List Handle) (List Nat)

namespace KeyContext

def reference (c : KeyContext) (h : Handle) : KeyWalk := do
  match number? c.numbered h with
  | some n => return [2, n]
  | none =>
    let found ← get
    match number? found h with
    | some n => return [1, n]
    | none =>
      if c.heap.isLive h then
        set (found ++ [h])
        return [1, found.length + 1]
      else
        return [3, 0]

def value (c : KeyContext) : Value → KeyWalk
  | .int v => return [intWord v]
  | .null => return [0, 0]
  | .ref h => c.reference h

def each {α : Type} (words : α → KeyWalk) (items : List α) : KeyWalk :=
  return (← items.mapM words).flatten

def rank (c : KeyContext) (found : List Handle) (key : Handle → List Nat) (h : Handle) : List Nat :=
  match number? c.numbered h with
  | some n => [0, n]
  | none =>
    match number? found h with
    | some n => [1, n]
    | none => 2 :: key h

def object (c : KeyContext) (order : List Handle → List Handle → List Handle) (o : Object) :
    KeyWalk := do
  let header := o.owner :: o.monitor.words
  match o.payload with
  | .fields values => return header ++ (← each c.value (c.masks.visible o.owner values))
  | .ints elements => return header ++ elements.length :: elements.map intWord
  | .refs elements =>
    let slot (e : Option Handle) : KeyWalk := c.value (e.elim .null .ref)
    return header ++ elements.length :: (← each slot elements)
  | .set members =>
    let sorted := order (← get) members.members
    return header ++ sorted.length :: (← each c.reference sorted)
  | .bag members =>
    let sorted := order (← get) members.distinct
    let entry (h : Handle) : KeyWalk := do return (← c.reference h) ++ [members.count h]
    return header ++ sorted.length :: (← each entry sorted)

def expand (c : KeyContext) (order : Handle → List Handle → List Handle → List Handle) :
    Nat → Nat → KeyWalk
  | 0, _ => return []
  | fuel + 1, done => do
    match (← get)[done]? with
    | none => return []
    | some h =>
      match c.heap.get? h with
      | none => return []
      | some o =>
        let words ← c.object (order h) o
        return words ++ (← c.expand order fuel (done + 1))

/-- The key of an object. `opened` are the collections being ordered; `depth` bounds how many more
may be opened. -/
def key (c : KeyContext) : Nat → List Handle → Handle → List Nat
  | 0, _, root => shallowKey c.heap c.masks root
  | depth + 1, opened, root =>
    let memberKey (collection member : Handle) : List Nat :=
      if collection ∈ opened then shallowKey c.heap c.masks member
      else c.key depth (collection :: opened) member
    let order (collection : Handle) (found members : List Handle) : List Handle :=
      sortByRank (c.rank found (memberKey collection)) members
    let walk : KeyWalk := do
      let first ← c.reference root
      return first ++ (← c.expand order c.heap.cells.length 0)
    (walk.run []).1

/-- The members of a collection in the order in which a fingerprint lists them. Only live objects
can be opened and each at most once, so the cells bound the depth. -/
def orderMembers (c : KeyContext) (collection : Handle) (members : List Handle) : List Handle :=
  sortByRank (c.rank [] (c.key (c.heap.cells.length + 1) [collection])) members

end KeyContext

end Interleave
