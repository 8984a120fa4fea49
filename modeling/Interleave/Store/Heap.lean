import Interleave.Store.IdBag
import Interleave.Store.IdSet
import Interleave.Store.Value

set_option autoImplicit false

/-! Objects are allocated at the next handle and a handle is never used again, so a handle whose
object is gone stands for nothing. `Heap.retain` keeps what is reachable from the roots. -/

namespace Interleave

inductive Payload where
  | fields (values : List Value)
  | ints (elements : List Int64)
  | refs (elements : List (Option Handle))
  | set (members : IdSet Handle)
  | bag (members : IdBag Handle)

structure Object where
  owner : ClassId
  monitor : Monitor
  payload : Payload

def Payload.outgoing : Payload → List Handle
  | fields values => values.filterMap Value.handle?
  | ints _ => []
  | refs elements => elements.filterMap id
  | set members => members.members
  | bag members => members.toList

structure Heap where
  cells : List (Option Object)

namespace Heap

def empty : Heap := ⟨[]⟩

def get? (heap : Heap) (h : Handle) : Option Object := heap.cells[h]?.join

def isLive (heap : Heap) (h : Handle) : Bool := (heap.get? h).isSome

def allocate (heap : Heap) (object : Object) : Handle × Heap :=
  (heap.cells.length, ⟨heap.cells ++ [some object]⟩)

def put (heap : Heap) (h : Handle) (object : Object) : Heap := ⟨heap.cells.set h (some object)⟩

def free (heap : Heap) (h : Handle) : Heap := ⟨heap.cells.set h none⟩

def handles (heap : Heap) : List Handle :=
  (List.range heap.cells.length).filter heap.isLive

def outgoing (heap : Heap) (h : Handle) : List Handle :=
  ((heap.get? h).map (·.payload.outgoing)).getD []

def discover (heap : Heap) (found targets : List Handle) : List Handle :=
  targets.foldl (fun found h => if h ∈ found || !heap.isLive h then found else found ++ [h]) found

/-- Follows the references of the handles found so far, from position `done` on. -/
def follow (heap : Heap) : Nat → Nat → List Handle → List Handle
  | 0, _, found => found
  | fuel + 1, done, found =>
    match found[done]? with
    | none => found
    | some h => follow heap fuel (done + 1) (heap.discover found (heap.outgoing h))

/-- The live objects that the roots reach. Each is followed once, so the cells bound the work. -/
def reachable (heap : Heap) (roots : List Handle) : List Handle :=
  heap.follow heap.cells.length 0 (heap.discover [] roots)

/-- Frees every object that the roots do not reach; tells how many there were. -/
def retain (heap : Heap) (roots : List Handle) : Nat × Heap :=
  let kept := heap.reachable roots
  ((heap.handles.filter (· ∉ kept)).length,
    ⟨heap.cells.mapIdx fun h cell => if h ∈ kept then cell else none⟩)

end Heap

end Interleave
