import Interleave.Fingerprint.Order

set_option autoImplicit false

/-! A fingerprint is the list of words of one breadth-first walk over a state, from the call stacks
and then from the statics. No handle appears in it: an object is numbered when it is first met, from
one, and written out when its turn comes. What no root reaches does not appear. -/

namespace Interleave

structure Fingerprint where
  words : List Nat
deriving DecidableEq

inductive SerializerKind where
  /-- The heap is followed from threads and statics. -/
  | full
  /-- The heap is followed from threads only. -/
  | threadReachable
deriving DecidableEq

structure SerializerPolicy where
  kind : SerializerKind
  includePc : Bool
deriving DecidableEq

def unexpandedWord : Nat := Nat.pow 2 64 - 2

/-- The words of a part of a state; the walk's state is the list of the objects met so far, whose
positions are their numbers. -/
abbrev Walk (α : Type) := StateT (List Handle) (Except MaskError) α

namespace Walk

def each {α : Type} (words : α → Walk (List Nat)) (items : List α) : Walk (List Nat) :=
  return (← items.mapM words).flatten

def reference (heap : Heap) (meet : Bool) (h : Handle) : Walk Nat := do
  let found ← get
  match number? found h with
  | some n => return n
  | none =>
    if !heap.isLive h then
      return invalidWord
    else if !meet then
      return unexpandedWord
    else
      set (found ++ [h])
      return found.length + 1

def localWord (heap : Heap) : Value → Walk Nat
  | .int v => return intWord v
  | .null => return 0
  | .ref h => reference heap true h

/-- The word of a declared slot: what is not of the slot's type counts as zero. -/
def slotWord (heap : Heap) (meet isRef : Bool) (v : Value) : Walk Nat :=
  match isRef, v with
  | true, .ref h => reference heap meet h
  | true, _ => return 0
  | false, .int v => return intWord v
  | false, _ => return 0

def slotWords (heap : Heap) (meet : Bool) (mask : FieldMask) (values : List Value) :
    Walk (List Nat) :=
  each (fun (slot, v) => return [← slotWord heap meet (mask.isRef slot) v]) (mask.emitted values)

/-- One word per 64 slots, with a bit for each slot that holds a reference. -/
def referenceBits (values : List Value) : List Nat :=
  if values.isEmpty then []
  else
    ((values.take 64).foldr (fun v word => 2 * word + if v.isReference then 1 else 0) 0)
      :: referenceBits (values.drop 64)
termination_by values.length
decreasing_by
  rename_i h
  have hpos := List.length_pos_iff.2 (mt List.isEmpty_iff.2 h)
  rw [List.length_drop]
  omega

def frameWords (policy : SerializerPolicy) (heap : Heap) (frame : StackFrame) :
    Walk (List Nat) := do
  let pc := if policy.includePc then [frame.pc] else []
  let values ← each (fun v => return [← localWord heap v]) frame.locals
  return frame.method :: pc ++ frame.locals.length :: referenceBits frame.locals ++ values

def unfiltered (masks : Masks) : List StackFrame → Except MaskError (List StackFrame)
  | [] => .ok []
  | frame :: rest => do
    let filtered ← masks.isFilteredMethod frame.method
    let kept ← unfiltered masks rest
    return if filtered then kept else frame :: kept

def statusWords (heap : Heap) : ThreadStatus → Walk (List Nat)
  | .blocked (.object h) => return [2, ← reference heap true h]
  | .blocked (.ofClass id) => return [2, id]
  | status => return [status.code]

def threadWords (policy : SerializerPolicy) (masks : Masks) (heap : Heap) (thread : Thread) :
    Walk (List Nat) := do
  let status ← statusWords heap thread.status
  let frames ← unfiltered masks thread.frames.reverse
  let words ← each (frameWords policy heap) frames
  return status ++ (if thread.uncaught.isSome then 1 else 0) :: frames.length :: words

def staticWords (masks : Masks) (heap : Heap) (meet : Bool) (record : StaticRecord) :
    Walk (List Nat) := do
  let mask ← masks.ofClass record.owner
  let values ← slotWords heap meet mask.statics record.fields
  return record.owner :: (if record.initialized then 1 else 0) :: record.monitor.words ++ values

/-- The words of an object. `order` sorts the members of a collection, given the objects met so far. -/
def objectWordsBy (masks : Masks) (heap : Heap) (order : List Handle → List Handle → List Handle)
    (object : Object) : Walk (List Nat) := do
  let mask ← masks.ofClass object.owner
  let header := object.owner :: object.monitor.words
  match object.payload with
  | .fields values => return header ++ (← slotWords heap true mask.fields values)
  | .ints elements => return header ++ elements.length :: elements.map intWord
  | .refs elements =>
    let slot (e : Option Handle) : Walk (List Nat) := return [← localWord heap (e.elim .null .ref)]
    return header ++ elements.length :: (← each slot elements)
  | .set members =>
    let sorted := order (← get) members.members
    return header ++ sorted.length :: (← each (fun m => return [← reference heap true m]) sorted)
  | .bag members =>
    let sorted := order (← get) members.distinct
    let entry (m : Handle) : Walk (List Nat) := return [← reference heap true m, members.count m]
    return header ++ sorted.length :: (← each entry sorted)

def objectWords (masks : Masks) (heap : Heap) (h : Handle) (object : Object) : Walk (List Nat) :=
  objectWordsBy masks heap (fun found => KeyContext.orderMembers ⟨heap, masks, found⟩ h) object

def expand (masks : Masks) (heap : Heap) : Nat → Nat → Walk (List Nat)
  | 0, _ => return []
  | fuel + 1, done => do
    match (← get)[done]? with
    | none => return []
    | some h =>
      match heap.get? h with
      | none => expand masks heap fuel (done + 1)
      | some object =>
        let words ← objectWords masks heap h object
        return words ++ (← expand masks heap fuel (done + 1))

/-- The words of a whole state. Each live object is written at most once, so the cells bound the
walk over the heap. -/
def stateWords (policy : SerializerPolicy) (masks : Masks) (s : State) : Walk (List Nat) := do
  let threads ← each (threadWords policy masks s.heap) s.threads
  let header := s.threads.length :: threads ++ [s.statics.length]
  match policy.kind with
  | .full =>
    let statics ← each (staticWords masks s.heap true) s.statics
    return header ++ statics ++ (← expand masks s.heap s.heap.cells.length 0)
  | .threadReachable =>
    let objects ← expand masks s.heap s.heap.cells.length 0
    return header ++ objects ++ (← each (staticWords masks s.heap false) s.statics)

end Walk

def State.fingerprint (s : State) (policy : SerializerPolicy) (masks : Masks) :
    Except MaskError Fingerprint := do
  let (words, _) ← (Walk.stateWords policy masks s).run []
  return ⟨words⟩

end Interleave
