import Interleave.Store.Heap

set_option autoImplicit false

namespace Interleave

inductive LockRef where
  | object (handle : Handle)
  | ofClass (id : ClassId)
deriving DecidableEq

inductive ThreadStatus where
  | runnable
  | blocked (on : LockRef)
  | terminated
deriving DecidableEq

def ThreadStatus.code : ThreadStatus → Nat
  | runnable => 1
  | blocked _ => 2
  | terminated => 3

structure StackFrame where
  method : MethodId
  pc : Nat
  locals : List Value
deriving DecidableEq

structure Uncaught where
  kind : String
  message : String
  thread : String
deriving DecidableEq

structure Thread where
  name : String
  status : ThreadStatus
  frames : List StackFrame
  uncaught : Option Uncaught
deriving DecidableEq

namespace Thread

def isRunnable (t : Thread) : Bool := t.status = .runnable

def isAlive (t : Thread) : Bool := t.status ≠ .terminated

end Thread

structure StaticRecord where
  owner : ClassId
  initialized : Bool
  fields : List Value
  monitor : Monitor
deriving DecidableEq

structure State where
  threads : List Thread
  statics : List StaticRecord
  heap : Heap

namespace State

def empty : State := ⟨[], [], .empty⟩

def runnable (s : State) : List ThreadId :=
  s.threads.zipIdx.filterMap fun (t, id) => if t.isRunnable then some id else none

def isEnd (s : State) : Bool := s.runnable.isEmpty

def isDeadlocked (s : State) : Bool := s.isEnd && s.threads.any (·.isAlive)

def topFrame? (s : State) (t : ThreadId) : Option StackFrame :=
  s.threads[t]?.bind (·.frames.head?)

def static? (s : State) (id : ClassId) : Option StaticRecord :=
  s.statics.find? (·.owner = id)

/-- Changes the record of a class; only the first record of a class counts. -/
def modifyStatic (s : State) (id : ClassId) (f : StaticRecord → StaticRecord) : State :=
  { s with statics := s.statics.modify (s.statics.findIdx (·.owner = id)) f }

def modifyThread (s : State) (t : ThreadId) (f : Thread → Thread) : State :=
  { s with threads := s.threads.modify t f }

def modifyTop (s : State) (t : ThreadId) (f : StackFrame → StackFrame) : State :=
  s.modifyThread t fun thread => { thread with frames := thread.frames.modifyHead f }

def putObject (s : State) (h : Handle) (object : Object) : State :=
  { s with heap := s.heap.put h object }

def monitor? (s : State) : LockRef → Option Monitor
  | .object h => (s.heap.get? h).map (·.monitor)
  | .ofClass id => (s.static? id).map (·.monitor)

def setMonitor (s : State) (m : Monitor) : LockRef → State
  | .object h =>
    match s.heap.get? h with
    | some object => s.putObject h { object with monitor := m }
    | none => s
  | .ofClass id => s.modifyStatic id fun record => { record with monitor := m }

def roots (s : State) : List Handle :=
  (s.threads.flatMap fun t => t.frames.reverse.flatMap fun f => f.locals.filterMap Value.handle?)
    ++ s.statics.flatMap fun record => record.fields.filterMap Value.handle?

def collect (s : State) : Nat × State :=
  let (freed, heap) := s.heap.retain s.roots
  (freed, { s with heap })

end State

end Interleave
