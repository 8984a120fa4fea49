import Interleave.Choice.Point
import Interleave.Fingerprint.Table
import Interleave.Machine.Step

set_option autoImplicit false

namespace Interleave

structure Transition where
  thread : ThreadId
  threadName : String
  choice : Option Int64
  label : String
  place : Option Place
  stateId : StateId
deriving DecidableEq

namespace Transition

def text (t : Transition) : String :=
  "[" ++ t.threadName ++ "] " ++ t.label
    ++ match t.choice with
      | some value => " <- " ++ toString value.toInt
      | none => ""

def decision (t : Transition) : Choice :=
  match t.choice with
  | some value => .int value
  | none => .thread t.thread

end Transition

structure ThreadView where
  id : ThreadId
  name : String
  status : ThreadStatus
  method : Option String
  pc : Option Nat
  next : Option String
deriving DecidableEq

def Program.threadViews (p : Program) (s : State) : List ThreadView :=
  s.threads.mapIdx fun id thread =>
    let frame := thread.frames.head?
    { id
      name := thread.name
      status := thread.status
      method := frame.bind fun f => p.methods[f.method]?.map (·.name)
      pc := frame.map (·.pc)
      next := frame.map fun f => p.label f.method f.pc }

end Interleave
