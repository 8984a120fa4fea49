import Interleave.Json.Basic
import Interleave.Machine.State

set_option autoImplicit false

namespace Interleave

def Monitor.json (m : Monitor) : Json := .arr [.ofOption .nat m.owner, .nat m.count]

def sortedHandles (handles : List Handle) : Json := .arr ((handles.mergeSort (· ≤ ·)).map .nat)

def valuesJson (values : List Value) : Json := .arr (values.map fun v => .str v.text)

def Payload.member : Payload → String × Json
  | fields values => ("fields", valuesJson values)
  | ints elements => ("ints", .arr (elements.map fun n => .str (toString n.toInt)))
  | refs elements => ("refs", .arr (elements.map (.ofOption .nat)))
  | set members => ("set", sortedHandles members.members)
  | bag members => ("bag", sortedHandles members.toList)

def Object.json (o : Object) : Json :=
  .obj [("class", .nat o.owner), ("monitor", o.monitor.json), o.payload.member]

def Heap.json (heap : Heap) : Json :=
  .arr (heap.handles.map fun h => .arr [.nat h, .ofOption Object.json (heap.get? h)])

def ThreadStatus.text : ThreadStatus → String
  | runnable => "runnable"
  | terminated => "terminated"
  | blocked (.object h) => "blocked on object " ++ toString h
  | blocked (.ofClass c) => "blocked on class " ++ toString c

def Uncaught.json (u : Uncaught) : Json := .obj [
  ("kind", .str u.kind), ("message", .str u.message), ("thread", .str u.thread)]

def Thread.json (t : Thread) : Json := .obj [
  ("name", .str t.name),
  ("status", .str t.status.text),
  ("frames", .arr (t.frames.reverse.map fun f =>
    .arr [.nat f.method, .nat f.pc, valuesJson f.locals])),
  ("uncaught", .ofOption Uncaught.json t.uncaught)]

def StaticRecord.json (r : StaticRecord) : Json :=
  .arr [.nat r.owner, .bool r.initialized, r.monitor.json, valuesJson r.fields]

def State.json (s : State) : Json := .obj [
  ("threads", .arr (s.threads.map (·.json))),
  ("statics", .arr (s.statics.map (·.json))),
  ("heap", s.heap.json)]

end Interleave
