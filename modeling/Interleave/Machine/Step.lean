import Interleave.Machine.Eval

set_option autoImplicit false

/-! Each statement is one step. `Program.execute` runs the next statement of a thread to its end:
the classes it names become initialized, then its effect takes place or a fault ends the thread, and
at last finished calls are left and the status of every thread is computed anew. -/

namespace Interleave

def maxArrayLength : Nat := Nat.pow 2 20

def Expr.owners : Expr → List ClassId
  | .int _ | .null | .localVar _ => []
  | .staticVar owner _ => [owner]
  | .field object _ => object.owners
  | .len e | .size e | .unary _ e => e.owners
  | .index a b | .contains a b | .binary _ a b => a.owners ++ b.owners

def Target.owners : Target → List ClassId
  | .localVar _ => []
  | .staticVar owner _ => [owner]
  | .field object _ => object.owners
  | .index a i => a.owners ++ i.owners

def Rvalue.owners : Rvalue → List ClassId
  | .expr e | .newIntArray e | .newRefArray e => e.owners
  | .new id => [id]
  | .newSet | .newBag | .choose _ _ => []

def LockTarget.owners : LockTarget → List ClassId
  | .ofClass id => [id]
  | .object e => e.owners

def Stmt.owners : Stmt → List ClassId
  | .assign target value => target.owners ++ value.owners
  | .insert collection item | .remove collection item => collection.owners ++ item.owners
  | .lock target | .unlock target => target.owners
  | .assert condition _ | .ifGoto condition _ => condition.owners
  | .goto _ | .call _ | .return | .yield => []

def State.markInitialized (s : State) (ids : List ClassId) : State :=
  ids.foldl (fun s id => s.modifyStatic id fun record => { record with initialized := true }) s

def State.allocate (s : State) (owner : ClassId) (payload : Payload) : Value × State :=
  let (h, heap) := s.heap.allocate ⟨owner, .free, payload⟩
  (.ref h, { s with heap })

def StackFrame.choiceId (frame : StackFrame) : String :=
  "choose@" ++ toString frame.method ++ ":" ++ toString frame.pc

def arrayLength (length : Int64) : Eval Nat :=
  if length < 0 then Eval.fault (.negativeSize length)
  else if maxArrayLength < length.toInt.toNat then
    Eval.fault (.tooLarge length.toInt.toNat maxArrayLength)
  else .ok length.toInt.toNat

/-- What a statement leads to. A fault keeps the effects before it. -/
inductive Outcome where
  | next (s : State)
  | raised (f : Fault) (s : State)
  | defect (d : Defect)

/-- Goes on with a value; when there is none, the state stays as it is. -/
def Outcome.after {α : Type} (s : State) : Eval α → (α → Outcome) → Outcome
  | .ok a, k => k a
  | .error (.fault f), _ => .raised f s
  | .error (.defect d), _ => .defect d

/-- How collections are kept: the mode of those that are made, and where each of them, if it is a hash
table, lists a member that joins it. -/
structure Layout where
  mode : Symmetry
  arrange : Handle → Arrangement Handle

def Layout.plain (mode : Symmetry) : Layout := ⟨mode, fun _ _ _ => []⟩

instance : Coe Symmetry Layout := ⟨Layout.plain⟩

namespace Program

def rvalue (p : Program) (mode : Symmetry) (s : State) (frame : StackFrame)
    (data : Option Int64) : Rvalue → Eval (Value × State)
  | .expr e => do return (← p.eval s frame.locals e, s)
  | .choose _ _ =>
    match data with
    | some value => .ok (.int value, s)
    | none => Eval.defect (.noChoice frame.choiceId)
  | .new id =>
    match p.classes[id]? with
    | some decl => .ok (s.allocate id (.fields (decl.fields.map (·.start))))
    | none => Eval.defect (.unknownClass id)
  | .newIntArray length => do
    let n ← arrayLength (← (← p.eval s frame.locals length).asInt)
    return s.allocate intArrayClass (.ints (List.replicate n 0))
  | .newRefArray length => do
    let n ← arrayLength (← (← p.eval s frame.locals length).asInt)
    return s.allocate refArrayClass (.refs (List.replicate n none))
  | .newSet => .ok (s.allocate setClass (.set (.empty mode)))
  | .newBag => .ok (s.allocate bagClass (.bag (.empty mode)))

def store (p : Program) (s : State) (t : ThreadId) (frame : StackFrame) (value : Value) :
    Target → Eval State
  | .localVar slot =>
    if slot < frame.locals.length then
      .ok (s.modifyTop t fun f => { f with locals := f.locals.set slot value })
    else
      Eval.defect (.noLocal slot)
  | .staticVar owner slot =>
    match p.classes[owner]?.bind (·.statics[slot]?) with
    | none => Eval.defect (.unknownStatic slot)
    | some decl => do
      let value ← value.checked decl.type
      match (s.static? owner).bind (·.fields[slot]?) with
      | none => Eval.defect (.unknownStatic slot)
      | some _ =>
        return s.modifyStatic owner fun record =>
          { record with fields := record.fields.set slot value }
  | .field object name => do
    let h ← (← p.eval s frame.locals object).asHandle
    let object ← s.object h
    let (slot, type) ← p.fieldSlot object.owner name
    let value ← value.checked type
    match object.payload with
    | .fields values =>
      return s.putObject h { object with payload := .fields (values.set slot value) }
    | _ => Eval.fault (.noSlot name)
  | .index array index => do
    let h ← (← p.eval s frame.locals array).asHandle
    let i ← (← p.eval s frame.locals index).asInt
    let object ← s.object h
    match object.payload with
    | .ints elements =>
      let element : Eval Int64 := match value with
        | .int v => .ok v
        | _ => Eval.fault .intElement
      return s.putObject h { object with payload := .ints (← setElement elements i element) }
    | .refs elements =>
      let element : Eval (Option Handle) := match value with
        | .ref r => .ok (some r)
        | .null => .ok none
        | .int _ => Eval.fault .refElement
      return s.putObject h { object with payload := .refs (← setElement elements i element) }
    | _ => Eval.fault .indexOfOther

def lockRef (p : Program) (s : State) (frame : StackFrame) : LockTarget → Eval LockRef
  | .ofClass id => .ok (.ofClass id)
  | .object e => do return .object (← (← p.eval s frame.locals e).asHandle)

def monitor (p : Program) (s : State) (frame : StackFrame) (target : LockTarget) :
    Eval (LockRef × Monitor) := do
  let lock ← p.lockRef s frame target
  match s.monitor? lock with
  | some m => return (lock, m)
  | none => Eval.defect (.noMonitor lock)

def collectionAndItem (p : Program) (s : State) (frame : StackFrame) (collection item : Expr) :
    Eval (Handle × Object × Handle) := do
  let h ← (← p.eval s frame.locals collection).asHandle
  let item ← (← p.eval s frame.locals item).asHandle
  return (h, ← s.object h, item)

def insertItem (arrange : Arrangement Handle) (item : Handle) : Payload → Eval Payload
  | .set members => .ok (.set (members.add item arrange).2)
  | .bag members => .ok (.bag (members.add item arrange))
  | _ => Eval.fault .addToOther

def removeItem (item : Handle) : Payload → Eval Payload
  | .set members => .ok (.set (members.remove item).2)
  | .bag members => .ok (.bag (members.removeOne item).2)
  | _ => Eval.fault .removeFromOther

def changeCollection (p : Program) (s : State) (frame : StackFrame) (collection item : Expr)
    (change : Handle → Handle → Payload → Eval Payload) : Eval State := do
  let (h, object, item) ← p.collectionAndItem s frame collection item
  return s.putObject h { object with payload := ← change h item object.payload }

def enterLock (p : Program) (s : State) (t : ThreadId) (frame : StackFrame) (target : LockTarget) :
    Eval State := do
  let (lock, m) ← p.monitor s frame target
  if m.isFreeFor t then
    return s.setMonitor (m.enter t) lock
  else
    Eval.defect (.scheduledWhileBlocked t)

def leaveLock (p : Program) (s : State) (t : ThreadId) (frame : StackFrame) (target : LockTarget) :
    Eval State := do
  let (lock, m) ← p.monitor s frame target
  if m.owner = some t then
    return s.setMonitor m.leave lock
  else
    Eval.fault .notOwner

def newFrame (p : Program) (method : MethodId) : Except Defect StackFrame :=
  match p.methods[method]? with
  | some decl => .ok ⟨method, 0, List.replicate decl.locals.length (.int 0)⟩
  | none => .error (.unknownMethod method)

/-- The effect of a statement of a thread's newest frame, its program counter included. -/
def effect (p : Program) (layout : Layout) (s : State) (t : ThreadId) (frame : StackFrame)
    (data : Option Int64) (stmt : Stmt) : Outcome :=
  let goTo (pc : Nat) (s : State) : Outcome := .next (s.modifyTop t fun f => { f with pc })
  let goOn := goTo (frame.pc + 1)
  match stmt with
  | .assign target value =>
    .after s (p.rvalue layout.mode s frame data value) fun (v, s) =>
      .after s (p.store s t frame v target) goOn
  | .insert collection item =>
    .after s (p.changeCollection s frame collection item fun h => insertItem (layout.arrange h)) goOn
  | .remove collection item =>
    .after s (p.changeCollection s frame collection item fun _ => removeItem) goOn
  | .lock target => .after s (p.enterLock s t frame target) goOn
  | .unlock target => .after s (p.leaveLock s t frame target) goOn
  | .assert condition message =>
    .after s (p.eval s frame.locals condition) fun v =>
      if v.isTrue then goOn s
      else .raised (.assertion (message.getD
        ("assertion failed: " ++ p.label frame.method frame.pc))) s
  | .ifGoto condition target =>
    .after s (p.eval s frame.locals condition) fun v =>
      if v.isTrue then goTo target s else goOn s
  | .goto target => goTo target s
  | .call method =>
    match p.newFrame method with
    | .error d => .defect d
    | .ok callee =>
      .next (s.modifyThread t fun thread =>
        { thread with frames :=
          callee :: thread.frames.modifyHead fun f => { f with pc := frame.pc + 1 } })
  | .return => .next (s.modifyThread t fun thread => { thread with frames := thread.frames.tail })
  | .yield => goOn s

def perform (p : Program) (layout : Layout) (s : State) (t : ThreadId) (data : Option Int64) :
    Outcome :=
  match s.topFrame? t with
  | none => .defect (.noFrame t)
  | some frame =>
    match p.statement? frame.method frame.pc with
    | none => .defect (.noStatement t)
    | some stmt => p.effect layout (s.markInitialized stmt.value.owners) t frame data stmt.value

def unwind (p : Program) (thread : Thread) : Thread :=
  match thread.frames.dropWhile fun f => p.bodyLength f.method ≤ f.pc with
  | [] => { thread with frames := [], status := .terminated }
  | frames => { thread with frames }

/-- The status that a thread has in a state: a live thread waits exactly when its next statement
locks a monitor that it cannot enter. -/
def statusOf (p : Program) (s : State) (t : ThreadId) (thread : Thread) : ThreadStatus :=
  if !thread.isAlive then .terminated
  else
    match thread.frames with
    | [] => .runnable
    | frame :: _ =>
      match p.statement? frame.method frame.pc with
      | some ⟨.lock target, _⟩ =>
        match p.lockRef s frame target with
        | .ok lock => if (s.monitor? lock).any (·.isFreeFor t) then .runnable else .blocked lock
        | .error _ => .runnable
      | _ => .runnable

def updateStatuses (p : Program) (s : State) : State :=
  { s with threads := s.threads.mapIdx fun t thread =>
      { thread with status := p.statusOf s t thread } }

/-- Runs the next statement of a thread. The fault that ended the thread is given beside the state
it leads to. -/
def execute (p : Program) (layout : Layout) (s : State) (t : ThreadId) (data : Option Int64) :
    Except Defect (State × Option Uncaught) :=
  match p.perform layout s t data with
  | .defect d => .error d
  | .next s => .ok (p.updateStatuses (s.modifyThread t p.unwind), none)
  | .raised f s =>
    match s.threads[t]? with
    | none => .error (.unknownThread t)
    | some thread =>
      let uncaught := f.uncaught thread.name
      .ok (p.updateStatuses (s.modifyThread t fun thread =>
        { thread with frames := [], status := .terminated, uncaught := some uncaught }),
        some uncaught)

/-- The statics of the classes that declare slots; the main class is initialized from the start. -/
def initialStatics (p : Program) : List StaticRecord :=
  p.classes.zipIdx.filterMap fun (decl, id) =>
    if decl.kind = .plain then
      some ⟨id, id = mainClass, decl.statics.map (·.start), .free⟩
    else none

def initialThreads (p : Program) : List ThreadDecl → Except Defect (List Thread)
  | [] => .ok []
  | decl :: rest => do
    let frame ← p.newFrame decl.entry
    let thread := p.unwind ⟨decl.name, .runnable, [frame], none⟩
    return thread :: (← p.initialThreads rest)

def initialState (p : Program) : Except Defect State := do
  let threads ← p.initialThreads p.threads
  return p.updateStatuses ⟨threads, p.initialStatics, .empty⟩

/-- The first of the given invariants that does not hold in a state; one whose evaluation faults
does not hold. -/
def firstViolated (p : Program) (s : State) : List (Located Expr) → Except Defect (Option Span)
  | [] => .ok none
  | invariant :: rest =>
    match p.eval s [] invariant.value with
    | .ok v => if v.isTrue then p.firstViolated s rest else .ok (some invariant.span)
    | .error (.fault _) => .ok (some invariant.span)
    | .error (.defect d) => .error d

def violated (p : Program) (s : State) : Except Defect (Option String) := do
  let span ← p.firstViolated s p.invariants
  return span.map fun span => p.path ++ ":" ++ toString span.startLine

end Program

end Interleave
