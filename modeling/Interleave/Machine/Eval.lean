import Interleave.Machine.Fault

set_option autoImplicit false

namespace Interleave

abbrev Eval (α : Type) := Except Stop α

namespace Eval

def fault {α : Type} (f : Fault) : Eval α := .error (.fault f)

def defect {α : Type} (d : Defect) : Eval α := .error (.defect d)

end Eval

namespace Value

def asInt : Value → Eval Int64
  | int value => .ok value
  | _ => Eval.fault .expectedInt

def asHandle : Value → Eval Handle
  | ref handle => .ok handle
  | null => Eval.fault .nullDereference
  | int _ => Eval.fault .expectedRef

def checked (value : Value) : FieldType → Eval Value
  | .int => if value.fits .int then .ok value else Eval.fault .refInIntSlot
  | .ref => if value.fits .ref then .ok value else Eval.fault .intInRefSlot

end Value

namespace BinOp

def arith (op : BinOp) (l r : Int64) : Eval Value :=
  match op with
  | add => .ok (.int (l + r))
  | sub => .ok (.int (l - r))
  | mul => .ok (.int (l * r))
  | div => if r = 0 then Eval.fault (.divisionByZero l) else .ok (.int (l / r))
  | rem => if r = 0 then Eval.fault (.divisionByZero l) else .ok (.int (l % r))
  | lt => .ok (.ofBool (l < r))
  | le => .ok (.ofBool (l ≤ r))
  | gt => .ok (.ofBool (r < l))
  | ge => .ok (.ofBool (r ≤ l))
  | eq | ne | and | or => Eval.defect (.notArithmetic op)

end BinOp

def element {α : Type} (elements : List α) (index : Int64) : Eval α :=
  match elements[index.toInt.toNat]?, decide (0 ≤ index) with
  | some x, true => .ok x
  | _, _ => Eval.fault (.outOfBounds index elements.length)

def setElement {α : Type} (elements : List α) (index : Int64) (x : Eval α) : Eval (List α) := do
  let _ ← element elements index
  return elements.set index.toInt.toNat (← x)

namespace State

def object (s : State) (h : Handle) : Eval Object :=
  match s.heap.get? h with
  | some object => .ok object
  | none => Eval.defect (.dangling h)

end State

namespace Program

def fieldSlot (p : Program) (id : ClassId) (name : String) : Eval (Nat × FieldType) :=
  match p.classes[id]? with
  | none => Eval.defect (.unknownClass id)
  | some decl =>
    match decl.field? name with
    | none => Eval.fault (.noField decl.name name)
    | some slot => .ok (slot, (decl.fields[slot]?.map (·.type)).getD .int)

def readField (p : Program) (s : State) (h : Handle) (name : String) : Eval Value := do
  let object ← s.object h
  let (slot, _) ← p.fieldSlot object.owner name
  match object.payload with
  | .fields values => return values[slot]?.getD .null
  | _ => Eval.fault (.noSlot name)

end Program

namespace Payload

def readIndex (payload : Payload) (index : Int64) : Eval Value :=
  match payload with
  | ints elements => Value.int <$> element elements index
  | refs elements => (fun e => e.elim Value.null Value.ref) <$> element elements index
  | _ => Eval.fault .indexOfOther

def readLength : Payload → Eval Value
  | ints elements => .ok (.int (Int64.ofNat elements.length))
  | refs elements => .ok (.int (Int64.ofNat elements.length))
  | _ => Eval.fault .lenOfOther

def readSize : Payload → Eval Value
  | set members => .ok (.int (Int64.ofNat members.size))
  | bag members => .ok (.int (Int64.ofNat members.size))
  | _ => Eval.fault .sizeOfOther

def hasMember (payload : Payload) (h : Handle) : Eval Value :=
  match payload with
  | set members => .ok (.ofBool (members.contains h))
  | bag members => .ok (.ofBool (members.contains h))
  | _ => Eval.fault .containsOnOther

end Payload

def Program.eval (p : Program) (s : State) (locals : List Value) : Expr → Eval Value
  | .int value => .ok (.int value)
  | .null => .ok .null
  | .localVar slot => .ok (locals[slot]?.getD (.int 0))
  | .staticVar owner slot =>
    match (s.static? owner).bind (·.fields[slot]?) with
    | some value => .ok value
    | none => Eval.defect (.unknownStatic slot)
  | .field object name => do
    let h ← (← p.eval s locals object).asHandle
    p.readField s h name
  | .index array index => do
    let h ← (← p.eval s locals array).asHandle
    let i ← (← p.eval s locals index).asInt
    (← s.object h).payload.readIndex i
  | .len array => do
    let h ← (← p.eval s locals array).asHandle
    (← s.object h).payload.readLength
  | .size collection => do
    let h ← (← p.eval s locals collection).asHandle
    (← s.object h).payload.readSize
  | .contains collection item => do
    let h ← (← p.eval s locals collection).asHandle
    match ← p.eval s locals item with
    | .ref member => (← s.object h).payload.hasMember member
    | .null => return .int 0
    | .int _ => Eval.fault .containsInt
  | .unary .neg operand => do
    return .int (-(← (← p.eval s locals operand).asInt))
  | .unary .not operand => do
    return .ofBool (!(← p.eval s locals operand).isTrue)
  | .binary .and left right => do
    if (← p.eval s locals left).isTrue then
      return .ofBool (← p.eval s locals right).isTrue
    else
      return .ofBool false
  | .binary .or left right => do
    if (← p.eval s locals left).isTrue then
      return .ofBool true
    else
      return .ofBool (← p.eval s locals right).isTrue
  | .binary .eq left right => do
    let l ← p.eval s locals left
    return .ofBool (l = (← p.eval s locals right))
  | .binary .ne left right => do
    let l ← p.eval s locals left
    return .ofBool (l ≠ (← p.eval s locals right))
  | .binary op left right => do
    let l ← (← p.eval s locals left).asInt
    let r ← (← p.eval s locals right).asInt
    op.arith l r

end Interleave
