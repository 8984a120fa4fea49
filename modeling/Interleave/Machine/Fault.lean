import Interleave.Machine.State

set_option autoImplicit false

namespace Interleave

inductive Fault where
  | expectedInt
  | expectedRef
  | addToOther
  | removeFromOther
  | noSlot (field : String)
  | noField (owner field : String)
  | intElement
  | refElement
  | indexOfOther
  | lenOfOther
  | sizeOfOther
  | containsInt
  | containsOnOther
  | refInIntSlot
  | intInRefSlot
  | nullDereference
  | notOwner
  | assertion (message : String)
  | negativeSize (size : Int64)
  | tooLarge (size limit : Nat)
  | outOfBounds (index : Int64) (length : Nat)
  | divisionByZero (dividend : Int64)
deriving DecidableEq

namespace Fault

def kind : Fault → String
  | nullDereference => "null_dereference"
  | notOwner => "illegal_monitor_state"
  | assertion _ => "assertion_failed"
  | negativeSize _ => "negative_array_size"
  | tooLarge _ _ => "array_too_large"
  | outOfBounds _ _ => "index_out_of_bounds"
  | divisionByZero _ => "division_by_zero"
  | _ => "type_mismatch"

def message : Fault → String
  | expectedInt => "expected an int"
  | expectedRef => "expected a reference"
  | addToOther => "add on a non-collection"
  | removeFromOther => "remove on a non-collection"
  | noSlot field => "no field " ++ field
  | noField owner field => owner ++ " has no field " ++ field
  | intElement => "int array element"
  | refElement => "ref array element"
  | indexOfOther => "index on a non-array"
  | lenOfOther => "len of a non-array"
  | sizeOfOther => "size of a non-collection"
  | containsInt => "contains of an int"
  | containsOnOther => "contains on a non-collection"
  | refInIntSlot => "reference stored in an int slot"
  | intInRefSlot => "int stored in a ref slot"
  | nullDereference => "dereference of null"
  | notOwner => "unlock of a monitor not owned by this thread"
  | assertion message => message
  | negativeSize size => "array size " ++ toString size.toInt
  | tooLarge size limit => "array size " ++ toString size ++ " exceeds " ++ toString limit
  | outOfBounds index length =>
    "index " ++ toString index.toInt ++ " out of bounds for length " ++ toString length
  | divisionByZero dividend => toString dividend.toInt ++ " / 0"

def uncaught (f : Fault) (thread : String) : Uncaught := ⟨f.kind, f.message, thread⟩

end Fault

inductive Defect where
  | unknownMethod (id : MethodId)
  | unknownThread (t : ThreadId)
  | noFrame (t : ThreadId)
  | noStatement (t : ThreadId)
  | scheduledWhileBlocked (t : ThreadId)
  | unknownClass (id : ClassId)
  | noLocal (slot : Nat)
  | unknownStatic (slot : Nat)
  | dangling (h : Handle)
  | noMonitor (lock : LockRef)
  | notArithmetic (op : BinOp)
  | noChoice (id : String)
deriving DecidableEq

namespace Defect

private def lockText : LockRef → String
  | .object h => "Object(" ++ toString h ++ ")"
  | .ofClass id => "Class(" ++ toString id ++ ")"

private def opText : BinOp → String
  | .add => "Add" | .sub => "Sub" | .mul => "Mul" | .div => "Div" | .rem => "Rem"
  | .eq => "Eq" | .ne => "Ne" | .lt => "Lt" | .le => "Le" | .gt => "Gt" | .ge => "Ge"
  | .and => "And" | .or => "Or"

def message : Defect → String
  | noChoice id => "choice generator " ++ id ++ " offers no choice for this step"
  | unknownMethod id => "inconsistent program: unknown method " ++ toString id
  | unknownThread t => "inconsistent program: unknown thread " ++ threadText t
  | noFrame t => "inconsistent program: thread " ++ threadText t ++ " has no frame"
  | noStatement t => "inconsistent program: thread " ++ threadText t ++ " has no statement"
  | scheduledWhileBlocked t =>
    "inconsistent program: thread " ++ threadText t ++ " scheduled while blocked"
  | unknownClass id => "inconsistent program: unknown class " ++ toString id
  | noLocal slot => "inconsistent program: no local slot " ++ toString slot
  | unknownStatic slot => "inconsistent program: unknown static " ++ toString slot
  | dangling h => "inconsistent program: dangling reference " ++ handleText h
  | noMonitor lock => "inconsistent program: no monitor " ++ lockText lock
  | notArithmetic op => "inconsistent program: " ++ opText op ++ " is not arithmetic"

end Defect

inductive Stop where
  | fault (f : Fault)
  | defect (d : Defect)
deriving DecidableEq

end Interleave
