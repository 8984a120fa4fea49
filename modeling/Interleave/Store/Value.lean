import Interleave.Program.Basic

set_option autoImplicit false

namespace Interleave

/-- Handles, like the counts of monitors, are not bounded by a machine word. -/
abbrev Handle := Nat

def handleText (h : Handle) : String := "@" ++ toString h

def threadText (t : ThreadId) : String := "#" ++ toString t

inductive Value where
  | int (value : Int64)
  | ref (handle : Handle)
  | null
deriving DecidableEq

namespace Value

def handle? : Value → Option Handle
  | ref handle => some handle
  | _ => none

def isReference : Value → Bool
  | int _ => false
  | _ => true

def isTrue : Value → Bool
  | int value => value ≠ 0
  | ref _ => true
  | null => false

def ofBool (b : Bool) : Value := int (if b then 1 else 0)

def fits : Value → FieldType → Bool
  | int _, .int => true
  | ref _, .ref => true
  | null, .ref => true
  | _, _ => false

def text : Value → String
  | int value => toString value.toInt
  | ref handle => handleText handle
  | null => "null"

end Value

def FieldDecl.start (f : FieldDecl) : Value :=
  match f.type with
  | .int => .int f.initial
  | .ref => .null

structure Monitor where
  owner : Option ThreadId
  count : Nat
deriving DecidableEq

namespace Monitor

def free : Monitor := ⟨none, 0⟩

def isFreeFor (m : Monitor) (t : ThreadId) : Bool := m.owner = none || m.owner = some t

def enter (m : Monitor) (t : ThreadId) : Monitor := ⟨some t, m.count + 1⟩

def leave (m : Monitor) : Monitor :=
  if m.count - 1 = 0 then ⟨none, 0⟩ else { m with count := m.count - 1 }

end Monitor

end Interleave
