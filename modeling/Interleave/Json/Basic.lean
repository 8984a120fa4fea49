import Interleave.Text.Basic

set_option autoImplicit false

namespace Interleave

inductive Json where
  | null
  | bool (value : Bool)
  | int (value : Int)
  | str (value : String)
  | arr (items : List Json)
  | obj (members : List (String × Json))

namespace Json

def nat (n : Nat) : Json := int n

def ofOption {α : Type} (encode : α → Json) : Option α → Json
  | some a => encode a
  | none => null

def member? {α : Type} (key : String) (encode : α → Json) (a : Option α) : List (String × Json) :=
  (a.map fun a => (key, encode a)).toList

def escape (c : Char) : String :=
  if c = '"' then "\\\""
  else if c = '\\' then "\\\\"
  else if c.toNat = 8 then "\\b"
  else if c.toNat = 9 then "\\t"
  else if c.toNat = 10 then "\\n"
  else if c.toNat = 12 then "\\f"
  else if c.toNat = 13 then "\\r"
  else if c.toNat < 32 then "\\u00" ++ Text.hexByte (UInt8.ofNat c.toNat)
  else c.toString

def quote (s : String) : String := s.foldl (fun out c => out ++ escape c) "\"" ++ "\""

def leafText : Json → String
  | null => "null"
  | bool true => "true"
  | bool false => "false"
  | int n => toString n
  | str s => quote s
  | arr _ | obj _ => ""

structure Layout where
  lineBreak : Nat → String
  colon : String

def Layout.compact : Layout := ⟨fun _ => "", ":"⟩

def Layout.indented : Layout :=
  ⟨fun level => String.ofList ('\n' :: List.replicate (2 * level) ' '), ": "⟩

mutual

def write (layout : Layout) (level : Nat) (out : String) : Json → String
  | arr [] => out ++ "[]"
  | arr (item :: rest) =>
    let out := write layout (level + 1) (out ++ "[" ++ layout.lineBreak (level + 1)) item
    writeItems layout (level + 1) out rest ++ layout.lineBreak level ++ "]"
  | obj [] => out ++ "\x7b\x7d"
  | obj ((key, value) :: rest) =>
    let out := out ++ "\x7b" ++ layout.lineBreak (level + 1) ++ quote key ++ layout.colon
    let out := write layout (level + 1) out value
    writeMembers layout (level + 1) out rest ++ layout.lineBreak level ++ "\x7d"
  | leaf => out ++ leaf.leafText

def writeItems (layout : Layout) (level : Nat) (out : String) : List Json → String
  | [] => out
  | item :: rest =>
    writeItems layout level (write layout level (out ++ "," ++ layout.lineBreak level) item) rest

def writeMembers (layout : Layout) (level : Nat) (out : String) :
    List (String × Json) → String
  | [] => out
  | (key, value) :: rest =>
    let out := out ++ "," ++ layout.lineBreak level ++ quote key ++ layout.colon
    writeMembers layout level (write layout level out value) rest

end

def compact (j : Json) : String := j.write .compact 0 ""

def pretty (j : Json) : String := j.write .indented 0 ""

end Json

end Interleave
