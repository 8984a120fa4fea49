set_option autoImplicit false

namespace Interleave.Json

inductive Flaw where
  | syntactic
  | ending
  | data
deriving DecidableEq

def Flaw.text : Flaw → String
  | syntactic => "syntax"
  | ending => "eof"
  | data => "data"

abbrev Reader (α : Type) := StateT (List Char) (Except Flaw) α

def isSpace (c : Char) : Bool := c = ' ' || c = '\n' || c = '\t' || c = '\r'

def hexDigit? (c : Char) : Option Nat :=
  if '0' ≤ c ∧ c ≤ '9' then some (c.toNat - '0'.toNat)
  else if 'a' ≤ c ∧ c ≤ 'f' then some (c.toNat - 'a'.toNat + 10)
  else if 'A' ≤ c ∧ c ≤ 'F' then some (c.toNat - 'A'.toNat + 10)
  else none

def hexDigits? (a b c d : Char) : Option Nat := do
  return (((← hexDigit? a) * 16 + (← hexDigit? b)) * 16 + (← hexDigit? c)) * 16 + (← hexDigit? d)

/-- What is wrong where four hexadecimal digits are wanted: the text ends if fewer than four bytes
are left. -/
def hexFlaw (rest : List Char) : Flaw :=
  if (rest.take 4).foldr (fun c n => c.utf8Size + n) 0 < 4 then .ending else .syntactic

def escaped? : Char → Option Char
  | '"' => some '"'
  | '\\' => some '\\'
  | '/' => some '/'
  | 'b' => some (Char.ofNat 8)
  | 'f' => some (Char.ofNat 12)
  | 'n' => some '\n'
  | 'r' => some '\r'
  | 't' => some '\t'
  | _ => none

def isLeading (n : Nat) : Bool := 0xD800 ≤ n && n ≤ 0xDBFF

def isTrailing (n : Nat) : Bool := 0xDC00 ≤ n && n ≤ 0xDFFF

def pair (n m : Nat) : Char := Char.ofNat (0x10000 + (n - 0xD800) * 0x400 + (m - 0xDC00))

def textAfter (read : List Char) : List Char → Except Flaw (String × List Char)
  | [] | ['\\'] => .error .ending
  | '"' :: rest => .ok (String.ofList read.reverse, rest)
  | '\\' :: 'u' :: a :: b :: c :: d :: rest =>
    match hexDigits? a b c d with
    | none => .error .syntactic
    | some n =>
      if isTrailing n then .error .syntactic
      else if isLeading n then
        match rest with
        | [] | ['\\'] => .error .ending
        | '\\' :: 'u' :: e :: f :: g :: h :: rest =>
          match hexDigits? e f g h with
          | none => .error .syntactic
          | some m =>
            if isTrailing m then textAfter (pair n m :: read) rest else .error .syntactic
        | '\\' :: 'u' :: rest => .error (hexFlaw rest)
        | _ => .error .syntactic
      else textAfter (Char.ofNat n :: read) rest
  | '\\' :: 'u' :: rest => .error (hexFlaw rest)
  | '\\' :: c :: rest =>
    match escaped? c with
    | none => .error .syntactic
    | some c => textAfter (c :: read) rest
  | c :: rest => if c.toNat < 32 then .error .syntactic else textAfter (c :: read) rest

inductive Number where
  | word (n : UInt64)
  | other

def float (significand : Nat) (exponent : Int) : Except Flaw Number :=
  if significand = 0 ∨ exponent < 0 then .ok .other
  else if 308 < exponent then .error .syntactic
  else if ((UInt64.ofNat significand).toFloat * Float.ofScientific 1 false exponent.toNat).isInf then
    .error .syntactic
  else .ok .other

def digits (chars : List Char) : List Char × List Char :=
  (chars.takeWhile Char.isDigit, chars.dropWhile Char.isDigit)

def extend (significand : Nat) : List Char → Nat × Nat
  | [] => (significand, 0)
  | c :: rest =>
    let longer := significand * 10 + (c.toNat - '0'.toNat)
    if longer < Nat.pow 2 64 then
      let (n, used) := extend longer rest
      (n, used + 1)
    else (significand, 0)

def maxExponent : Nat := Nat.pow 2 31 - 1

def exponentAfter (significand : Nat) (exponent : Int) (chars : List Char) :
    Except Flaw (Number × List Char) :=
  let (negative, chars) := match chars with
    | '+' :: rest => (false, rest)
    | '-' :: rest => (true, rest)
    | _ => (false, chars)
  match digits chars with
  | ([], []) => .error .ending
  | ([], _) => .error .syntactic
  | (ds, rest) =>
    let value := ds.foldl (fun n c => n * 10 + (c.toNat - '0'.toNat)) 0
    if maxExponent < value then
      if significand ≠ 0 ∧ !negative then .error .syntactic else .ok (.other, rest)
    else
      (float significand (if negative then exponent - value else exponent + value)).map (·, rest)

def exponentPart (significand : Nat) (exponent : Int) :
    List Char → Except Flaw (Number × List Char)
  | 'e' :: rest | 'E' :: rest => exponentAfter significand exponent rest
  | rest => (float significand exponent).map (·, rest)

def fractionAfter (significand : Nat) (exponent : Int) (chars : List Char) :
    Except Flaw (Number × List Char) :=
  match digits chars with
  | ([], []) => .error .ending
  | ([], _) => .error .syntactic
  | (ds, rest) =>
    let (significand, used) := extend significand ds
    exponentPart significand (exponent - used) rest

def longNumber (significand dropped : Nat) : List Char → Except Flaw (Number × List Char)
  | '.' :: rest => fractionAfter significand dropped rest
  | rest => exponentPart significand dropped rest

def numberAt (negative : Bool) (chars : List Char) : Except Flaw (Number × List Char) :=
  match digits chars with
  | ([], []) => .error .ending
  | ([], _) => .error .syntactic
  | ('0' :: _ :: _, _) => .error .syntactic
  | (ds, rest) =>
    let (significand, used) := extend 0 ds
    if used < ds.length then longNumber significand (ds.length - used) rest
    else
      match rest with
      | '.' :: rest => fractionAfter significand 0 rest
      | 'e' :: rest | 'E' :: rest => exponentAfter significand 0 rest
      | rest => .ok (if negative then .other else .word (UInt64.ofNat significand), rest)

namespace Reader

def flaw {α : Type} (f : Flaw) : Reader α := fun _ => .error f

def peek : Reader (Option Char) := do
  modify (·.dropWhile isSpace)
  return (← get).head?

def peekSome : Reader Char := do
  match ← peek with
  | some c => return c
  | none => flaw .ending

def skip : Reader Unit := modify (·.drop 1)

def word : List Char → Reader Unit
  | [] => return
  | c :: rest => do
    match ← get with
    | [] => flaw .ending
    | d :: chars =>
      set chars
      if c = d then word rest else flaw .syntactic

def after {α : Type} (f : List Char → Except Flaw (α × List Char)) : Reader α := fun chars =>
  f chars

def wrongKind {α : Type} : Reader α := do
  match (← get).head?.getD '\x00' with
  | 'n' => skip; word ['u', 'l', 'l']; flaw .data
  | 't' => skip; word ['r', 'u', 'e']; flaw .data
  | 'f' => skip; word ['a', 'l', 's', 'e']; flaw .data
  | '-' => skip; let _ ← after (numberAt true); flaw .data
  | '"' => skip; let _ ← after (textAfter []); flaw .data
  | '[' | '\x7b' => flaw .data
  | c =>
    if c.isDigit then
      let _ ← after (numberAt false)
      flaw .data
    else flaw .syntactic

def text : Reader String := do
  if (← peekSome) = '"' then
    skip
    after (textAfter [])
  else wrongKind

def bool : Reader Bool := do
  match ← peekSome with
  | 't' => skip; word ['r', 'u', 'e']; return true
  | 'f' => skip; word ['a', 'l', 's', 'e']; return false
  | _ => wrongKind

def word64 : Reader UInt64 := do
  let c ← peekSome
  if c = '-' then
    skip
    let _ ← after (numberAt true)
    flaw .data
  else if c.isDigit then
    match ← after (numberAt false) with
    | .word n => return n
    | .other => flaw .data
  else wrongKind

def word32 : Reader Nat := do
  let n ← word64
  if n.toNat < Nat.pow 2 32 then return n.toNat else flaw .data

def optional {α : Type} (value : Reader α) : Reader (Option α) := do
  if (← peek) = some 'n' then
    skip
    word ['u', 'l', 'l']
    return none
  else return some (← value)

def unit : Reader Unit := do
  if (← peekSome) = 'n' then
    skip
    word ['u', 'l', 'l']
  else wrongKind

def colon : Reader Unit := do
  if (← peekSome) = ':' then skip else flaw .syntactic

/-- One of several names, by itself or as the key of an object that holds `null`. -/
def variant {α : Type} (names : List (String × α)) : Reader α := do
  let name : Reader α := do
    match names.lookup (← text) with
    | some a => return a
    | none => flaw .data
  match ← peekSome with
  | '"' => name
  | '\x7b' =>
    skip
    let a ← if (← peekSome) = '"' then name else flaw .syntactic
    colon
    unit
    if (← peekSome) = '\x7d' then
      skip
      return a
    else flaw .syntactic
  | _ => flaw .syntactic

def anotherItem (first : Bool) : Reader Bool := do
  match ← peekSome with
  | ']' => return false
  | ',' =>
    if first then return true
    skip
    if (← peekSome) = ']' then flaw .syntactic else return true
  | _ => if first then return true else flaw .syntactic

def anotherMember (first : Bool) : Reader Bool := do
  let key : Reader Bool := do
    if (← peekSome) = '"' then return true else flaw .syntactic
  match ← peekSome with
  | '\x7d' => return false
  | ',' =>
    if first then flaw .syntactic
    skip
    key
  | _ => if first then key else flaw .syntactic

def close (bracket : Char) : Reader Unit := do
  if (← peekSome) = bracket then skip else flaw .syntactic

def textsWithin (first : Bool) (read : List String) : Nat → Reader (List String)
  | 0 => flaw .ending
  | fuel + 1 => do
    if ← anotherItem first then
      textsWithin false (read ++ [← text]) fuel
    else
      close ']'
      return read

def texts : Reader (List String) := do
  if (← peekSome) = '[' then
    skip
    textsWithin true [] ((← get).length + 1)
  else wrongKind

def readAll {α : Type} (reader : Reader α) (source : String) : Except Flaw α := do
  let (a, rest) ← reader.run source.toList
  if rest.all isSpace then return a else .error .syntactic

end Reader

end Interleave.Json
