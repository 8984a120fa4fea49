set_option autoImplicit false

namespace Interleave.Text

/-- A character class is a list of closed code point ranges. -/
structure Ranges where
  bounds : List (Nat × Nat)

/-- Bounds, given by the lengths of the stretches outside and inside a class in turn. -/
def boundsFrom (start : Nat) : List Nat → List (Nat × Nat)
  | outside :: inside :: rest =>
    (start + outside, start + outside + inside - 1) :: boundsFrom (start + outside + inside) rest
  | _ => []

/-- The numbers that are packed into one, of no more than `digits` hexadecimal digits. Each digit
holds three bits of a number, the lowest ones first; a digit with its fourth bit set is followed by
another one of the same number. -/
def unpack : (digits : Nat) → (code : Nat) → List Nat
  | 0, _ => []
  | digits + 1, code =>
    if code = 0 then []
    else if code % 16 < 8 then code % 16 :: unpack digits (code / 16)
    else match unpack digits (code / 16) with
      | n :: rest => (code % 8 + 8 * n) :: rest
      | [] => []

def Ranges.ofCodes (codes : List Nat) : Ranges where
  bounds := boundsFrom 0 (codes.flatMap (unpack 96))

def Ranges.has (class_ : Ranges) (c : Char) : Bool :=
  class_.bounds.any fun range => range.1 ≤ c.toNat && c.toNat ≤ range.2

def whiteSpace : Ranges where
  bounds := [
    (0x9, 0xD), (0x20, 0x20), (0x85, 0x85), (0xA0, 0xA0), (0x1680, 0x1680), (0x2000, 0x200A),
    (0x2028, 0x2029), (0x202F, 0x202F), (0x205F, 0x205F), (0x3000, 0x3000)]

def isBlank (c : Char) : Bool := whiteSpace.has c

def trim (s : String) : String :=
  String.ofList (((s.toList.dropWhile isBlank).reverse.dropWhile isBlank).reverse)

def closeLine : List Char → List Char
  | '\r' :: rest => rest.reverse
  | line => line.reverse

/-- `linesFrom line rest` are the lines of `rest` when `line`, in reverse, is already read. -/
def linesFrom : List Char → List Char → List (List Char)
  | [], [] => []
  | line, [] => [line.reverse]
  | line, c :: rest =>
    if c = '\n' then closeLine line :: linesFrom [] rest else linesFrom (c :: line) rest

/-- A carriage return right before a line feed belongs to the line's end. What follows the last line
feed is a line of its own when it is not empty. -/
def lines (s : String) : List (List Char) := linesFrom [] s.toList

def digits? (chars : List Char) : Option Nat :=
  if chars.isEmpty || !chars.all Char.isDigit then none
  else some (chars.foldl (fun n c => 10 * n + (c.toNat - '0'.toNat)) 0)

def natural? (s : String) : Option Nat :=
  match s.toList with
  | '+' :: rest => digits? rest
  | chars => digits? chars

def integer? (s : String) : Option Int :=
  match s.toList with
  | '-' :: rest => (digits? rest).map fun n => -(n : Int)
  | _ => (natural? s).map Int.ofNat

def padded (width n : Nat) : String :=
  let ds := (toString n).toList
  String.ofList (List.replicate (width - ds.length) '0' ++ ds)

def hex (n : Nat) : String := String.ofList (Nat.toDigits 16 n)

def hexByte (b : UInt8) : String :=
  String.ofList [Nat.digitChar (b.toNat / 16), Nat.digitChar (b.toNat % 16)]

def hexBytes (bytes : ByteArray) : String :=
  bytes.foldl (fun text b => text ++ hexByte b) ""

end Interleave.Text
