import Interleave.Source.Error
import Interleave.Source.Token
import Interleave.Text.Basic
import Interleave.Text.Numeral

set_option autoImplicit false

/-! Each line is read on its own: blanks separate tokens, a comment runs from `#` or `//` to the end
of the line, and no token crosses a line. Words and digit runs are as long as they can be, and of
two signs the longer one is taken. -/

namespace Interleave

def startsWord (c : Char) : Bool := Text.isLetter c || c == '_'

def continuesWord (c : Char) : Bool := Text.isLetterOrNumeral c || c == '_'

def decimalValue (digits : List Char) : Nat :=
  digits.foldl (fun n c => 10 * n + (c.toNat - '0'.toNat)) 0

def maxLiteral : Nat := Nat.pow 2 63 - 1

/-- The token that starts at `c`, and how many characters after `c` belong to it. -/
def lexeme (line col : Nat) (c : Char) (rest : List Char) : Except SourceError (TokenKind × Nat) :=
  match rest.head?.bind (Sign.ofTwo? c) with
  | some sign => .ok (.sign sign, 1)
  | none =>
    match Sign.ofOne? c with
    | some sign => .ok (.sign sign, 0)
    | none =>
      if c.isDigit then
        let more := rest.takeWhile Char.isDigit
        let value := decimalValue (c :: more)
        if value ≤ maxLiteral then .ok (.int value, more.length)
        else .error ⟨.integerTooLarge (String.ofList (c :: more)),
          some (.onLine line col (col + more.length))⟩
      else if startsWord c then
        let more := rest.takeWhile continuesWord
        .ok (.word (String.ofList (c :: more)), more.length)
      else if c = '"' then
        let content := rest.takeWhile (· ≠ '"')
        if content.length < rest.length then
          .ok (.text (String.ofList content), content.length + 1)
        else .error ⟨.unterminatedText, some (.onLine line col (col + content.length))⟩
      else .error ⟨.unexpectedCharacter c, some (.onLine line col col)⟩

def startsComment (c : Char) (rest : List Char) : Bool :=
  c == '#' || (c == '/' && rest.head? == some '/')

def scanLine (line col : Nat) : List Char → Except SourceError (List Token)
  | [] => .ok [⟨.newline, .onLine line col col⟩]
  | c :: rest =>
    if Text.isBlank c then scanLine line (col + 1) rest
    else if startsComment c rest then
      let last := col + (rest.length + 1)
      .ok [⟨.newline, .onLine line last last⟩]
    else
      match lexeme line col c rest with
      | .error e => .error e
      | .ok (kind, more) =>
        match scanLine line (col + more + 1) (rest.drop more) with
        | .error e => .error e
        | .ok tokens => .ok (⟨kind, .onLine line col (col + more)⟩ :: tokens)
termination_by chars => chars.length
decreasing_by all_goals (simp only [List.length_drop, List.length_cons]; omega)

def scanLines (line : Nat) : List (List Char) → Except SourceError (List Token)
  | [] => .ok [⟨.eof, .onLine line 1 1⟩]
  | chars :: rest =>
    match scanLine line 1 chars with
    | .error e => .error e
    | .ok tokens =>
      match scanLines (line + 1) rest with
      | .error e => .error e
      | .ok more => .ok (tokens ++ more)

def Token.scan (source : String) : Except SourceError (List Token) :=
  scanLines 1 (Text.lines source)

end Interleave
