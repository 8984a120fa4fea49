import Interleave.Source.Error
import Interleave.Source.Token

set_option autoImplicit false

namespace Interleave.Tree

structure Cursor where
  rest : List Token
  last : Option Span

abbrev Reader (α : Type) := StateT Cursor (Except SourceError) α

namespace Reader

def refuse {α : Type} (reason : Refusal) (span : Option Span) : Reader α :=
  throw ⟨reason, span⟩

def remaining : Reader Nat := return (← get).rest.length

def peek : Reader (Option TokenKind) := return (← get).rest.head?.map (·.kind)

def peekSecond : Reader (Option TokenKind) := return (← get).rest[1]?.map (·.kind)

def peekSpan : Reader (Option Span) := return (← get).rest.head?.map (·.span)

def lastSpan (default : Span) : Reader Span := return (← get).last.getD default

def next : Reader (Option Token) := do
  match (← get).rest with
  | [] => return none
  | token :: rest =>
    set { rest, last := some token.span : Cursor }
    return some token

def accept (kind : TokenKind) : Reader Bool := do
  if (← peek) = some kind then
    let _ ← next
    return true
  else
    return false

def acceptSign (s : Sign) : Reader Bool := accept (.sign s)

def acceptWord (text : String) : Reader Bool := accept (.word text)

def expectSign (s : Sign) (what : Expected) : Reader Unit := do
  unless ← acceptSign s do
    refuse (.expected what) (← peekSpan)

def expectWord (what : Expected) : Reader (Located String) := do
  match ← next with
  | some ⟨.word text, span⟩ => return ⟨text, span⟩
  | token => refuse (.expected what) (token.map (·.span))

def expectInt (what : Expected) : Reader Int64 := do
  let negative ← acceptSign .minus
  match ← next with
  | some ⟨.int value, _⟩ =>
    return if negative then -Int64.ofNat value else Int64.ofNat value
  | token => refuse (.expected what) (token.map (·.span))

def expectLineEnd : Reader Unit := do
  unless ← accept .newline do
    unless (← peek) = some .eof do
      refuse (.expected .lineEnd) (← peekSpan)

def dropLineEnds : List Token → Option Span → Cursor
  | ⟨.newline, span⟩ :: rest, _ => dropLineEnds rest (some span)
  | rest, last => ⟨rest, last⟩

def skipLineEnds : Reader Unit := modify fun c => dropLineEnds c.rest c.last

end Reader

end Interleave.Tree
