set_option autoImplicit false

namespace Interleave

/-- The first and the last character of a construct. Lines and columns count from one, without a
bound: no text is too long to be given places. -/
structure Span where
  startLine : Nat
  startCol : Nat
  endLine : Nat
  endCol : Nat
deriving DecidableEq

def Span.onLine (line first last : Nat) : Span := ⟨line, first, line, last⟩

def Span.upTo (first last : Span) : Span :=
  ⟨first.startLine, first.startCol, last.endLine, last.endCol⟩

structure Located (α : Type) where
  value : α
  span : Span
deriving DecidableEq

structure Place where
  path : String
  span : Span
deriving DecidableEq

end Interleave
