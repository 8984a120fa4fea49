set_option autoImplicit false

namespace Interleave

structure Progress where
  cursor : Option Nat
  processed : Nat
  closed : Bool
  cascaded : Bool
deriving DecidableEq

namespace Progress

def start : Progress := ⟨none, 0, false, false⟩

def next (p : Progress) : Nat := p.cursor.elim 0 (· + 1)

def hasMore (p : Progress) (total : Nat) : Bool := !p.closed && p.next < total

def isDone (p : Progress) (total : Nat) : Bool := p.closed || total ≤ p.next

def advance (p : Progress) : Progress :=
  { p with cursor := some p.next, processed := p.processed + 1 }

def close (p : Progress) : Progress := { p with closed := true }

def reset (p : Progress) : Progress := { p with cursor := none, processed := 0, closed := false }

end Progress

end Interleave
