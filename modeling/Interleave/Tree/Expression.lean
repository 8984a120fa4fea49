import Interleave.Tree.Basic
import Interleave.Tree.Cursor

set_option autoImplicit false

/-! From loosest to tightest: `||`, `&&`, comparison, `+` and `-`, `*` `/` `%`, the prefix signs `!`
and `-`, then member access and indexing. Comparison does not chain; the other binary levels group
to the left. Each level is a reader over the reader of a whole expression, which is needed again
inside brackets, so the depth of brackets bounds the recursion. -/

namespace Interleave.Tree

open Reader

def orOp? : Sign → Option BinOp
  | .either => some .or
  | _ => none

def andOp? : Sign → Option BinOp
  | .both => some .and
  | _ => none

def comparison? : Sign → Option BinOp
  | .eq => some .eq
  | .ne => some .ne
  | .lt => some .lt
  | .le => some .le
  | .gt => some .gt
  | .ge => some .ge
  | _ => none

def sumOp? : Sign → Option BinOp
  | .plus => some .add
  | .minus => some .sub
  | _ => none

def productOp? : Sign → Option BinOp
  | .star => some .mul
  | .slash => some .div
  | .percent => some .rem
  | _ => none

def acceptOp (op? : Sign → Option BinOp) : Reader (Option BinOp) := do
  match ← peek with
  | some (.sign s) =>
    match op? s with
    | some op =>
      let _ ← next
      return some op
    | none => return none
  | _ => return none

def moreOperands (op? : Sign → Option BinOp) (operand : Reader Expr) : Nat → Expr → Reader Expr
  | 0, left => return left
  | fuel + 1, left => do
    match ← acceptOp op? with
    | none => return left
    | some op => moreOperands op? operand fuel (.binary op left (← operand))

def chain (op? : Sign → Option BinOp) (operand : Reader Expr) : Reader Expr := do
  let left ← operand
  moreOperands op? operand (← remaining) left

def comparison (operand : Reader Expr) : Reader Expr := do
  let left ← operand
  match ← acceptOp comparison? with
  | none => return left
  | some op => return .binary op left (← operand)

/-- The bound of this and the loops below never cuts a reading short: each round takes a token, and
without tokens a round does what stands for no rounds left. -/
def moreArgs (expr : Reader Expr) : Nat → Reader (List Expr)
  | 0 => do
    let _ ← expr
    refuse (.expected .commaOrParen) (← peekSpan)
  | fuel + 1 => do
    let arg ← expr
    if ← acceptSign .closeParen then
      return [arg]
    else
      expectSign .comma .commaOrParen
      return arg :: (← moreArgs expr fuel)

def args (expr : Reader Expr) : Reader (List Expr) := do
  if ← acceptSign .closeParen then
    return []
  else
    moreArgs expr (← remaining)

def atom (expr : Reader Expr) : Reader Expr := do
  match ← next with
  | some ⟨.int value, _⟩ => return .int (Int64.ofNat value)
  | some ⟨.word "null", _⟩ => return .null
  | some ⟨.word "true", _⟩ => return .int 1
  | some ⟨.word "false", _⟩ => return .int 0
  | some ⟨.word text, span⟩ =>
    if ← acceptSign .openParen then
      return .call ⟨text, span⟩ (← args expr)
    else
      return .name ⟨text, span⟩
  | some ⟨.sign .openParen, _⟩ =>
    let inner ← expr
    expectSign .closeParen .closingParen
    return inner
  | token => refuse (.expected .expression) (token.map (·.span))

def moreSelectors (expr : Reader Expr) : Nat → Expr → Reader Expr
  | 0, base => return base
  | fuel + 1, base => do
    if ← acceptSign .dot then
      let name ← expectWord .fieldAfterDot
      moreSelectors expr fuel (.member base name)
    else if ← acceptSign .openBracket then
      let index ← expr
      expectSign .closeBracket .closingBracket
      moreSelectors expr fuel (.index base index)
    else
      return base

def selection (expr : Reader Expr) : Reader Expr := do
  let base ← atom expr
  moreSelectors expr (← remaining) base

/-- Prefix signs before a selection; a minus sign right before a literal belongs to the literal. -/
def signed (operand : Reader Expr) : Nat → Reader Expr
  | 0 => operand
  | fuel + 1 => do
    if ← acceptSign .bang then
      return .unary .not (← signed operand fuel)
    else if ← acceptSign .minus then
      match ← peek with
      | some (.int value) =>
        let _ ← next
        return .int (-Int64.ofNat value)
      | _ => return .unary .neg (← signed operand fuel)
    else
      operand

def levels (expr : Reader Expr) : Reader Expr :=
  let factor : Reader Expr := do signed (selection expr) (← remaining)
  chain orOp? (chain andOp? (comparison (chain sumOp? (chain productOp? factor))))

def expressionWithin : Nat → Reader Expr
  | 0 => do refuse (.expected .expression) (← peekSpan)
  | depth + 1 => levels (expressionWithin depth)

/-- An expression. Each bracket takes a token, so the tokens left bound the nesting. -/
def expression : Reader Expr := do expressionWithin ((← remaining) + 1)

def selectionWithBrackets : Reader Expr := do selection (expressionWithin ((← remaining) + 1))

end Interleave.Tree
