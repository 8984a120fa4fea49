import Interleave.Source.Span

set_option autoImplicit false

namespace Interleave

inductive FieldType where
  | int
  | ref
deriving DecidableEq

inductive UnOp where
  | neg
  | not
deriving DecidableEq

inductive BinOp where
  | add | sub | mul | div | rem
  | eq | ne | lt | le | gt | ge
  | and | or
deriving DecidableEq

namespace Tree

abbrev Name := Located String

inductive Expr where
  | int (value : Int64)
  | null
  | name (name : Name)
  | member (object : Expr) (name : Name)
  | index (array index : Expr)
  | call (function : Name) (args : List Expr)
  | unary (op : UnOp) (operand : Expr)
  | binary (op : BinOp) (left right : Expr)

inductive Rvalue where
  | expr (e : Expr)
  | new (name : Name)
  | newArray (element : FieldType) (length : Expr)
  | newSet
  | newBag
  | choose (min max : Int64)

inductive Stmt where
  | assign (target : Expr) (value : Rvalue)
  | insert (collection item : Expr)
  | remove (collection item : Expr)
  | lock (target : Expr)
  | unlock (target : Expr)
  | assert (condition : Expr) (message : Option String)
  | ifGoto (condition : Expr) (label : Name)
  | goto (label : Name)
  | call (method : Name)
  | return
  | yield

inductive BodyKind where
  | method
  | thread
deriving DecidableEq

/-- A method or a thread. A label is kept with the number of statements before it. -/
structure Body where
  kind : BodyKind
  name : Name
  filtered : Bool
  statements : List (Located Stmt)
  labels : List (Name × Nat)

abbrev Initial := Located (Option Int64)

structure Field where
  name : Name
  type : FieldType
  filtered : Bool
  isStatic : Bool
  initial : Option Initial

structure Class where
  name : Name
  fields : List Field

structure Program where
  classes : List Class
  statics : List Field
  bodies : List Body
  invariants : List (Located Expr)

def Program.empty : Program := ⟨[], [], [], []⟩

def Program.isEmpty (p : Program) : Bool :=
  p.classes.isEmpty && p.statics.isEmpty && p.bodies.isEmpty && p.invariants.isEmpty

end Tree

end Interleave
