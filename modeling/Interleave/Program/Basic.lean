import Interleave.Tree.Basic

set_option autoImplicit false

namespace Interleave

/-- Classes, methods and threads are known by their positions in the tables of a program and carry
no number of their own. -/
abbrev ClassId := Nat

abbrev MethodId := Nat

abbrev ThreadId := Nat

structure FieldDecl where
  name : String
  type : FieldType
  filtered : Bool
  initial : Int64
deriving DecidableEq

inductive ClassKind where
  | plain
  | intArray
  | refArray
  | set
  | bag
deriving DecidableEq

structure ClassDecl where
  name : String
  kind : ClassKind
  fields : List FieldDecl
  statics : List FieldDecl
deriving DecidableEq

def fieldIndex? (fields : List FieldDecl) (name : String) : Option Nat :=
  fields.findIdx? (·.name == name)

def ClassDecl.field? (c : ClassDecl) (name : String) : Option Nat := fieldIndex? c.fields name

def ClassDecl.static? (c : ClassDecl) (name : String) : Option Nat := fieldIndex? c.statics name

inductive Expr where
  | int (value : Int64)
  | null
  | localVar (slot : Nat)
  | staticVar (owner : ClassId) (slot : Nat)
  | field (object : Expr) (name : String)
  | index (array index : Expr)
  | len (array : Expr)
  | size (collection : Expr)
  | contains (collection item : Expr)
  | unary (op : UnOp) (operand : Expr)
  | binary (op : BinOp) (left right : Expr)
deriving DecidableEq

inductive Target where
  | localVar (slot : Nat)
  | staticVar (owner : ClassId) (slot : Nat)
  | field (object : Expr) (name : String)
  | index (array index : Expr)
deriving DecidableEq

inductive Rvalue where
  | expr (e : Expr)
  | new (id : ClassId)
  | newIntArray (length : Expr)
  | newRefArray (length : Expr)
  | newSet
  | newBag
  | choose (min max : Int64)
deriving DecidableEq

inductive LockTarget where
  | ofClass (id : ClassId)
  | object (e : Expr)
deriving DecidableEq

inductive Stmt where
  | assign (target : Target) (value : Rvalue)
  | insert (collection item : Expr)
  | remove (collection item : Expr)
  | lock (target : LockTarget)
  | unlock (target : LockTarget)
  | assert (condition : Expr) (message : Option String)
  | ifGoto (condition : Expr) (target : Nat)
  | goto (target : Nat)
  | call (method : MethodId)
  | return
  | yield
deriving DecidableEq

def Stmt.choice? : Stmt → Option (Int64 × Int64)
  | .assign _ (.choose min max) => some (min, max)
  | _ => none

def Stmt.makesCollection : Stmt → Bool
  | .assign _ .newSet | .assign _ .newBag => true
  | _ => false

/-- A method; each statement has a label, its line of the text. -/
structure MethodDecl where
  name : String
  filtered : Bool
  locals : List String
  body : List (Located Stmt)
  labels : List String
deriving DecidableEq

structure ThreadDecl where
  name : String
  entry : MethodId
deriving DecidableEq

structure Program where
  path : String
  classes : List ClassDecl
  methods : List MethodDecl
  threads : List ThreadDecl
  invariants : List (Located Expr)
deriving DecidableEq

def mainClass : ClassId := 0
def intArrayClass : ClassId := 1
def refArrayClass : ClassId := 2
def setClass : ClassId := 3
def bagClass : ClassId := 4

def builtinClasses : List ClassDecl :=
  [⟨"Main", .plain, [], []⟩, ⟨"int[]", .intArray, [], []⟩, ⟨"ref[]", .refArray, [], []⟩,
    ⟨"set", .set, [], []⟩, ⟨"bag", .bag, [], []⟩]

namespace Program

def classNamed? (p : Program) (name : String) : Option ClassDecl :=
  p.classes.find? (·.name == name)

def methodNamed? (p : Program) (name : String) : Option MethodDecl :=
  p.methods.find? (·.name == name)

def statementCount (p : Program) : Nat := p.methods.foldr (fun m n => m.body.length + n) 0

def makesCollections (p : Program) : Bool :=
  p.methods.any fun m => m.body.any (·.value.makesCollection)

def statement? (p : Program) (method : MethodId) (pc : Nat) : Option (Located Stmt) :=
  p.methods[method]?.bind (·.body[pc]?)

def label (p : Program) (method : MethodId) (pc : Nat) : String :=
  ((p.methods[method]?.bind (·.labels[pc]?))).getD ""

def bodyLength (p : Program) (method : MethodId) : Nat :=
  (p.methods[method]?.map (·.body.length)).getD 0

end Program

end Interleave
