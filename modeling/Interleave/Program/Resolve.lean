import Interleave.Program.Basic
import Interleave.Source.Error
import Interleave.Source.Lexer
import Interleave.Text.Basic
import Interleave.Tree.Statement

set_option autoImplicit false

/-! A bare name is a top-level static when one is declared with that name, and otherwise a local
variable of its body, which takes the next slot at its first use. `Class.member` on a class with
declared slots is a static of that class. `Program.ofSource` reads a source text and resolves it. -/

namespace Interleave

structure Scope where
  classes : List ClassDecl
  methods : List String

/-- The local variables met so far; invariants are checked under a closed list. -/
structure Locals where
  names : List String
  closed : Bool

abbrev Resolve (α : Type) := StateT Locals (Except SourceError) α

namespace Resolve

def refuse {α : Type} (reason : Refusal) (span : Option Span) : Resolve α :=
  throw ⟨reason, span⟩

def slot (name : Tree.Name) : Resolve Nat := do
  let locals ← get
  match locals.names.findIdx? (· == name.value) with
  | some i => return i
  | none =>
    if locals.closed then
      refuse (.undefinedStatic name.value) name.span
    else
      set { locals with names := locals.names ++ [name.value] }
      return locals.names.length

end Resolve

namespace Scope

def mainStatic? (scope : Scope) (name : String) : Option Nat :=
  scope.classes.head?.bind (·.static? name)

def plainClass? (scope : Scope) (name : String) : Option ClassId :=
  match scope.classes.findIdx? (·.name == name) with
  | some id => if scope.classes[id]?.map (·.kind) = some .plain then some id else none
  | none => none

def member? (scope : Scope) (object : Tree.Expr) (member : Tree.Name) :
    Resolve (Option (ClassId × Nat)) := do
  match object with
  | .name owner =>
    match scope.plainClass? owner.value with
    | none => return none
    | some id =>
      match scope.classes[id]?.bind (·.static? member.value) with
      | some slot => return some (id, slot)
      | none => Resolve.refuse (.undefinedMember owner.value member.value) member.span
  | _ => return none

def builtin (function : Tree.Name) (args : List Expr) : Resolve Expr := do
  match function.value, args with
  | "len", [array] => return .len array
  | "size", [collection] => return .size collection
  | "contains", [collection, item] => return .contains collection item
  | "len", _ => Resolve.refuse (.wrongArity "len" 1) function.span
  | "size", _ => Resolve.refuse (.wrongArity "size" 1) function.span
  | "contains", _ => Resolve.refuse (.wrongArity "contains" 2) function.span
  | name, _ => Resolve.refuse (.unsupportedFunction name) function.span

mutual

def expr (scope : Scope) : Tree.Expr → Resolve Expr
  | .int value => return .int value
  | .null => return .null
  | .name name => do
    match scope.mainStatic? name.value with
    | some slot => return .staticVar mainClass slot
    | none => return .localVar (← Resolve.slot name)
  | .member object member => do
    match ← scope.member? object member with
    | some (id, slot) => return .staticVar id slot
    | none => return .field (← scope.expr object) member.value
  | .index array index => do
    let array ← scope.expr array
    return .index array (← scope.expr index)
  | .call function args => do builtin function (← scope.exprs args)
  | .unary op operand => return .unary op (← scope.expr operand)
  | .binary op left right => do
    let left ← scope.expr left
    return .binary op left (← scope.expr right)

def exprs (scope : Scope) : List Tree.Expr → Resolve (List Expr)
  | [] => return []
  | e :: rest => do
    let e ← scope.expr e
    return e :: (← scope.exprs rest)

end

def target (scope : Scope) (e : Tree.Expr) (span : Span) : Resolve Target := do
  match ← scope.expr e with
  | .localVar slot => return .localVar slot
  | .staticVar owner slot => return .staticVar owner slot
  | .field object name => return .field object name
  | .index array index => return .index array index
  | _ => Resolve.refuse .notAssignable span

def lockTarget (scope : Scope) (e : Tree.Expr) : Resolve LockTarget := do
  match e with
  | .name name =>
    match scope.plainClass? name.value with
    | some id => return .ofClass id
    | none => return .object (← scope.expr e)
  | _ => return .object (← scope.expr e)

def rvalue (scope : Scope) (span : Span) : Tree.Rvalue → Resolve Rvalue
  | .expr e => return .expr (← scope.expr e)
  | .new name => do
    match scope.plainClass? name.value with
    | some id => return .new id
    | none => Resolve.refuse (.undefinedClass name.value) name.span
  | .newArray .int length => return .newIntArray (← scope.expr length)
  | .newArray .ref length => return .newRefArray (← scope.expr length)
  | .newSet => return .newSet
  | .newBag => return .newBag
  | .choose min max => do
    if max < min then
      Resolve.refuse (.emptyRange min max) span
    else
      return .choose min max

def jump (labels : List (Tree.Name × Nat)) (label : Tree.Name) : Resolve Nat := do
  match labels.find? (·.1.value == label.value) with
  | some (_, pc) => return pc
  | none => Resolve.refuse (.undefinedLabel label.value) label.span

def method (scope : Scope) (name : Tree.Name) : Resolve MethodId := do
  match scope.methods.findIdx? (· == name.value) with
  | some id => return id
  | none => Resolve.refuse (.undefinedMethod name.value) name.span

/-- A statement; the right side of an assignment is resolved before its left side. -/
def stmt (scope : Scope) (labels : List (Tree.Name × Nat)) (span : Span) :
    Tree.Stmt → Resolve Stmt
  | .assign target value => do
    let value ← scope.rvalue span value
    return .assign (← scope.target target span) value
  | .insert collection item => do
    let collection ← scope.expr collection
    return .insert collection (← scope.expr item)
  | .remove collection item => do
    let collection ← scope.expr collection
    return .remove collection (← scope.expr item)
  | .lock target => return .lock (← scope.lockTarget target)
  | .unlock target => return .unlock (← scope.lockTarget target)
  | .assert condition message => return .assert (← scope.expr condition) message
  | .ifGoto condition label => do
    let condition ← scope.expr condition
    return .ifGoto condition (← jump labels label)
  | .goto label => return .goto (← jump labels label)
  | .call name => return .call (← scope.method name)
  | .return => return .return
  | .yield => return .yield

def stmts (scope : Scope) (labels : List (Tree.Name × Nat)) :
    List (Located Tree.Stmt) → Resolve (List (Located Stmt))
  | [] => return []
  | s :: rest => do
    let resolved ← scope.stmt labels s.span s.value
    return ⟨resolved, s.span⟩ :: (← scope.stmts labels rest)

end Scope

def firstRepeated? : List Tree.Name → List String → Option Tree.Name
  | [], _ => none
  | name :: rest, seen =>
    if name.value ∈ seen then some name else firstRepeated? rest (name.value :: seen)

def lineLabel (lines : List (List Char)) (span : Span) : String :=
  Text.trim (String.ofList (lines[span.startLine - 1]?.getD []))

def resolveBody (scope : Scope) (lines : List (List Char)) (body : Tree.Body) :
    Except SourceError MethodDecl := do
  if let some label := firstRepeated? (body.labels.map (·.1)) [] then
    throw ⟨.duplicateLabel label.value, label.span⟩
  let (statements, locals) ← (scope.stmts body.labels body.statements).run ⟨[], false⟩
  return {
    name := body.name.value
    filtered := body.filtered
    locals := locals.names
    body := statements
    labels := statements.map fun s => lineLabel lines s.span }

def resolveBodies (scope : Scope) (lines : List (List Char)) :
    List Tree.Body → Except SourceError (List MethodDecl)
  | [] => return []
  | body :: rest => do
    let method ← resolveBody scope lines body
    return method :: (← resolveBodies scope lines rest)

/-- A field with its starting value; a reference starts as `null`, which is written 0 here. -/
def fieldDecl (field : Tree.Field) : Except SourceError FieldDecl := do
  let initial ← match field.initial, field.type with
    | none, _ => pure 0
    | some ⟨some value, _⟩, .int => pure value
    | some ⟨none, _⟩, .ref => pure 0
    | some ⟨none, span⟩, .int => throw ⟨.intFieldNull field.name.value, span⟩
    | some ⟨some _, span⟩, .ref => throw ⟨.refFieldNotNull field.name.value, span⟩
  return ⟨field.name.value, field.type, field.filtered, initial⟩

def mainStatics : List Tree.Field → List FieldDecl → Except SourceError (List FieldDecl)
  | [], done => return done
  | field :: rest, done => do
    if (fieldIndex? done field.name.value).isSome then
      throw ⟨.duplicateStatic field.name.value, field.name.span⟩
    mainStatics rest (done ++ [← fieldDecl field])

def classFields (owner : String) :
    List Tree.Field → List String → ClassDecl → Except SourceError ClassDecl
  | [], _, decl => return decl
  | field :: rest, seen, decl => do
    if field.name.value ∈ seen then
      throw ⟨.duplicateField owner field.name.value, field.name.span⟩
    let resolved ← fieldDecl field
    let decl := if field.isStatic then { decl with statics := decl.statics ++ [resolved] }
      else { decl with fields := decl.fields ++ [resolved] }
    classFields owner rest (field.name.value :: seen) decl

def declareClasses : List Tree.Class → List ClassDecl → Except SourceError (List ClassDecl)
  | [], classes => return classes
  | c :: rest, classes => do
    if classes.any (·.name == c.name.value) then
      throw ⟨.duplicateClass c.name.value, c.name.span⟩
    let decl ← classFields c.name.value c.fields [] ⟨c.name.value, .plain, [], []⟩
    declareClasses rest (classes ++ [decl])

def resolveInvariants (scope : Scope) :
    List (Located Tree.Expr) → Except SourceError (List (Located Expr))
  | [] => return []
  | invariant :: rest => do
    let (condition, _) ← (scope.expr invariant.value).run ⟨[], true⟩
    return ⟨condition, invariant.span⟩ :: (← resolveInvariants scope rest)

def threadDecls (bodies : List Tree.Body) : List ThreadDecl :=
  bodies.zipIdx.filterMap fun (body, id) =>
    if body.kind = .thread then some ⟨body.name.value, id⟩ else none

namespace Program

def ofTree (path : String) (lines : List (List Char)) (tree : Tree.Program) :
    Except SourceError Program := do
  let statics ← mainStatics tree.statics []
  let builtin := builtinClasses.modifyHead fun main => { main with statics }
  let classes ← declareClasses tree.classes builtin
  let names := tree.bodies.map (·.name)
  if let some name := firstRepeated? names [] then
    throw ⟨.duplicateBody name.value, name.span⟩
  let scope : Scope := ⟨classes, names.map (·.value)⟩
  let methods ← resolveBodies scope lines tree.bodies
  let threads := threadDecls tree.bodies
  if threads.isEmpty then
    throw ⟨.noThread, none⟩
  let invariants ← resolveInvariants scope tree.invariants
  return { path, classes, methods, threads, invariants }

/-- Reads a source text. The path is only kept for messages and places. -/
def ofSource (source path : String) : Except SourceError Program := do
  let tree ← Tree.read (← Token.scan source)
  if tree.isEmpty then
    throw ⟨.emptyInput, none⟩
  ofTree path (Text.lines source) tree

end Program

end Interleave
