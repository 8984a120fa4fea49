import Interleave.Json.Basic
import Interleave.Program.Basic

set_option autoImplicit false

namespace Interleave

def Span.text (s : Span) : String :=
  toString s.startLine ++ ":" ++ toString s.startCol ++ "-" ++ toString s.endLine ++ ":"
    ++ toString s.endCol

def FieldType.text : FieldType → String
  | int => "int"
  | ref => "ref"

def UnOp.word : UnOp → String
  | neg => "neg"
  | not => "not"

def BinOp.sign : BinOp → String
  | add => "+" | sub => "-" | mul => "*" | div => "/" | rem => "%"
  | eq => "==" | ne => "!=" | lt => "<" | le => "<=" | gt => ">" | ge => ">="
  | and => "&&" | or => "||"

def bracketed (head : String) (parts : List String) : String :=
  "(" ++ " ".intercalate (head :: parts) ++ ")"

def Expr.listing : Expr → String
  | .int value => toString value.toInt
  | .null => "null"
  | .localVar slot => bracketed "local" [toString slot]
  | .staticVar owner slot => bracketed "static" [toString owner, toString slot]
  | .field object name => bracketed "field" [object.listing, name]
  | .index a i => bracketed "index" [a.listing, i.listing]
  | .len e => bracketed "len" [e.listing]
  | .size e => bracketed "size" [e.listing]
  | .contains c i => bracketed "contains" [c.listing, i.listing]
  | .unary op e => bracketed op.word [e.listing]
  | .binary op a b => bracketed op.sign [a.listing, b.listing]

def Target.listing : Target → String
  | .localVar slot => (Expr.localVar slot).listing
  | .staticVar owner slot => (Expr.staticVar owner slot).listing
  | .field object name => (Expr.field object name).listing
  | .index a i => (Expr.index a i).listing

def Rvalue.listing : Rvalue → String
  | .expr e => e.listing
  | .new id => bracketed "new" [toString id]
  | .newIntArray n => bracketed "newints" [n.listing]
  | .newRefArray n => bracketed "newrefs" [n.listing]
  | .newSet => bracketed "newset" []
  | .newBag => bracketed "newbag" []
  | .choose min max => bracketed "choose" [toString min.toInt, toString max.toInt]

def LockTarget.listing : LockTarget → String
  | .ofClass id => bracketed "class" [toString id]
  | .object e => e.listing

def Stmt.json : Stmt → Json
  | .assign target value => .arr [.str "assign", .str target.listing, .str value.listing]
  | .insert c i => .arr [.str "add", .str c.listing, .str i.listing]
  | .remove c i => .arr [.str "remove", .str c.listing, .str i.listing]
  | .lock l => .arr [.str "lock", .str l.listing]
  | .unlock l => .arr [.str "unlock", .str l.listing]
  | .assert e message => .arr [.str "assert", .str e.listing, .ofOption .str message]
  | .ifGoto e pc => .arr [.str "if", .str e.listing, .nat pc]
  | .goto pc => .arr [.str "goto", .nat pc]
  | .call method => .arr [.str "call", .nat method]
  | .return => .arr [.str "return"]
  | .yield => .arr [.str "yield"]

def FieldDecl.json (f : FieldDecl) : Json :=
  .arr [.str f.name, .str f.type.text, .bool f.filtered, .str (toString f.initial.toInt)]

def ClassDecl.json (c : ClassDecl) (id : ClassId) : Json := .obj [
  ("id", .nat id),
  ("name", .str c.name),
  ("fields", .arr (c.fields.map (·.json))),
  ("statics", .arr (c.statics.map (·.json)))]

def MethodDecl.json (m : MethodDecl) (id : MethodId) : Json := .obj [
  ("id", .nat id),
  ("name", .str m.name),
  ("filtered", .bool m.filtered),
  ("locals", .arr (m.locals.map .str)),
  ("body", .arr ((m.body.zip m.labels).map fun (s, label) => .obj [
    ("stmt", s.value.json),
    ("span", .str s.span.text),
    ("label", .str label),
    ("choice", .bool s.value.choice?.isSome)]))]

def Program.json (p : Program) : Json := .obj [
  ("path", .str p.path),
  ("classes", .arr (p.classes.zipIdx.filterMap fun (c, id) =>
    if c.kind = .plain then some (c.json id) else none)),
  ("methods", .arr (p.methods.mapIdx fun id m => m.json id)),
  ("threads", .arr (p.threads.map fun t => .arr [.str t.name, .nat t.entry])),
  ("invariants", .arr (p.invariants.map fun e =>
    .arr [.str e.value.listing, .str e.span.text])),
  ("statements", .nat p.statementCount)]

end Interleave
