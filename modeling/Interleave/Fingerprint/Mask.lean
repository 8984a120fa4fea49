import Interleave.Program.Basic

set_option autoImplicit false

namespace Interleave

structure FieldMask where
  filtered : List Bool
  refs : List Bool

def FieldMask.emits (m : FieldMask) (slot : Nat) : Bool := !(m.filtered[slot]?.getD false)

def FieldMask.isRef (m : FieldMask) (slot : Nat) : Bool := m.refs[slot]?.getD false

structure ClassMask where
  fields : FieldMask
  statics : FieldMask

structure Masks where
  classes : List ClassMask
  filteredMethods : List Bool

structure Filter where
  fields : List String
  methods : List String

inductive MaskError where
  | missingClass (id : ClassId)
  | missingMethod (id : MethodId)
  | unknownField (entry : String)
  | unknownMethod (name : String)
deriving DecidableEq

def MaskError.message : MaskError → String
  | missingClass id => "no field mask for class " ++ toString id
  | missingMethod id => "no frame mask for method " ++ toString id
  | unknownField entry => "filter names unknown field: " ++ entry
  | unknownMethod name => "filter names unknown method: " ++ name

namespace Filter

def splitEntry? (entry : String) : Option (String × String) :=
  let chars := entry.toList
  match chars.dropWhile (· ≠ '.') with
  | [] => none
  | _ :: field => some (String.ofList (chars.takeWhile (· ≠ '.')), String.ofList field)

def knowsField (p : Program) (entry : String) : Bool :=
  match splitEntry? entry with
  | none => false
  | some (owner, field) =>
    match p.classNamed? owner with
    | none => false
    | some decl => (decl.field? field).isSome || (decl.static? field).isSome

def firstUnknown? (p : Program) (filter : Filter) : Option MaskError :=
  match filter.fields.find? fun entry => !knowsField p entry with
  | some entry => some (.unknownField entry)
  | none =>
    match filter.methods.find? fun name => (p.methodNamed? name).isNone with
    | some name => some (.unknownMethod name)
    | none => none

def fieldMask (filter : Filter) (owner : String) (fields : List FieldDecl) : FieldMask where
  filtered := fields.map fun f => f.filtered || filter.fields.contains (owner ++ "." ++ f.name)
  refs := fields.map fun f => f.type = .ref

end Filter

namespace Masks

def ofProgram (p : Program) (filter : Filter) : Except MaskError Masks :=
  match filter.firstUnknown? p with
  | some e => .error e
  | none => .ok {
      classes := p.classes.map fun decl =>
        ⟨filter.fieldMask decl.name decl.fields, filter.fieldMask decl.name decl.statics⟩
      filteredMethods := p.methods.map fun m => m.filtered || filter.methods.contains m.name }

def ofClass (masks : Masks) (id : ClassId) : Except MaskError ClassMask :=
  match masks.classes[id]? with
  | some mask => .ok mask
  | none => .error (.missingClass id)

def isFilteredMethod (masks : Masks) (id : MethodId) : Except MaskError Bool :=
  match masks.filteredMethods[id]? with
  | some filtered => .ok filtered
  | none => .error (.missingMethod id)

end Masks

end Interleave
