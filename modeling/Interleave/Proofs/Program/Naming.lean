import Interleave.Program.Resolve
import Interleave.Proofs.Tree.Order

set_option autoImplicit false

/-! What the names of a text stand for is said here by relations between parsed and resolved
programs that look at declarations only. -/

namespace Interleave

namespace Scope

def IsClass (scope : Scope) (name : String) (id : ClassId) : Prop :=
  ∃ decl, scope.classes[id]? = some decl ∧ decl.kind = .plain ∧ decl.name = name

def IsStatic (scope : Scope) (id : ClassId) (name : String) (slot : Nat) : Prop :=
  ∃ decl field, scope.classes[id]? = some decl ∧ decl.statics[slot]? = some field ∧
    field.name = name

end Scope

def Scope.NamesClass (scope : Scope) (e : Tree.Expr) : Prop :=
  ∃ name id, e = .name name ∧ scope.IsClass name.value id

/-- The expression that a parsed expression stands for in a body with these local variables. -/
inductive Scope.Denotes (scope : Scope) (locals : List String) : Tree.Expr → Expr → Prop where
  | int (value : Int64) : Denotes scope locals (.int value) (.int value)
  | null : Denotes scope locals .null .null
  | static {name : Tree.Name} {slot : Nat} (h : scope.IsStatic mainClass name.value slot) :
      Denotes scope locals (.name name) (.staticVar mainClass slot)
  | localVar {name : Tree.Name} {slot : Nat}
      (hstatic : ∀ slot, ¬ scope.IsStatic mainClass name.value slot)
      (h : locals[slot]? = some name.value) : Denotes scope locals (.name name) (.localVar slot)
  | classMember {owner member : Tree.Name} {id : ClassId} {slot : Nat}
      (hclass : scope.IsClass owner.value id) (h : scope.IsStatic id member.value slot) :
      Denotes scope locals (.member (.name owner) member) (.staticVar id slot)
  | field {object : Tree.Expr} {object' : Expr} {member : Tree.Name}
      (hclass : ¬ scope.NamesClass object) (h : Denotes scope locals object object') :
      Denotes scope locals (.member object member) (.field object' member.value)
  | index {array index : Tree.Expr} {array' index' : Expr} (ha : Denotes scope locals array array')
      (hi : Denotes scope locals index index') :
      Denotes scope locals (.index array index) (.index array' index')
  | len {function : Tree.Name} {e : Tree.Expr} {e' : Expr} (hname : function.value = "len")
      (h : Denotes scope locals e e') : Denotes scope locals (.call function [e]) (.len e')
  | size {function : Tree.Name} {e : Tree.Expr} {e' : Expr} (hname : function.value = "size")
      (h : Denotes scope locals e e') : Denotes scope locals (.call function [e]) (.size e')
  | contains {function : Tree.Name} {collection item : Tree.Expr} {collection' item' : Expr}
      (hname : function.value = "contains") (hc : Denotes scope locals collection collection')
      (hi : Denotes scope locals item item') :
      Denotes scope locals (.call function [collection, item]) (.contains collection' item')
  | unary (op : UnOp) {e : Tree.Expr} {e' : Expr} (h : Denotes scope locals e e') :
      Denotes scope locals (.unary op e) (.unary op e')
  | binary (op : BinOp) {left right : Tree.Expr} {left' right' : Expr}
      (hl : Denotes scope locals left left') (hr : Denotes scope locals right right') :
      Denotes scope locals (.binary op left right) (.binary op left' right')

inductive Scope.DenotesRvalue (scope : Scope) (locals : List String) :
    Tree.Rvalue → Rvalue → Prop where
  | expr {e : Tree.Expr} {e' : Expr} (h : scope.Denotes locals e e') :
      DenotesRvalue scope locals (.expr e) (.expr e')
  | new {name : Tree.Name} {id : ClassId} (h : scope.IsClass name.value id) :
      DenotesRvalue scope locals (.new name) (.new id)
  | newIntArray {length : Tree.Expr} {length' : Expr} (h : scope.Denotes locals length length') :
      DenotesRvalue scope locals (.newArray .int length) (.newIntArray length')
  | newRefArray {length : Tree.Expr} {length' : Expr} (h : scope.Denotes locals length length') :
      DenotesRvalue scope locals (.newArray .ref length) (.newRefArray length')
  | newSet : DenotesRvalue scope locals .newSet .newSet
  | newBag : DenotesRvalue scope locals .newBag .newBag
  | choose {min max : Int64} (h : min ≤ max) :
      DenotesRvalue scope locals (.choose min max) (.choose min max)

inductive Scope.Locks (scope : Scope) (locals : List String) :
    Tree.Expr → LockTarget → Prop where
  | ofClass {name : Tree.Name} {id : ClassId} (h : scope.IsClass name.value id) :
      Locks scope locals (.name name) (.ofClass id)
  | object {e : Tree.Expr} {e' : Expr} (hclass : ¬ scope.NamesClass e)
      (h : scope.Denotes locals e e') : Locks scope locals e (.object e')

def Target.expr : Target → Expr
  | .localVar slot => .localVar slot
  | .staticVar owner slot => .staticVar owner slot
  | .field object name => .field object name
  | .index array i => .index array i

def Tree.Body.LabelAt (body : Tree.Body) (name : String) (pc : Nat) : Prop :=
  ∃ label ∈ body.labels.map (·.1), label.value = name ∧ pc = body.statementsBefore label.span

/-- The statement that a parsed statement stands for in a body with these local variables. -/
inductive Scope.DenotesStmt (scope : Scope) (body : Tree.Body) (locals : List String) :
    Tree.Stmt → Stmt → Prop where
  | assign {target : Tree.Expr} {target' : Target} {value : Tree.Rvalue} {value' : Rvalue}
      (ht : scope.Denotes locals target target'.expr)
      (hv : scope.DenotesRvalue locals value value') :
      DenotesStmt scope body locals (.assign target value) (.assign target' value')
  | insert {collection item : Tree.Expr} {collection' item' : Expr}
      (hc : scope.Denotes locals collection collection') (hi : scope.Denotes locals item item') :
      DenotesStmt scope body locals (.insert collection item) (.insert collection' item')
  | remove {collection item : Tree.Expr} {collection' item' : Expr}
      (hc : scope.Denotes locals collection collection') (hi : scope.Denotes locals item item') :
      DenotesStmt scope body locals (.remove collection item) (.remove collection' item')
  | lock {e : Tree.Expr} {target : LockTarget} (h : scope.Locks locals e target) :
      DenotesStmt scope body locals (.lock e) (.lock target)
  | unlock {e : Tree.Expr} {target : LockTarget} (h : scope.Locks locals e target) :
      DenotesStmt scope body locals (.unlock e) (.unlock target)
  | assert (message : Option String) {e : Tree.Expr} {e' : Expr} (h : scope.Denotes locals e e') :
      DenotesStmt scope body locals (.assert e message) (.assert e' message)
  | ifGoto {e : Tree.Expr} {e' : Expr} {label : Tree.Name} {pc : Nat}
      (h : scope.Denotes locals e e') (hpc : body.LabelAt label.value pc) :
      DenotesStmt scope body locals (.ifGoto e label) (.ifGoto e' pc)
  | goto {label : Tree.Name} {pc : Nat} (hpc : body.LabelAt label.value pc) :
      DenotesStmt scope body locals (.goto label) (.goto pc)
  | call {name : Tree.Name} {id : MethodId} (h : scope.methods[id]? = some name.value) :
      DenotesStmt scope body locals (.call name) (.call id)
  | return : DenotesStmt scope body locals .return .return
  | yield : DenotesStmt scope body locals .yield .yield

section Mono

variable {scope : Scope} {body : Tree.Body} {locals locals' : List String} {e : Tree.Expr}

variable (hlocals : locals <+: locals')

include hlocals

theorem Scope.Denotes.mono {e' : Expr} (h : scope.Denotes locals e e') :
    scope.Denotes locals' e e' := by
  induction h with
  | int value => exact .int value
  | null => exact .null
  | static h => exact .static h
  | localVar hstatic h =>
    obtain ⟨rest, rfl⟩ := hlocals
    refine .localVar hstatic ?_
    rw [List.getElem?_append_left (List.getElem?_eq_some_iff.1 h).1]
    exact h
  | classMember hclass h => exact .classMember hclass h
  | field hclass _ ih => exact .field hclass ih
  | index _ _ iha ihi => exact .index iha ihi
  | len hname _ ih => exact .len hname ih
  | size hname _ ih => exact .size hname ih
  | contains hname _ _ ihc ihi => exact .contains hname ihc ihi
  | unary op _ ih => exact .unary op ih
  | binary op _ _ ihl ihr => exact .binary op ihl ihr

theorem Scope.DenotesRvalue.mono {v : Tree.Rvalue} {v' : Rvalue}
    (h : scope.DenotesRvalue locals v v') : scope.DenotesRvalue locals' v v' := by
  cases h with
  | expr h => exact .expr (h.mono hlocals)
  | new h => exact .new h
  | newIntArray h => exact .newIntArray (h.mono hlocals)
  | newRefArray h => exact .newRefArray (h.mono hlocals)
  | newSet => exact .newSet
  | newBag => exact .newBag
  | choose h => exact .choose h

theorem Scope.Locks.mono {target : LockTarget} (h : scope.Locks locals e target) :
    scope.Locks locals' e target := by
  cases h with
  | ofClass h => exact .ofClass h
  | object hclass h => exact .object hclass (h.mono hlocals)

theorem Scope.DenotesStmt.mono {s : Tree.Stmt} {s' : Stmt}
    (h : scope.DenotesStmt body locals s s') : scope.DenotesStmt body locals' s s' := by
  cases h with
  | assign ht hv => exact .assign (ht.mono hlocals) (hv.mono hlocals)
  | insert hc hi => exact .insert (hc.mono hlocals) (hi.mono hlocals)
  | remove hc hi => exact .remove (hc.mono hlocals) (hi.mono hlocals)
  | lock h => exact .lock (h.mono hlocals)
  | unlock h => exact .unlock (h.mono hlocals)
  | assert message h => exact .assert message (h.mono hlocals)
  | ifGoto h hpc => exact .ifGoto (h.mono hlocals) hpc
  | goto hpc => exact .goto hpc
  | call h => exact .call h
  | «return» => exact .return
  | yield => exact .yield

end Mono

namespace Scope

variable {scope : Scope} {name : String}

def Distinct (scope : Scope) : Prop := (scope.classes.map (·.name)).Nodup

variable {id id' : ClassId}

theorem isStatic_of_static? {slot : Nat} (h : scope.classes[id]?.bind (·.static? name) = some slot) :
    scope.IsStatic id name slot := by
  obtain ⟨decl, hdecl, hslot⟩ := Option.bind_eq_some_iff.1 h
  obtain ⟨hlt, hname, _⟩ := List.findIdx?_eq_some_iff_getElem.1 hslot
  exact ⟨decl, decl.statics[slot], hdecl, List.getElem?_eq_getElem hlt, by simpa using hname⟩

theorem not_isStatic_of_static? (h : scope.classes[id]?.bind (·.static? name) = none) (slot : Nat) :
    ¬ scope.IsStatic id name slot := by
  rintro ⟨decl, field, hdecl, hfield, hname⟩
  rw [hdecl, Option.bind_some] at h
  have hall := List.findIdx?_eq_none_iff.1 h field (List.mem_of_getElem? hfield)
  simp [hname] at hall

theorem mainStatic?_eq (scope : Scope) (name : String) :
    scope.mainStatic? name = scope.classes[mainClass]?.bind (·.static? name) := by
  rw [mainStatic?, List.head?_eq_getElem?]
  rfl

theorem isClass_of_plainClass? (h : scope.plainClass? name = some id) : scope.IsClass name id := by
  unfold plainClass? at h
  split at h
  · next found hfound =>
    split at h
    · next hkind =>
      cases h
      obtain ⟨decl, hdecl, hplain⟩ := Option.map_eq_some_iff.1 hkind
      obtain ⟨hlt, hname, _⟩ := List.findIdx?_eq_some_iff_getElem.1 hfound
      rw [List.getElem?_eq_getElem hlt] at hdecl
      cases hdecl
      exact ⟨_, List.getElem?_eq_getElem hlt, hplain, by simpa using hname⟩
    · cases h
  · cases h

theorem Distinct.eq_of_name_eq (hdistinct : scope.Distinct) {decl decl' : ClassDecl}
    (h : scope.classes[id]? = some decl) (h' : scope.classes[id']? = some decl')
    (hname : decl.name = decl'.name) : id = id' := by
  have hsame : (scope.classes.map (·.name))[id]? = (scope.classes.map (·.name))[id']? := by
    rw [List.getElem?_map, List.getElem?_map, h, h', Option.map_some, Option.map_some, hname]
  have hlt : id < (scope.classes.map (·.name)).length := by
    rw [List.length_map]
    exact (List.getElem?_eq_some_iff.1 h).1
  exact (List.getElem?_inj hlt hdistinct).1 hsame

theorem IsClass.unique (hdistinct : scope.Distinct) (h : scope.IsClass name id)
    (h' : scope.IsClass name id') : id = id' := by
  obtain ⟨decl, hdecl, _, rfl⟩ := h
  obtain ⟨decl', hdecl', _, hname⟩ := h'
  exact hdistinct.eq_of_name_eq hdecl hdecl' hname.symm

theorem not_isClass_of_plainClass? (hdistinct : scope.Distinct) (h : scope.plainClass? name = none)
    (id : ClassId) : ¬ scope.IsClass name id := by
  rintro ⟨decl, hdecl, hkind, hname⟩
  unfold plainClass? at h
  split at h
  · next found hfound =>
    obtain ⟨hlt, hfirst, _⟩ := List.findIdx?_eq_some_iff_getElem.1 hfound
    -- the class that was found is the one with that name, since no other has it
    obtain rfl : found = id :=
      hdistinct.eq_of_name_eq (List.getElem?_eq_getElem hlt) hdecl (by simpa [hname] using hfirst)
    rw [if_pos (by rw [hdecl]; exact congrArg some hkind)] at h
    cases h
  · next hnone =>
    have hall := List.findIdx?_eq_none_iff.1 hnone decl (List.mem_of_getElem? hdecl)
    simp [hname] at hall

theorem namesClass_iff {name : Tree.Name} :
    scope.NamesClass (.name name) ↔ ∃ id, scope.IsClass name.value id := by
  constructor
  · rintro ⟨other, id, heq, h⟩
    obtain rfl := Tree.Expr.name.inj heq
    exact ⟨id, h⟩
  · rintro ⟨id, h⟩
    exact ⟨name, id, rfl, h⟩

end Scope

/-- The value that a slot starts with; a reference starts as `null`, which is written 0. -/
inductive Tree.Field.StartsWith (field : Tree.Field) : Int64 → Prop where
  | unset (h : field.initial = none) : StartsWith field 0
  | int {value : Int64} {span : Span} (htype : field.type = .int)
      (h : field.initial = some ⟨some value, span⟩) : StartsWith field value
  | ref {span : Span} (htype : field.type = .ref) (h : field.initial = some ⟨none, span⟩) :
      StartsWith field 0

structure Tree.Field.Declares (field : Tree.Field) (decl : FieldDecl) : Prop where
  name : decl.name = field.name.value
  type : decl.type = field.type
  filtered : decl.filtered = field.filtered
  initial : field.StartsWith decl.initial

structure ClassDecl.Holds (decl : ClassDecl) (slots : List Tree.Field) : Prop where
  own : List.Forall₂ Tree.Field.Declares (slots.filter (!·.isStatic)) decl.fields
  statics : List.Forall₂ Tree.Field.Declares (slots.filter (·.isStatic)) decl.statics
  distinct : (slots.map (·.name.value)).Nodup

structure Tree.Class.Declares (c : Tree.Class) (decl : ClassDecl) : Prop where
  name : decl.name = c.name.value
  kind : decl.kind = .plain
  slots : decl.Holds c.fields

section Declarations

variable {fields : List Tree.Field} {field : Tree.Field} {decl : ClassDecl} {seen : List String}

theorem fieldDecl_declares {decl : FieldDecl} (h : fieldDecl field = .ok decl) :
    field.Declares decl := by
  unfold fieldDecl at h
  dsimp only at h
  split at h
  · next hinitial =>
    cases h
    exact ⟨rfl, rfl, rfl, .unset hinitial⟩
  · next hinitial htype =>
    cases h
    exact ⟨rfl, rfl, rfl, .int htype hinitial⟩
  · next hinitial htype =>
    cases h
    exact ⟨rfl, rfl, rfl, .ref htype hinitial⟩
  · cases h
  · cases h

theorem names_eq_of_declares {decls : List FieldDecl}
    (h : List.Forall₂ Tree.Field.Declares fields decls) :
    decls.map (·.name) = fields.map (·.name.value) := by
  exact (map_eq_of_forall₂ h fun _ _ hdecl => hdecl.name.symm).symm

theorem mainStatics_declares {before : List Tree.Field} {done result : List FieldDecl}
    (h : mainStatics fields done = .ok result)
    (hdone : List.Forall₂ Tree.Field.Declares before done)
    (hdistinct : (before.map (·.name.value)).Nodup) :
    List.Forall₂ Tree.Field.Declares (before ++ fields) result ∧
      ((before ++ fields).map (·.name.value)).Nodup := by
  induction fields generalizing before done with
  | nil =>
    cases h
    rw [List.append_nil]
    exact ⟨hdone, hdistinct⟩
  | cons field rest ih =>
    unfold mainStatics at h
    split at h
    · cases h
    · next hnew =>
      obtain ⟨decl, hdecl, h⟩ := bind_eq_ok.1 h
      have hfresh : field.name.value ∉ before.map (·.name.value) := by
        rw [← names_eq_of_declares hdone]
        intro hmem
        obtain ⟨d, hd, hname⟩ := List.mem_map.1 hmem
        simp only [fieldIndex?, Bool.not_eq_true, Option.isSome_eq_false_iff,
          Option.isNone_iff_eq_none] at hnew
        have hall := List.findIdx?_eq_none_iff.1 hnew d hd
        simp [hname] at hall
      have hnodup : ((before ++ [field]).map (·.name.value)).Nodup := by
        rw [List.map_append, List.map_singleton, ← List.concat_eq_append]
        exact hdistinct.concat hfresh
      have hmore := ih h (List.rel_append hdone (.cons (fieldDecl_declares hdecl) .nil)) hnodup
      rwa [List.append_assoc] at hmore

theorem ClassDecl.Holds.add {slot : FieldDecl} (h : decl.Holds fields) (hslot : field.Declares slot)
    (hnew : field.name.value ∉ fields.map (·.name.value)) :
    ClassDecl.Holds (if field.isStatic then { decl with statics := decl.statics ++ [slot] }
      else { decl with fields := decl.fields ++ [slot] }) (fields ++ [field]) := by
  have hdistinct : ((fields ++ [field]).map (·.name.value)).Nodup := by
    rw [List.map_append, List.map_singleton, ← List.concat_eq_append]
    exact h.distinct.concat hnew
  have hone : List.Forall₂ Tree.Field.Declares [field] [slot] := .cons hslot .nil
  cases hstatic : field.isStatic with
  | true =>
    refine ⟨?_, ?_, hdistinct⟩
    · simpa [hstatic] using h.own
    · simpa [hstatic] using List.rel_append h.statics hone
  | false =>
    refine ⟨?_, ?_, hdistinct⟩
    · simpa [hstatic] using List.rel_append h.own hone
    · simpa [hstatic] using h.statics

theorem classFields_holds {owner : String} (before : List Tree.Field) {result : ClassDecl}
    (h : classFields owner fields seen decl = .ok result)
    (hseen : ∀ name, name ∈ seen ↔ name ∈ before.map (·.name.value)) (hdecl : decl.Holds before) :
    result.name = decl.name ∧ result.kind = decl.kind ∧ result.Holds (before ++ fields) := by
  induction fields generalizing before seen decl with
  | nil =>
    cases h
    rw [List.append_nil]
    exact ⟨rfl, rfl, hdecl⟩
  | cons field rest ih =>
    by_cases hnew : field.name.value ∈ seen
    · simp only [classFields, hnew, if_true] at h
      cases h
    · simp only [classFields, hnew, if_false] at h
      obtain ⟨slot, hslot, h⟩ := bind_eq_ok.1 h
      rw [hseen] at hnew
      obtain ⟨hname, hkind, hholds⟩ := ih (before ++ [field]) h
        (fun name => by simp [hseen, or_comm]) (hdecl.add (fieldDecl_declares hslot) hnew)
      rw [List.append_assoc] at hholds
      refine ⟨hname.trans ?_, hkind.trans ?_, hholds⟩
      · split <;> rfl
      · split <;> rfl

theorem declareClasses_declares {decls : List Tree.Class} {classes result : List ClassDecl}
    (h : declareClasses decls classes = .ok result)
    (hdistinct : (classes.map (·.name)).Nodup) :
    (result.map (·.name)).Nodup ∧
      ∃ declared, result = classes ++ declared ∧
        List.Forall₂ Tree.Class.Declares decls declared := by
  induction decls generalizing classes with
  | nil =>
    cases h
    exact ⟨hdistinct, [], (List.append_nil _).symm, .nil⟩
  | cons c rest ih =>
    unfold declareClasses at h
    split at h
    · cases h
    · next hnew =>
      obtain ⟨decl, hdecl, h⟩ := bind_eq_ok.1 h
      obtain ⟨hname, hkind, hholds⟩ := classFields_holds [] hdecl (by simp)
        ⟨.nil, .nil, List.nodup_nil⟩
      have hfresh : decl.name ∉ classes.map (·.name) := by
        rw [hname]
        simpa using hnew
      have hnodup : ((classes ++ [decl]).map (·.name)).Nodup := by
        rw [List.map_append, List.map_singleton, ← List.concat_eq_append]
        exact hdistinct.concat hfresh
      obtain ⟨hall, declared, rfl, hdeclared⟩ := ih h hnodup
      refine ⟨hall, decl :: declared, List.append_assoc _ _ _, .cons ?_ hdeclared⟩
      exact ⟨hname, hkind, hholds⟩

theorem firstRepeated?_eq_none {names : List Tree.Name} :
    firstRepeated? names seen = none ↔
      (names.map (·.value)).Nodup ∧ ∀ name ∈ names, name.value ∉ seen := by
  induction names generalizing seen with
  | nil => simp [firstRepeated?]
  | cons name rest ih =>
    unfold firstRepeated?
    split
    · next hold => simp [hold]
    · next hnew =>
      rw [ih, List.map_cons, List.nodup_cons, List.forall_mem_cons]
      simp only [List.mem_cons, not_or, List.mem_map, not_exists, not_and]
      constructor
      · rintro ⟨hnodup, hunseen⟩
        exact ⟨⟨fun other hother => (hunseen other hother).1, hnodup⟩, hnew,
          fun other hother => (hunseen other hother).2⟩
      · rintro ⟨⟨hapart, hnodup⟩, _, hunseen⟩
        exact ⟨hnodup, fun other hother => ⟨hapart other hother, hunseen other hother⟩⟩

end Declarations

end Interleave
