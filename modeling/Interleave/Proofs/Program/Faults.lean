import Interleave.Proofs.Program.Denotation
import Interleave.Proofs.Tree.Shape

set_option autoImplicit false

namespace Interleave

/-- The bare names of a statement that are used as variables: all but the classes in `Class.member`
and in the lock of a class. -/
def Tree.Stmt.variables (classes : List String) (s : Tree.Stmt) : List Tree.Name :=
  match s with
  | .lock e | .unlock e => if e.isClassName classes then [] else e.variables classes
  | s => s.exprs.flatMap (·.variables classes)

def Tree.Program.fields (tree : Tree.Program) : List Tree.Field :=
  tree.statics ++ tree.classes.flatMap (·.fields)

def Tree.Program.statements (tree : Tree.Program) : List Tree.Stmt :=
  tree.bodies.flatMap fun body => body.statements.map (·.value)

def Tree.Program.exprs (tree : Tree.Program) : List Tree.Expr :=
  tree.statements.flatMap (·.exprs) ++ tree.invariants.map (·.value)

inductive Tree.Program.Faulty (tree : Tree.Program) : Prop where
  | duplicateClass
      (h : ¬ (builtinClasses.map (·.name) ++ tree.classes.map (·.name.value)).Nodup)
  | duplicateStatic (h : ¬ (tree.statics.map (·.name.value)).Nodup)
  | duplicateField {c : Tree.Class} (hc : c ∈ tree.classes)
      (h : ¬ (c.fields.map (·.name.value)).Nodup)
  | duplicateBody (h : ¬ (tree.bodies.map (·.name.value)).Nodup)
  | duplicateLabel {body : Tree.Body} (hbody : body ∈ tree.bodies)
      (h : ¬ (body.labels.map (·.1.value)).Nodup)
  | undefinedLabel {body : Tree.Body} {s : Located Tree.Stmt} {label : Tree.Name}
      (hbody : body ∈ tree.bodies) (hs : s ∈ body.statements) (hlabel : s.value.label? = some label)
      (h : label.value ∉ body.labels.map (·.1.value))
  | undefinedMethod {name : Tree.Name} (hs : .call name ∈ tree.statements)
      (h : name.value ∉ tree.bodies.map (·.name.value))
  | undefinedClass {target : Tree.Expr} {name : Tree.Name}
      (hs : .assign target (.new name) ∈ tree.statements) (h : name.value ∉ tree.plainClasses)
  | undefinedMember {e : Tree.Expr} {owner member : Tree.Name} (he : e ∈ tree.exprs)
      (hpart : .member (.name owner) member ∈ e.parts) (hclass : owner.value ∈ tree.plainClasses)
      (h : ¬ tree.HasStatic owner.value member.value)
  | undefinedStatic {invariant : Located Tree.Expr} {name : Tree.Name}
      (hinvariant : invariant ∈ tree.invariants)
      (hname : name ∈ invariant.value.variables tree.plainClasses)
      (h : name.value ∉ tree.statics.map (·.name.value))
  | emptyRange {target : Tree.Expr} {min max : Int64}
      (hs : .assign target (.choose min max) ∈ tree.statements) (h : max < min)
  | notAssignable {target : Tree.Expr} {value : Tree.Rvalue}
      (hs : .assign target value ∈ tree.statements) (h : target.isPlace = false)
  | unknownFunction {e : Tree.Expr} {function : Tree.Name} {args : List Tree.Expr}
      (he : e ∈ tree.exprs) (hpart : .call function args ∈ e.parts)
      (h : (function.value, args.length) ∉ builtinFunctions)
  | wrongStart {field : Tree.Field} (hfield : field ∈ tree.fields)
      (h : ∀ value, ¬ field.StartsWith value)
  | noThread (h : ∀ body ∈ tree.bodies, body.kind ≠ .thread)

section Faults

variable {scope : Scope} {body : Tree.Body} {locals classes : List String} {tree : Tree.Program}
  {p : Program} {e : Tree.Expr} {s : Tree.Stmt} {s' : Stmt} {e' : Expr} {target : LockTarget}

section Names

variable (hclasses : ∀ name, (∃ id, scope.IsClass name id) → name ∈ classes)

include hclasses

/-- In what denotes something, all parts are defined and all variables denote something. -/
theorem Scope.Denotes.defined (h : scope.Denotes locals e e') :
    (∀ part ∈ e.parts, scope.PartDefined part) ∧
      ∀ name ∈ e.variables classes, ∃ v, scope.Denotes locals (.name name) v := by
  induction h with
  | int | null => simp [Tree.Expr.parts, Tree.Expr.variables, Scope.PartDefined]
  | static h =>
    exact ⟨by simp [Tree.Expr.parts, Scope.PartDefined], List.forall_mem_singleton.2 ⟨_, .static h⟩⟩
  | localVar hstatic h =>
    exact ⟨by simp [Tree.Expr.parts, Scope.PartDefined],
      List.forall_mem_singleton.2 ⟨_, .localVar hstatic h⟩⟩
  | classMember hclass hstatic =>
    refine ⟨List.forall_mem_cons.2 ⟨⟨?_, by simp⟩, by simp [Tree.Expr.parts, Scope.PartDefined]⟩, ?_⟩
    · rintro _ _ heq _
      cases heq
      exact ⟨_, _, hclass, hstatic⟩
    · simp [Tree.Expr.variables, Tree.Expr.isClassName, hclasses _ ⟨_, hclass⟩]
  | field hclass _ ih =>
    refine ⟨List.forall_mem_cons.2 ⟨⟨?_, by simp⟩, ih.1⟩, fun name hname => ?_⟩
    · rintro _ _ heq hnames
      cases heq
      exact absurd hnames hclass
    · rw [Tree.Expr.variables] at hname
      split at hname
      · cases hname
      · exact ih.2 name hname
  | unary _ _ ih => exact ⟨List.forall_mem_cons.2 ⟨by simp [Scope.PartDefined], ih.1⟩, ih.2⟩
  | index _ _ ihl ihr | binary _ _ _ ihl ihr =>
    exact ⟨List.forall_mem_cons.2 ⟨by simp [Scope.PartDefined],
      List.forall_mem_append.2 ⟨ihl.1, ihr.1⟩⟩, List.forall_mem_append.2 ⟨ihl.2, ihr.2⟩⟩
  | len hname _ ih | size hname _ ih =>
    refine ⟨List.forall_mem_cons.2 ⟨?_, by simpa [Tree.Expr.partsOf] using ih.1⟩, ?_⟩
    · simp [Scope.PartDefined, builtinFunctions, hname]
    · simpa [Tree.Expr.variables, Tree.Expr.variablesOf] using ih.2
  | contains hname _ _ ihl ihr =>
    refine ⟨List.forall_mem_cons.2 ⟨?_, List.forall_mem_append.2 ⟨ihl.1, ?_⟩⟩,
      List.forall_mem_append.2 ⟨ihl.2, ?_⟩⟩
    · simp [Scope.PartDefined, builtinFunctions, hname]
    · simpa [Tree.Expr.partsOf] using ihr.1
    · simpa [Tree.Expr.variablesOf] using ihr.2

theorem Scope.Locks.defined (h : scope.Locks locals e target) :
    (∀ part ∈ e.parts, scope.PartDefined part) ∧
      ∀ name ∈ (if e.isClassName classes then [] else e.variables classes),
        ∃ v, scope.Denotes locals (.name name) v := by
  cases h with
  | ofClass hclass =>
    simp [Tree.Expr.parts, Scope.PartDefined, Tree.Expr.isClassName, hclasses _ ⟨_, hclass⟩]
  | object _ h =>
    refine ⟨(h.defined hclasses).1, fun name hname => ?_⟩
    split at hname
    · cases hname
    · exact (h.defined hclasses).2 name hname

theorem Scope.DenotesStmt.defined (h : scope.DenotesStmt body locals s s') :
    (∀ e ∈ s.exprs, ∀ part ∈ e.parts, scope.PartDefined part) ∧
      ∀ name ∈ s.variables classes, ∃ v, scope.Denotes locals (.name name) v := by
  cases h with
  | @assign target _ value _ ht hv =>
    have hvalue : (∀ e ∈ value.exprs, ∀ part ∈ e.parts, scope.PartDefined part) ∧
        ∀ name ∈ value.exprs.flatMap (·.variables classes),
          ∃ v, scope.Denotes locals (.name name) v := by
      cases hv with
      | expr h | newIntArray h | newRefArray h =>
        simpa [Tree.Rvalue.exprs] using h.defined hclasses
      | new | newSet | newBag | choose => simp [Tree.Rvalue.exprs]
    obtain ⟨hparts, hnames⟩ := ht.defined hclasses
    exact ⟨List.forall_mem_cons.2 ⟨hparts, hvalue.1⟩, List.forall_mem_append.2 ⟨hnames, hvalue.2⟩⟩
  | insert hc hi | remove hc hi =>
    obtain ⟨hparts, hnames⟩ := hc.defined hclasses
    obtain ⟨hparts', hnames'⟩ := hi.defined hclasses
    refine ⟨List.forall_mem_cons.2 ⟨hparts, List.forall_mem_singleton.2 hparts'⟩, ?_⟩
    simpa [Tree.Stmt.variables, Tree.Stmt.exprs] using List.forall_mem_append.2 ⟨hnames, hnames'⟩
  | lock h | unlock h =>
    obtain ⟨hparts, hnames⟩ := h.defined hclasses
    exact ⟨List.forall_mem_singleton.2 hparts, hnames⟩
  | assert _ h | ifGoto h _ =>
    simpa [Tree.Stmt.variables, Tree.Stmt.exprs] using h.defined hclasses
  | goto | call | «return» | yield => simp [Tree.Stmt.variables, Tree.Stmt.exprs]

end Names

theorem Scope.DenotesStmt.labelAt (h : scope.DenotesStmt body locals s s') {label : Tree.Name}
    (hlabel : s.label? = some label) : ∃ pc, body.LabelAt label.value pc := by
  cases h with
  | ifGoto _ hpc | goto hpc =>
    cases hlabel
    exact ⟨_, hpc⟩
  | assign | insert | remove | lock | unlock | assert | call | «return» | yield => cases hlabel

theorem Tree.Body.LabelAt.mem_names {name : String} {pc : Nat} (h : body.LabelAt name pc) :
    name ∈ body.labels.map (·.1.value) := by
  obtain ⟨label, hlabel, rfl, _⟩ := h
  obtain ⟨entry, hentry, rfl⟩ := List.mem_map.1 hlabel
  exact List.mem_map_of_mem hentry

theorem Scope.Denotes.isPlace {target : Target} (h : scope.Denotes locals e target.expr) :
    e.isPlace = true := by
  cases target with
  | staticVar =>
    cases h with
    | static => rfl
    | classMember => rfl
  | localVar | field | index =>
    cases h
    rfl

theorem Program.Denotes.statement (h : p.Denotes tree) (hs : s ∈ tree.statements) :
    ∃ body locals s', p.scope.DenotesStmt body locals s s' := by
  obtain ⟨body, hbody, hs⟩ := List.mem_flatMap.1 hs
  obtain ⟨located, hlocated, rfl⟩ := List.mem_map.1 hs
  obtain ⟨m, _, hm⟩ := forall₂_exists h.methods hbody
  obtain ⟨s', _, _, hs'⟩ := forall₂_exists hm.statements hlocated
  exact ⟨body, m.locals, s'.value, hs'⟩

theorem Program.Denotes.parts_defined (h : p.Denotes tree) (he : e ∈ tree.exprs) :
    ∀ part ∈ e.parts, p.scope.PartDefined part := by
  rcases List.mem_append.1 he with he | he
  · obtain ⟨s, hs, he⟩ := List.mem_flatMap.1 he
    obtain ⟨_, _, _, hs'⟩ := h.statement hs
    exact (hs'.defined fun _ => h.scope.isClass_iff.1).1 e he
  · obtain ⟨invariant, hinvariant, rfl⟩ := List.mem_map.1 he
    obtain ⟨_, _, _, hdenotes⟩ := forall₂_exists h.invariants hinvariant
    exact (hdenotes.defined fun _ => h.scope.isClass_iff.1).1

theorem Program.Denotes.startsWith (h : p.Denotes tree) {field : Tree.Field}
    (hfield : field ∈ tree.fields) : ∃ value, field.StartsWith value := by
  obtain ⟨main, declared, _, hmain, hdeclared⟩ := h.scope.classes
  have hof : ∀ {fields : List Tree.Field} {decls : List FieldDecl},
      List.Forall₂ Tree.Field.Declares fields decls → field ∈ fields →
      ∃ value, field.StartsWith value := by
    intro fields decls hdecls hmem
    obtain ⟨decl, _, hdecl⟩ := forall₂_exists hdecls hmem
    exact ⟨_, hdecl.initial⟩
  rcases List.mem_append.1 hfield with hfield | hfield
  · exact hof hmain.statics hfield
  · obtain ⟨c, hc, hfield⟩ := List.mem_flatMap.1 hfield
    obtain ⟨decl, _, hdecl⟩ := forall₂_exists hdeclared hc
    cases hstatic : field.isStatic with
    | true => exact hof hdecl.slots.statics (List.mem_filter.2 ⟨hfield, hstatic⟩)
    | false => exact hof hdecl.slots.own (List.mem_filter.2 ⟨hfield, by simp [hstatic]⟩)

theorem Program.Denotes.not_faulty (h : p.Denotes tree) : ¬ tree.Faulty := by
  intro hfaulty
  cases hfaulty with
  | duplicateClass hdup => exact hdup (h.scope.className_eq ▸ h.scope.distinct)
  | duplicateStatic hdup => exact hdup h.staticNames
  | duplicateField hc hdup =>
    obtain ⟨_, _, _, _, hdeclared⟩ := h.scope.classes
    obtain ⟨_, _, hdecl⟩ := forall₂_exists hdeclared hc
    exact hdup hdecl.slots.distinct
  | duplicateBody hdup => exact hdup h.bodyNames
  | duplicateLabel hbody hdup =>
    obtain ⟨_, _, hm⟩ := forall₂_exists h.methods hbody
    exact hdup hm.labelNames
  | undefinedLabel hbody hs hlabel hundefined =>
    obtain ⟨_, _, hm⟩ := forall₂_exists h.methods hbody
    obtain ⟨_, _, _, hdenotes⟩ := forall₂_exists hm.statements hs
    obtain ⟨pc, hpc⟩ := hdenotes.labelAt hlabel
    exact hundefined hpc.mem_names
  | undefinedMethod hs hundefined =>
    obtain ⟨_, _, _, hdenotes⟩ := h.statement hs
    cases hdenotes with
    | call hid =>
      rw [← methods_names h.methods] at hundefined
      exact hundefined (List.mem_of_getElem? hid)
  | undefinedClass hs hundefined =>
    obtain ⟨_, _, _, hdenotes⟩ := h.statement hs
    cases hdenotes with
    | assign _ hv =>
      cases hv with
      | new hclass => exact hundefined (h.scope.isClass_iff.1 ⟨_, hclass⟩)
  | undefinedMember he hpart hclass hundefined =>
    have hnames := Scope.namesClass_iff.2 (h.scope.isClass_iff.2 hclass)
    obtain ⟨_, _, hid, hslot⟩ := (h.parts_defined he _ hpart).1 _ _ rfl hnames
    exact hundefined ((h.scope.hasStatic_iff hid).1 ⟨_, hslot⟩)
  | undefinedStatic hinvariant hname hundefined =>
    obtain ⟨_, _, _, hdenotes⟩ := forall₂_exists h.invariants hinvariant
    obtain ⟨_, hv⟩ := (hdenotes.defined fun _ => h.scope.isClass_iff.1).2 _ hname
    cases hv with
    | static hstatic => exact hundefined (h.scope.mainStatic_iff.1 ⟨_, hstatic⟩)
    | localVar _ hslot => cases hslot
  | emptyRange hs hempty =>
    obtain ⟨_, _, _, hdenotes⟩ := h.statement hs
    cases hdenotes with
    | assign _ hv =>
      cases hv with
      | choose hle => exact Int64.not_lt.2 hle hempty
  | notAssignable hs hplace =>
    obtain ⟨_, _, _, hdenotes⟩ := h.statement hs
    cases hdenotes with
    | assign ht _ =>
      rw [ht.isPlace] at hplace
      cases hplace
  | unknownFunction he hpart hunknown =>
    exact hunknown ((h.parts_defined he _ hpart).2 _ _ rfl)
  | wrongStart hfield hwrong =>
    obtain ⟨value, hvalue⟩ := h.startsWith hfield
    exact hwrong value hvalue
  | noThread hnone =>
    obtain ⟨thread, hthread⟩ := List.exists_mem_of_ne_nil _ h.started
    rw [h.threads] at hthread
    obtain ⟨⟨body, id⟩, hbody, hkind⟩ := List.mem_filterMap.1 hthread
    have hmem := List.fst_mem_of_mem_zipIdx hbody
    simp [hnone body hmem] at hkind

end Faults

section Refusals

variable {scope : Scope} {tree : Tree.Program} {E : Span → Prop} {bodies : List Tree.Body}
  {fields : List Tree.Field} {body : Tree.Body}

theorem firstRepeated?_mem {names : List Tree.Name} {seen : List String} {name : Tree.Name}
    (h : firstRepeated? names seen = some name) : name ∈ names := by
  fun_induction firstRepeated? names seen with
  | case1 => cases h
  | case2 seen name' rest hmem =>
    cases h
    exact List.mem_cons_self
  | case3 seen name' rest hmem ih => exact List.mem_cons_of_mem _ (ih h)

theorem firstRepeated?_place {names : List Tree.Name} {name : Tree.Name}
    (hname : firstRepeated? names [] = some name)
    (h : (names.map (·.value)).Nodup ∨ ∀ name ∈ names, E name.span) : E name.span := by
  rcases h with h | h
  · rw [firstRepeated?_eq_none.2 ⟨h, by simp⟩] at hname
    cases hname
  · exact h name (firstRepeated?_mem hname)

theorem resolveBody_refuses (hdistinct : scope.Distinct) {lines : List (List Char)}
    (hordered : body.Ordered) (h : ((body.labels.map (·.1.value)).Nodup ∧
      ∀ s ∈ body.statements, scope.Accepts body.labels s.value) ∨ body.Sited E) :
    Refuses E (resolveBody scope lines body) := by
  unfold resolveBody
  split
  · next label hlabel =>
    refine .bindError (firstRepeated?_place hlabel (h.imp (fun h => ?_) fun h => ?_)) _
    · rw [List.map_map]
      exact h.1
    · exact List.forall_mem_map.2 h.labels
  · have hstmts : ∀ s ∈ body.statements, _ ∨ _ := fun s hs => h.imp (·.2 s hs) (·.statements s hs)
    exact ((Scope.stmts_judged hdistinct hordered hstmts).refuses ⟨[], false⟩ List.prefix_rfl
      List.nodup_nil rfl).bind fun _ _ => .ok _

theorem resolveBodies_refuses (hdistinct : scope.Distinct) {lines : List (List Char)}
    (hordered : ∀ body ∈ bodies, body.Ordered)
    (h : ∀ body ∈ bodies, ((body.labels.map (·.1.value)).Nodup ∧
      ∀ s ∈ body.statements, scope.Accepts body.labels s.value) ∨ body.Sited E) :
    Refuses E (resolveBodies scope lines bodies) := by
  induction bodies with
  | nil => exact .ok _
  | cons body rest ih =>
    rw [List.forall_mem_cons] at hordered h
    exact (resolveBody_refuses hdistinct hordered.1 h.1).bind fun _ _ =>
      (ih hordered.2 h.2).bind fun _ _ => .ok _

theorem resolveInvariants_refuses (hdistinct : scope.Distinct) {classes : List String}
    (hclasses : ∀ name ∈ classes, ∃ id, scope.IsClass name id)
    {invariants : List (Located Tree.Expr)} (h : ∀ i ∈ invariants,
      scope.Grants E true i.value.parts (i.value.variables classes) i.value.spans) :
    Refuses E (resolveInvariants scope invariants) := by
  induction invariants with
  | nil => exact .ok _
  | cons invariant rest ih =>
    rw [List.forall_mem_cons] at h
    exact ((Scope.expr_judged hdistinct hclasses invariant.value [] h.1).refuses ⟨[], true⟩
      List.prefix_rfl List.nodup_nil rfl).bind fun _ _ => (ih h.2).bind fun _ _ => .ok _

theorem fieldDecl_refuses {field : Tree.Field}
    (h : (∃ value, field.StartsWith value) ∨ ∀ s ∈ field.spans, E s) :
    Refuses E (fieldDecl field) := by
  have hplace : ∀ {i}, field.initial = some i → (∀ value, ¬ field.StartsWith value) → E i.span := by
    intro i hi hnone
    refine (h.resolve_left (not_exists.2 hnone)) _ (List.mem_cons_of_mem _ ?_)
    simp [hi]
  unfold fieldDecl
  split
  · exact .ok _
  · exact .ok _
  · exact .ok _
  · next hinitial htype =>
    refine .bindError (hplace hinitial fun value hvalue => ?_) _
    cases hvalue with
    | unset h => cases hinitial.symm.trans h
    | int _ h => cases hinitial.symm.trans h
    | ref h => cases htype.symm.trans h
  · next hinitial htype =>
    refine .bindError (hplace hinitial fun value hvalue => ?_) _
    cases hvalue with
    | unset h => cases hinitial.symm.trans h
    | int h => cases htype.symm.trans h
    | ref _ h => cases hinitial.symm.trans h

theorem mainStatics_refuses {before : List Tree.Field} {done : List FieldDecl}
    (hdone : List.Forall₂ Tree.Field.Declares before done)
    (h : (((before ++ fields).map (·.name.value)).Nodup ∧
      ∀ field ∈ fields, ∃ value, field.StartsWith value) ∨ ∀ f ∈ fields, ∀ s ∈ f.spans, E s) :
    Refuses E (mainStatics fields done) := by
  induction fields generalizing before done with
  | nil => exact .ok _
  | cons field rest ih =>
    unfold mainStatics
    split
    · next hold =>
      refine .bindError ((h.resolve_left fun h => ?_) field List.mem_cons_self _ List.mem_cons_self) _
      have hdistinct := h.1
      rw [List.map_append, ← names_eq_of_declares hdone] at hdistinct
      obtain ⟨d, hd, hname⟩ : ∃ d ∈ done, d.name = field.name.value := by
        simpa [fieldIndex?, List.findIdx?_isSome] using hold
      exact (List.nodup_append.1 hdistinct).2.2 _ (List.mem_map_of_mem hd) _ List.mem_cons_self hname
    · refine (fieldDecl_refuses (h.imp (·.2 _ List.mem_cons_self) (· _ List.mem_cons_self))).bind
        fun decl hdecl => ih (List.rel_append hdone (.cons (fieldDecl_declares hdecl) .nil)) ?_
      rw [List.append_assoc]
      exact h.imp (fun h => ⟨h.1, (List.forall_mem_cons.1 h.2).2⟩) fun h => (List.forall_mem_cons.1 h).2

theorem classFields_refuses {owner : String} {seen : List String} {decl : ClassDecl}
    (h : ((fields.map (·.name.value)).Nodup ∧ (∀ field ∈ fields, field.name.value ∉ seen) ∧
      ∀ field ∈ fields, ∃ value, field.StartsWith value) ∨ ∀ s ∈ fields.flatMap Tree.Field.spans, E s) :
    Refuses E (classFields owner fields seen decl) := by
  induction fields generalizing seen decl with
  | nil => exact .ok _
  | cons field rest ih =>
    rw [List.flatMap_cons, List.forall_mem_append] at h
    unfold classFields
    dsimp only
    split
    · next hold =>
      exact .bindError ((h.resolve_left fun h => h.2.1 field List.mem_cons_self hold).1 _
        List.mem_cons_self) _
    · refine (fieldDecl_refuses (h.imp (·.2.2 _ List.mem_cons_self) (·.1))).bind fun _ _ => ih ?_
      refine h.imp (fun h => ?_) (·.2)
      obtain ⟨hfresh, hdistinct⟩ := List.nodup_cons.1 h.1
      refine ⟨hdistinct, fun other hother => ?_, (List.forall_mem_cons.1 h.2.2).2⟩
      rw [List.mem_cons, not_or]
      exact ⟨fun heq => hfresh (List.mem_map.2 ⟨other, hother, heq⟩),
        h.2.1 other (List.mem_cons_of_mem _ hother)⟩

theorem declareClasses_refuses {decls : List Tree.Class} {classes : List ClassDecl}
    (h : ((classes.map (·.name) ++ decls.map (·.name.value)).Nodup ∧
      ∀ c ∈ decls, (c.fields.map (·.name.value)).Nodup ∧
        ∀ field ∈ c.fields, ∃ value, field.StartsWith value) ∨ ∀ c ∈ decls, ∀ s ∈ c.spans, E s) :
    Refuses E (declareClasses decls classes) := by
  induction decls generalizing classes with
  | nil => exact .ok _
  | cons c rest ih =>
    rw [List.forall_mem_cons, List.forall_mem_cons] at h
    unfold declareClasses
    split
    · next hold =>
      refine .bindError ((h.resolve_left fun h => ?_).1 _ List.mem_cons_self) _
      obtain ⟨d, hd, hname⟩ : ∃ d ∈ classes, d.name = c.name.value := by simpa using hold
      exact (List.nodup_append.1 h.1).2.2 _ (List.mem_map_of_mem hd) _ List.mem_cons_self hname
    · refine (classFields_refuses (h.imp (fun h => ⟨h.2.1.1, by simp, h.2.1.2⟩) fun h =>
        (List.forall_mem_cons.1 h.1).2)).bind fun decl hdecl => ih ?_
      have hname := (classFields_holds [] hdecl (by simp) ⟨.nil, .nil, List.nodup_nil⟩).1
      refine h.imp (fun h => ⟨?_, h.2.2⟩) (·.2)
      simpa [hname] using h.1

theorem partDefined_of_not_faulty (h : ¬ tree.Faulty) (hscope : tree.Declares scope) {e : Tree.Expr}
    (he : e ∈ tree.exprs) : ∀ part ∈ e.parts, scope.PartDefined part := by
  intro part hpart
  constructor
  · rintro owner member rfl hclass
    obtain ⟨id, hid⟩ := Scope.namesClass_iff.1 hclass
    have hstatic : tree.HasStatic owner.value member.value := by_contra fun hno =>
      h (.undefinedMember he hpart (hscope.isClass_iff.1 ⟨id, hid⟩) hno)
    obtain ⟨slot, hslot⟩ := (hscope.hasStatic_iff hid).2 hstatic
    exact ⟨id, slot, hid, hslot⟩
  · rintro function args rfl
    exact by_contra fun hno => h (.unknownFunction he hpart hno)

theorem accepts_of_not_faulty (h : ¬ tree.Faulty) (hscope : tree.Declares scope)
    (hbody : body ∈ tree.bodies) {s : Located Tree.Stmt} (hs : s ∈ body.statements) :
    scope.Accepts body.labels s.value := by
  have hstmt : s.value ∈ tree.statements :=
    List.mem_flatMap.2 ⟨body, hbody, List.mem_map_of_mem hs⟩
  refine ⟨fun e he => ?_, fun target value heq => ?_, fun target name heq => ?_,
    fun target min max heq hlt => ?_, fun label hlabel => ?_, fun name heq => ?_⟩
  · exact partDefined_of_not_faulty h hscope
      (List.mem_append_left _ (List.mem_flatMap.2 ⟨s.value, hstmt, he⟩))
  · rw [heq] at hstmt
    exact eq_true_of_ne_false fun hplace => h (.notAssignable hstmt hplace)
  · rw [heq] at hstmt
    exact hscope.isClass_iff.2 (by_contra fun hno => h (.undefinedClass hstmt hno))
  · rw [heq] at hstmt
    exact h (.emptyRange hstmt hlt)
  · exact by_contra fun hno => h (.undefinedLabel hbody hs hlabel hno)
  · rw [heq] at hstmt
    rw [hscope.methods]
    exact by_contra fun hno => h (.undefinedMethod hstmt hno)

/-- A tree is refused only if it is at fault, and at one of its places unless no thread is declared. -/
theorem ofTree_refuses (hordered : tree.Ordered) (h : ¬ tree.Faulty ∨ tree.Sited E) {path : String}
    {lines : List (List Char)} {e : SourceError} (he : Program.ofTree path lines tree = .error e) :
    (∃ s, e.span = some s ∧ E s) ∨ e.span = none ∧ tree.Faulty := by
  have hstart : ¬ tree.Faulty → ∀ field ∈ tree.fields, ∃ value, field.StartsWith value :=
    fun h field hfield => by_contra fun hno => h (.wrongStart hfield (not_exists.1 hno))
  have hstatics : Refuses E (mainStatics tree.statics []) := mainStatics_refuses .nil <| h.imp
    (fun h => ⟨by_contra fun hdup => h (.duplicateStatic hdup),
      fun field hfield => hstart h field (List.mem_append_left _ hfield)⟩) (·.statics)
  rcases bind_eq_error he with he | ⟨statics, hok, he⟩
  · exact .inl (hstatics e he)
  have hclasses : Refuses E (declareClasses tree.classes
      (builtinClasses.modifyHead fun main => { main with statics })) := declareClasses_refuses <| h.imp
    (fun h => ⟨by_contra fun hdup => h (.duplicateClass hdup), fun c hc =>
      ⟨by_contra fun hdup => h (.duplicateField hc hdup), fun field hfield => hstart h field
        (List.mem_append_right _ (List.mem_flatMap.2 ⟨c, hc, hfield⟩))⟩⟩) (·.classes)
  rcases bind_eq_error he with he | ⟨classes, hok', he⟩
  · exact .inl (hclasses e he)
  have hscope := (declares_of_eq_ok hok hok').1
  dsimp only at he
  split at he
  · next name hname =>
    refine .inl ⟨name.span, by cases he; rfl, firstRepeated?_place hname (h.imp (fun h => ?_) ?_)⟩
    · rw [List.map_map]
      exact by_contra fun hdup => h (.duplicateBody hdup)
    · exact fun h => List.forall_mem_map.2 fun b hb => (h.bodies b hb).name
  have hbodies : Refuses E (resolveBodies ⟨classes, (tree.bodies.map (·.name)).map (·.value)⟩ lines
      tree.bodies) := resolveBodies_refuses hscope.distinct hordered fun body hbody => h.imp
    (fun h => ⟨by_contra fun hdup => h (.duplicateLabel hbody hdup),
      fun s hs => accepts_of_not_faulty h hscope hbody hs⟩) (·.bodies body hbody)
  rcases bind_eq_error he with he | ⟨methods, _, he⟩
  · exact .inl (hbodies e he)
  split at he
  · next hnone =>
    cases he
    refine .inr ⟨rfl, .noThread fun body hbody hkind => ?_⟩
    obtain ⟨id, hid⟩ := List.mem_iff_getElem?.1 hbody
    have hmem : ⟨body.name.value, id⟩ ∈ threadDecls tree.bodies :=
      List.mem_filterMap.2 ⟨(body, id), List.mem_zipIdx_iff_getElem?.2 hid, by simp [hkind]⟩
    exact List.ne_nil_of_mem hmem (List.isEmpty_iff.1 hnone)
  have hinvariants : Refuses E (resolveInvariants
      ⟨classes, (tree.bodies.map (·.name)).map (·.value)⟩ tree.invariants) := by
    refine resolveInvariants_refuses hscope.distinct (fun name => hscope.isClass_iff.2) fun i hi => ?_
    refine h.imp (fun h => ⟨?_, fun _ name hname => ?_⟩) (·.invariants i hi)
    · exact partDefined_of_not_faulty h hscope (List.mem_append_right _ (List.mem_map_of_mem hi))
    · exact hscope.mainStatic_iff.2 (by_contra fun hno => h (.undefinedStatic hi hname hno))
  exact .inl ((hinvariants.bind fun _ _ => .ok _) e he)

/-- A tree without faults is resolved. -/
theorem ofTree_succeeds (hordered : tree.Ordered) (h : ¬ tree.Faulty) (path : String)
    (lines : List (List Char)) : ∃ p, Program.ofTree path lines tree = .ok p := by
  cases hp : Program.ofTree path lines tree with
  | ok p => exact ⟨p, rfl⟩
  | error e =>
    rcases ofTree_refuses (E := fun _ => False) hordered (.inl h) hp with ⟨_, _, hno⟩ | ⟨_, hfaulty⟩
    · exact hno.elim
    · exact absurd hfaulty h

end Refusals

end Interleave
