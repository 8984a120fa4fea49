import Interleave.Proofs.Program.Resolution

set_option autoImplicit false

namespace Interleave

structure Scope.DenotesBody (scope : Scope) (body : Tree.Body) (m : MethodDecl) : Prop where
  name : m.name = body.name.value
  filtered : m.filtered = body.filtered
  statements : List.Forall₂ (scope.DenotesAt body m.locals) body.statements m.body
  locals : m.locals.Nodup
  labels : m.labels.length = m.body.length
  labelNames : (body.labels.map (·.1.value)).Nodup

theorem resolveBody_denotes {scope : Scope} (hdistinct : scope.Distinct) {lines : List (List Char)}
    {body : Tree.Body} (hbody : body.Ordered) {m : MethodDecl}
    (h : resolveBody scope lines body = .ok m) : scope.DenotesBody body m := by
  unfold resolveBody at h
  split at h
  · cases h
  · next hrepeated =>
    obtain ⟨⟨statements, locals⟩, hstmts, hm⟩ := bind_eq_ok.1 h
    cases hm
    obtain ⟨_, hnodup, _, _, hdenotes⟩ := (Scope.stmts_judged (E := fun _ => True) hdistinct hbody
      fun _ _ => .inr ⟨trivial, fun _ _ => trivial⟩).settles _ _ _ List.prefix_rfl List.nodup_nil hstmts
    have hlabels := (firstRepeated?_eq_none.1 (Option.eq_none_iff_forall_ne_some.2 hrepeated)).1
    rw [List.map_map] at hlabels
    exact ⟨rfl, rfl, hdenotes, hnodup, List.length_map _, hlabels⟩

theorem resolveBodies_denotes {scope : Scope} (hdistinct : scope.Distinct)
    {lines : List (List Char)} {bodies : List Tree.Body} (hbodies : ∀ body ∈ bodies, body.Ordered)
    {methods : List MethodDecl} (h : resolveBodies scope lines bodies = .ok methods) :
    List.Forall₂ scope.DenotesBody bodies methods := by
  induction bodies generalizing methods with
  | nil =>
    cases h
    exact .nil
  | cons body rest ih =>
    unfold resolveBodies at h
    obtain ⟨m, hm, h⟩ := bind_eq_ok.1 h
    obtain ⟨others, hothers, h⟩ := bind_eq_ok.1 h
    cases h
    exact .cons (resolveBody_denotes hdistinct (hbodies body List.mem_cons_self) hm)
      (ih (fun b hb => hbodies b (List.mem_cons_of_mem _ hb)) hothers)

theorem methods_names {scope : Scope} {bodies : List Tree.Body} {methods : List MethodDecl}
    (h : List.Forall₂ scope.DenotesBody bodies methods) :
    methods.map (·.name) = bodies.map (·.name.value) := by
  exact (map_eq_of_forall₂ h fun _ _ hbody => hbody.name.symm).symm

def Scope.DenotesInvariant (scope : Scope) (i : Located Tree.Expr) (i' : Located Expr) : Prop :=
  i'.span = i.span ∧ scope.Denotes [] i.value i'.value

theorem resolveInvariants_denotes {scope : Scope} (hdistinct : scope.Distinct)
    {invariants : List (Located Tree.Expr)} {resolved : List (Located Expr)}
    (h : resolveInvariants scope invariants = .ok resolved) :
    List.Forall₂ scope.DenotesInvariant invariants resolved := by
  induction invariants generalizing resolved with
  | nil =>
    cases h
    exact .nil
  | cons invariant rest ih =>
    unfold resolveInvariants at h
    obtain ⟨⟨condition, locals⟩, hcondition, h⟩ := bind_eq_ok.1 h
    obtain ⟨others, hothers, h⟩ := bind_eq_ok.1 h
    cases h
    obtain ⟨_, _, hclosed, _, hdenotes⟩ := (Scope.bodyExpr_judged (E := fun _ => True) hdistinct
      (.inr fun _ _ => trivial)).settles _ _ _ List.prefix_rfl List.nodup_nil hcondition
    rw [hclosed rfl] at hdenotes
    exact .cons ⟨rfl, hdenotes⟩ (ih hothers)

def Program.scope (p : Program) : Scope := ⟨p.classes, p.methods.map (·.name)⟩

structure Tree.Program.DeclaresMain (tree : Tree.Program) (main : ClassDecl) : Prop where
  name : main.name = "Main"
  kind : main.kind = .plain
  statics : List.Forall₂ Tree.Field.Declares tree.statics main.statics

/-- The declared names of a tree: the built-in classes, the classes of the text and its bodies, in
this order. -/
structure Tree.Program.Declares (tree : Tree.Program) (scope : Scope) : Prop where
  classes : ∃ main declared, scope.classes = main :: (builtinClasses.tail ++ declared) ∧
    tree.DeclaresMain main ∧ List.Forall₂ Tree.Class.Declares tree.classes declared
  distinct : scope.Distinct
  methods : scope.methods = tree.bodies.map (·.name.value)

structure Program.Denotes (tree : Tree.Program) (p : Program) : Prop where
  scope : tree.Declares p.scope
  staticNames : (tree.statics.map (·.name.value)).Nodup
  bodyNames : (tree.bodies.map (·.name.value)).Nodup
  methods : List.Forall₂ p.scope.DenotesBody tree.bodies p.methods
  threads : p.threads = threadDecls tree.bodies
  started : p.threads ≠ []
  invariants : List.Forall₂ p.scope.DenotesInvariant tree.invariants p.invariants

theorem declares_of_eq_ok {tree : Tree.Program} {statics : List FieldDecl} {classes : List ClassDecl}
    (hstatics : mainStatics tree.statics [] = .ok statics)
    (hclasses : declareClasses tree.classes
      (builtinClasses.modifyHead fun main => { main with statics }) = .ok classes) :
    tree.Declares ⟨classes, (tree.bodies.map (·.name)).map (·.value)⟩ ∧
      (tree.statics.map (·.name.value)).Nodup := by
  obtain ⟨hdeclares, hstaticNames⟩ := mainStatics_declares hstatics .nil List.nodup_nil
  obtain ⟨hclassNames, declared, hclasses, hdeclared⟩ := declareClasses_declares hclasses (by
    change (builtinClasses.map (·.name)).Nodup
    decide)
  exact ⟨⟨⟨_, declared, hclasses, ⟨rfl, rfl, hdeclares⟩, hdeclared⟩, hclassNames, List.map_map⟩,
    hstaticNames⟩

theorem ofTree_eq_ok {path : String} {lines : List (List Char)} {tree : Tree.Program} {p : Program}
    (h : Program.ofTree path lines tree = .ok p) :
    ∃ statics scope, mainStatics tree.statics [] = .ok statics ∧
      declareClasses tree.classes
        (builtinClasses.modifyHead fun main => { main with statics }) = .ok p.classes ∧
      firstRepeated? (tree.bodies.map (·.name)) [] = none ∧
      scope = ⟨p.classes, (tree.bodies.map (·.name)).map (·.value)⟩ ∧
      resolveBodies scope lines tree.bodies = .ok p.methods ∧
      p.threads = threadDecls tree.bodies ∧ p.threads ≠ [] ∧
      resolveInvariants scope tree.invariants = .ok p.invariants := by
  unfold Program.ofTree at h
  obtain ⟨statics, hstatics, h⟩ := bind_eq_ok.1 h
  obtain ⟨classes, hclasses, h⟩ := bind_eq_ok.1 h
  dsimp only at h
  split at h
  · cases h
  · next hdistinct =>
    obtain ⟨methods, hmethods, h⟩ := bind_eq_ok.1 h
    split at h
    · cases h
    · next hthreads =>
      obtain ⟨invariants, hinvariants, h⟩ := bind_eq_ok.1 h
      cases h
      exact ⟨statics, _, hstatics, hclasses, Option.eq_none_iff_forall_ne_some.2 hdistinct, rfl,
        hmethods, rfl, fun hnone => hthreads (List.isEmpty_iff.2 hnone), hinvariants⟩

theorem ofTree_denotes {path : String} {lines : List (List Char)} {tree : Tree.Program}
    (htree : tree.Ordered) {p : Program} (h : Program.ofTree path lines tree = .ok p) :
    p.Denotes tree := by
  obtain ⟨statics, scope, hstatics, hclasses, hrepeated, hscope, hmethods, hthreads, hstarted,
    hinvariants⟩ := ofTree_eq_ok h
  obtain ⟨hdeclares, hstaticNames⟩ := declares_of_eq_ok hstatics hclasses
  rw [← hscope] at hdeclares
  have hbodies := resolveBodies_denotes hdeclares.distinct htree hmethods
  obtain rfl : scope = p.scope := by
    rw [hscope, Program.scope, methods_names hbodies, List.map_map]
    rfl
  have hbodyNames := (firstRepeated?_eq_none.1 hrepeated).1
  rw [List.map_map] at hbodyNames
  exact ⟨hdeclares, hstaticNames, hbodyNames, hbodies, hthreads, hstarted,
    resolveInvariants_denotes hdeclares.distinct hinvariants⟩

def Tree.Program.plainClasses (tree : Tree.Program) : List String :=
  "Main" :: tree.classes.map (·.name.value)

def Tree.Program.HasStatic (tree : Tree.Program) (owner member : String) : Prop :=
  owner = "Main" ∧ member ∈ tree.statics.map (·.name.value) ∨
    ∃ c ∈ tree.classes, c.name.value = owner ∧
      ∃ field ∈ c.fields, field.isStatic = true ∧ field.name.value = member

namespace Tree.Program.Declares

variable {tree : Tree.Program} {scope : Scope}

theorem mem_names {fields : List Tree.Field} {decls : List FieldDecl}
    (h : List.Forall₂ Tree.Field.Declares fields decls) {name : String} :
    name ∈ fields.map (·.name.value) ↔
      ∃ (slot : Nat) (decl : FieldDecl), decls[slot]? = some decl ∧ decl.name = name := by
  rw [← names_eq_of_declares h, List.mem_map]
  constructor
  · rintro ⟨d, hd, rfl⟩
    obtain ⟨slot, hslot⟩ := List.mem_iff_getElem?.1 hd
    exact ⟨slot, d, hslot, rfl⟩
  · rintro ⟨slot, d, hslot, rfl⟩
    exact ⟨d, List.mem_of_getElem? hslot, rfl⟩

variable (h : tree.Declares scope)

include h

theorem className_eq :
    scope.classes.map (·.name) =
      builtinClasses.map (·.name) ++ tree.classes.map (·.name.value) := by
  obtain ⟨main, declared, hclasses, hmain, hdeclared⟩ := h.classes
  rw [hclasses, List.map_cons, List.map_append, hmain.name,
    map_eq_of_forall₂ hdeclared fun _ _ hdecl => hdecl.name.symm]
  rfl

theorem mainStatic_iff {name : String} :
    (∃ slot, scope.IsStatic mainClass name slot) ↔ name ∈ tree.statics.map (·.name.value) := by
  obtain ⟨main, declared, hclasses, hmain, _⟩ := h.classes
  have hfirst : scope.classes[mainClass]? = some main := by
    rw [hclasses]
    rfl
  rw [mem_names hmain.statics]
  constructor
  · rintro ⟨slot, decl, field, hdecl, hfield, hname⟩
    cases hfirst.symm.trans hdecl
    exact ⟨slot, field, hfield, hname⟩
  · rintro ⟨slot, field, hfield, hname⟩
    exact ⟨slot, main, field, hfirst, hfield, hname⟩

theorem plain_cases {decl : ClassDecl} (hdecl : decl ∈ scope.classes) (hkind : decl.kind = .plain) :
    tree.DeclaresMain decl ∨ ∃ c ∈ tree.classes, c.Declares decl := by
  obtain ⟨main, declared, hclasses, hmain, hdeclared⟩ := h.classes
  rw [hclasses] at hdecl
  rcases List.mem_cons.1 hdecl with rfl | hdecl
  · exact .inl hmain
  · rcases List.mem_append.1 hdecl with hbuiltin | hdecl
    · simp only [builtinClasses, List.tail_cons, List.mem_cons, List.not_mem_nil, or_false] at hbuiltin
      rcases hbuiltin with rfl | rfl | rfl | rfl <;> cases hkind
    · obtain ⟨c, hc, hcd⟩ := forall₂_exists hdeclared.flip hdecl
      exact .inr ⟨c, hc, hcd⟩

theorem isClass_iff {name : String} : (∃ id, scope.IsClass name id) ↔ name ∈ tree.plainClasses := by
  constructor
  · rintro ⟨id, decl, hdecl, hkind, rfl⟩
    rcases h.plain_cases (List.mem_of_getElem? hdecl) hkind with hmain | ⟨c, hc, hcd⟩
    · rw [hmain.name]
      exact List.mem_cons_self
    · rw [hcd.name]
      exact List.mem_cons_of_mem _ (List.mem_map_of_mem hc)
  · intro hname
    obtain ⟨main, declared, hclasses, hmain, hdeclared⟩ := h.classes
    have hfound : ∃ decl ∈ scope.classes, decl.kind = .plain ∧ decl.name = name := by
      rw [hclasses]
      rcases List.mem_cons.1 hname with rfl | hname
      · exact ⟨main, List.mem_cons_self, hmain.kind, hmain.name⟩
      · obtain ⟨c, hc, rfl⟩ := List.mem_map.1 hname
        obtain ⟨decl, hdecl, hcd⟩ := forall₂_exists hdeclared hc
        exact ⟨decl, List.mem_cons_of_mem _ (List.mem_append_right _ hdecl), hcd.kind, hcd.name⟩
    obtain ⟨decl, hdecl, hkind, hdeclName⟩ := hfound
    obtain ⟨id, hid⟩ := List.mem_iff_getElem?.1 hdecl
    exact ⟨id, decl, hid, hkind, hdeclName⟩

theorem eq_of_name_eq {c : Tree.Class} (hc : c ∈ tree.classes) :
    c.name.value ≠ "Main" ∧ ∀ other ∈ tree.classes, other.name.value = c.name.value → other = c := by
  have hnodup := h.distinct
  rw [Scope.Distinct, h.className_eq, List.nodup_append] at hnodup
  obtain ⟨_, hclasses, hapart⟩ := hnodup
  refine ⟨fun heq => hapart "Main" (by decide) _ (List.mem_map_of_mem hc) heq.symm, ?_⟩
  intro other hother heq
  exact List.inj_on_of_nodup_map hclasses hother hc heq

theorem hasStatic_iff {owner member : String} {id : ClassId} (hclass : scope.IsClass owner id) :
    (∃ slot, scope.IsStatic id member slot) ↔ tree.HasStatic owner member := by
  obtain ⟨decl, hdecl, hkind, rfl⟩ := hclass
  have hslots : (∃ slot, scope.IsStatic id member slot) ↔
      ∃ (slot : Nat) (field : FieldDecl), decl.statics[slot]? = some field ∧ field.name = member := by
    constructor
    · rintro ⟨slot, decl', field, hdecl', hfield⟩
      cases hdecl.symm.trans hdecl'
      exact ⟨slot, field, hfield⟩
    · rintro ⟨slot, field, hfield⟩
      exact ⟨slot, decl, field, hdecl, hfield⟩
  rw [hslots]
  rcases h.plain_cases (List.mem_of_getElem? hdecl) hkind with hmain | ⟨c, hc, hcd⟩
  · rw [← mem_names hmain.statics, hmain.name]
    refine ⟨fun hmem => .inl ⟨rfl, hmem⟩, ?_⟩
    rintro (⟨_, hmem⟩ | ⟨c, hc, hname, _⟩)
    · exact hmem
    · exact absurd hname (h.eq_of_name_eq hc).1
  · rw [← mem_names hcd.slots.statics, hcd.name]
    constructor
    · intro hmem
      obtain ⟨field, hfield, hname⟩ := List.mem_map.1 hmem
      obtain ⟨hfield, hstatic⟩ := List.mem_filter.1 hfield
      exact .inr ⟨c, hc, rfl, field, hfield, hstatic, hname⟩
    · rintro (⟨hname, _⟩ | ⟨other, hother, hname, field, hfield, hstatic, hmember⟩)
      · exact absurd hname (h.eq_of_name_eq hc).1
      · obtain rfl := (h.eq_of_name_eq hc).2 other hother hname
        exact List.mem_map.2 ⟨field, List.mem_filter.2 ⟨hfield, hstatic⟩, hmember⟩

end Tree.Program.Declares

theorem threadDecls_entry {bodies : List Tree.Body} {decl : ThreadDecl}
    (h : decl ∈ threadDecls bodies) : decl.entry < bodies.length := by
  obtain ⟨⟨body, id⟩, hmem, hdecl⟩ := List.mem_filterMap.1 h
  dsimp only at hdecl
  split at hdecl
  · cases hdecl
    have hat := List.mem_zipIdx_iff_getElem?.1 hmem
    exact (List.getElem?_eq_some_iff.1 hat).1
  · cases hdecl

section Sound

variable {scope : Scope} {locals : List String} {e : Tree.Expr}

theorem Scope.IsStatic.hasStatic {id : ClassId} (hplain : IsPlain scope.classes id) {name : String}
    {slot : Nat} (h : scope.IsStatic id name slot) : HasStatic scope.classes id slot := by
  obtain ⟨decl, hdecl, hkind⟩ := hplain
  obtain ⟨other, field, hother, hfield, _⟩ := h
  cases hdecl.symm.trans hother
  exact ⟨decl, hdecl, hkind, (List.getElem?_eq_some_iff.1 hfield).1⟩

theorem Scope.IsClass.isPlain {name : String} {id : ClassId} (h : scope.IsClass name id) :
    IsPlain scope.classes id := by
  obtain ⟨decl, hdecl, hkind, _⟩ := h
  exact ⟨decl, hdecl, hkind⟩

section

variable (hmain : IsPlain scope.classes mainClass)

include hmain

theorem Scope.Denotes.sound {e' : Expr} (h : scope.Denotes locals e e') :
    e'.Sound scope.classes := by
  induction h with
  | int | null | localVar => trivial
  | static h => exact h.hasStatic hmain
  | classMember hclass h => exact h.hasStatic hclass.isPlain
  | field _ _ ih => exact ih
  | len _ _ ih => exact ih
  | size _ _ ih => exact ih
  | unary _ _ ih => exact ih
  | index _ _ iha ihi => exact ⟨iha, ihi⟩
  | contains _ _ _ ihc ihi => exact ⟨ihc, ihi⟩
  | binary _ _ _ ihl ihr => exact ⟨ihl, ihr⟩

theorem Scope.Denotes.target_sound {target : Target} (h : scope.Denotes locals e target.expr) :
    target.Sound scope.classes locals.length := by
  cases target with
  | localVar slot =>
    cases h with
    | localVar _ h => exact (List.getElem?_eq_some_iff.1 h).1
  | staticVar | field | index => exact h.sound hmain

theorem Scope.DenotesRvalue.sound {v : Tree.Rvalue} {v' : Rvalue}
    (h : scope.DenotesRvalue locals v v') : v'.Sound scope.classes := by
  cases h with
  | expr h | newIntArray h | newRefArray h => exact h.sound hmain
  | new h => exact h.isPlain
  | newSet | newBag => trivial
  | choose h => exact h

theorem Scope.Locks.sound {target : LockTarget} (h : scope.Locks locals e target) :
    target.Sound scope.classes := by
  cases h with
  | ofClass h => exact h.isPlain
  | object _ h => exact h.sound hmain

theorem Scope.DenotesStmt.sound {body : Tree.Body} {s : Tree.Stmt} {s' : Stmt}
    (h : scope.DenotesStmt body locals s s') :
    s'.Sound scope.classes scope.methods.length locals.length := by
  cases h with
  | assign ht hv => exact ⟨ht.target_sound hmain, hv.sound hmain⟩
  | insert hc hi | remove hc hi => exact ⟨hc.sound hmain, hi.sound hmain⟩
  | lock h | unlock h => exact h.sound hmain
  | assert _ h | ifGoto h _ => exact h.sound hmain
  | call h => exact (List.getElem?_eq_some_iff.1 h).1
  | goto | «return» | yield => trivial

end

/-- Each position in a program that stands for a tree is declared. -/
theorem Program.Denotes.sound {tree : Tree.Program} {p : Program} (h : p.Denotes tree) :
    p.Sound := by
  obtain ⟨main, declared, hclasses, hdeclares, _⟩ := h.scope.classes
  replace hclasses : p.classes = main :: (builtinClasses.tail ++ declared) := hclasses
  have hmain : IsPlain p.scope.classes mainClass :=
    ⟨main, congrArg (·[mainClass]?) hclasses, hdeclares.kind⟩
  refine ⟨?_, ?_, ?_, ?_, fun m hm s hs => ?_, fun t ht => ?_, fun i hi => ?_⟩
  · exact ⟨_, congrArg (·[intArrayClass]?) hclasses, rfl⟩
  · exact ⟨_, congrArg (·[refArrayClass]?) hclasses, rfl⟩
  · exact ⟨_, congrArg (·[setClass]?) hclasses, rfl⟩
  · exact ⟨_, congrArg (·[bagClass]?) hclasses, rfl⟩
  · obtain ⟨body, _, hbody⟩ := forall₂_exists h.methods.flip hm
    obtain ⟨_, _, _, hdenotes⟩ := forall₂_exists hbody.statements.flip hs
    have hsound := hdenotes.sound hmain
    rwa [show p.scope.methods.length = p.methods.length from List.length_map _] at hsound
  · rw [h.threads] at ht
    rw [← h.methods.length_eq]
    exact threadDecls_entry ht
  · obtain ⟨_, _, _, hdenotes⟩ := forall₂_exists h.invariants.flip hi
    exact hdenotes.sound hmain

end Sound

def Tree.Program.Reads (tree : Tree.Program) (source : String) : Prop :=
  ∃ tokens, Token.scan source = .ok tokens ∧ Tree.read tokens = .ok tree

theorem ofSource_eq_ok {source path : String} {p : Program}
    (h : Program.ofSource source path = .ok p) :
    ∃ tree : Tree.Program, tree.Reads source ∧ p.Denotes tree := by
  unfold Program.ofSource at h
  obtain ⟨tokens, htokens, h⟩ := bind_eq_ok.1 h
  obtain ⟨tree, htree, h⟩ := bind_eq_ok.1 h
  split at h
  · cases h
  · exact ⟨tree, ⟨tokens, htokens, htree⟩, ofTree_denotes (read_ordered htokens htree) h⟩

/-- A source text that is accepted gives a sound program. -/
theorem ofSource_sound {source path : String} {p : Program}
    (h : Program.ofSource source path = .ok p) : p.Sound := by
  obtain ⟨_, _, hdenotes⟩ := ofSource_eq_ok h
  exact hdenotes.sound

end Interleave
