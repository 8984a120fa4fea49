import Interleave.Proofs.Program.Faults

set_option autoImplicit false

namespace Interleave

def Expr.slots : Expr → List Nat
  | .int _ | .null | .staticVar _ _ => []
  | .localVar slot => [slot]
  | .field object _ => object.slots
  | .index array i => array.slots ++ i.slots
  | .len e | .size e | .unary _ e => e.slots
  | .contains collection item => collection.slots ++ item.slots
  | .binary _ left right => left.slots ++ right.slots

def Rvalue.slots : Rvalue → List Nat
  | .expr e | .newIntArray e | .newRefArray e => e.slots
  | .new _ | .newSet | .newBag | .choose _ _ => []

def LockTarget.slots : LockTarget → List Nat
  | .ofClass _ => []
  | .object e => e.slots

def Stmt.slots : Stmt → List Nat
  | .assign target value => target.expr.slots ++ value.slots
  | .insert collection item | .remove collection item => collection.slots ++ item.slots
  | .lock target | .unlock target => target.slots
  | .assert e _ | .ifGoto e _ => e.slots
  | .goto _ | .call _ | .return | .yield => []

def Stmt.jump? : Stmt → Option Nat
  | .ifGoto _ pc | .goto pc => some pc
  | _ => none

section Positions

variable {scope : Scope} {body : Tree.Body} {locals : List String} {s : Tree.Stmt} {s' : Stmt}
  {e : Tree.Expr} {e' : Expr}

theorem Scope.Denotes.slots_lt (h : scope.Denotes locals e e') :
    ∀ slot ∈ e'.slots, slot < locals.length := by
  induction h with
  | int | null | static | classMember => simp [Expr.slots]
  | localVar _ h =>
    simp only [Expr.slots, List.mem_singleton, forall_eq]
    exact (List.getElem?_eq_some_iff.1 h).1
  | field _ _ ih => exact ih
  | len _ _ ih => exact ih
  | size _ _ ih => exact ih
  | unary _ _ ih => exact ih
  | index _ _ ihl ihr =>
    intro slot hslot
    exact (List.mem_append.1 hslot).elim (ihl slot) (ihr slot)
  | contains _ _ _ ihl ihr =>
    intro slot hslot
    exact (List.mem_append.1 hslot).elim (ihl slot) (ihr slot)
  | binary _ _ _ ihl ihr =>
    intro slot hslot
    exact (List.mem_append.1 hslot).elim (ihl slot) (ihr slot)

theorem Scope.DenotesRvalue.slots_lt {v : Tree.Rvalue} {v' : Rvalue}
    (h : scope.DenotesRvalue locals v v') : ∀ slot ∈ v'.slots, slot < locals.length := by
  cases h with
  | expr h | newIntArray h | newRefArray h => exact h.slots_lt
  | new | newSet | newBag | choose => simp [Rvalue.slots]

theorem Scope.Locks.slots_lt {target : LockTarget} (h : scope.Locks locals e target) :
    ∀ slot ∈ target.slots, slot < locals.length := by
  cases h with
  | ofClass => simp [LockTarget.slots]
  | object _ h => exact h.slots_lt

section

variable (h : scope.DenotesStmt body locals s s')

include h

theorem Scope.DenotesStmt.slots_lt : ∀ slot ∈ s'.slots, slot < locals.length := by
  cases h with
  | assign ht hv =>
    intro slot hslot
    exact (List.mem_append.1 hslot).elim (ht.slots_lt slot) (hv.slots_lt slot)
  | insert hc hi | remove hc hi =>
    intro slot hslot
    exact (List.mem_append.1 hslot).elim (hc.slots_lt slot) (hi.slots_lt slot)
  | lock h | unlock h => exact h.slots_lt
  | assert _ h | ifGoto h _ => exact h.slots_lt
  | goto | call | «return» | yield => simp [Stmt.slots]

theorem Scope.DenotesStmt.jump_le {pc : Nat} (hpc : s'.jump? = some pc) :
    pc ≤ body.statements.length := by
  cases h with
  | ifGoto _ hlabel | goto hlabel =>
    cases hpc
    obtain ⟨label, _, _, rfl⟩ := hlabel
    exact List.countP_le_length
  | assign | insert | remove | lock | unlock | assert | call | «return» | yield => cases hpc

theorem Scope.DenotesStmt.choice_le {min max : Int64} (hchoice : s'.choice? = some (min, max)) :
    min ≤ max := by
  cases h with
  | assign _ hv =>
    cases hv with
    | choose h =>
      cases hchoice
      exact h
    | expr | new | newIntArray | newRefArray | newSet | newBag => cases hchoice
  | insert | remove | lock | unlock | assert | ifGoto | goto | call | «return» | yield =>
    cases hchoice

end

theorem Scope.Denotes.static_iff {name : Tree.Name} {e : Expr}
    (h : scope.Denotes locals (.name name) e) :
    (∃ slot, e = .staticVar mainClass slot) ↔ ∃ slot, scope.IsStatic mainClass name.value slot := by
  cases h with
  | static h => exact ⟨fun _ => ⟨_, h⟩, fun _ => ⟨_, rfl⟩⟩
  | localVar hstatic _ =>
    constructor
    · rintro ⟨_, heq⟩
      cases heq
    · rintro ⟨slot, h⟩
      exact absurd h (hstatic slot)

theorem Scope.Denotes.sameSlot_iff (hlocals : locals.Nodup) {a b : Tree.Name} {e : Expr}
    (ha : scope.Denotes locals (.name a) e) (hb : scope.Denotes locals (.name b) e') :
    (∃ slot, e = .localVar slot ∧ e' = .localVar slot) ↔
      a.value = b.value ∧ ∀ slot, ¬ scope.IsStatic mainClass a.value slot := by
  constructor
  · rintro ⟨slot, rfl, rfl⟩
    cases ha with
    | localVar hstatic ha =>
      cases hb with
      | localVar _ hb => exact ⟨Option.some.inj (ha.symm.trans hb), hstatic⟩
  · rintro ⟨hname, hstatic⟩
    cases ha with
    | static h => exact absurd h (hstatic _)
    | localVar _ ha =>
      cases hb with
      | static h => exact absurd (hname ▸ h) (hstatic _)
      | localVar _ hb =>
        rw [← hname] at hb
        have hlt := (List.getElem?_eq_some_iff.1 ha).1
        obtain rfl := (List.getElem?_inj hlt hlocals).1 (ha.trans hb.symm)
        exact ⟨_, rfl, rfl⟩

end Positions

def Tree.Body.variables (classes : List String) (body : Tree.Body) : List Tree.Name :=
  body.statements.flatMap (·.value.variables classes)

/-- A method that stands for a body, with all positions in range and one local variable for each
name that is used as a variable and is not a static. -/
structure Program.FaithfulBody (p : Program) (tree : Tree.Program) (body : Tree.Body)
    (m : MethodDecl) : Prop extends p.scope.DenotesBody body m where
  jumps : ∀ s ∈ m.body, ∀ pc, s.value.jump? = some pc → pc ≤ m.body.length
  slots : ∀ s ∈ m.body, ∀ slot ∈ s.value.slots, slot < m.locals.length
  choices : ∀ s ∈ m.body, ∀ min max, s.value.choice? = some (min, max) → min ≤ max
  names : ∀ name ∈ body.variables tree.plainClasses, ∃ v, p.scope.Denotes m.locals (.name name) v
  sameSlot : ∀ a b v w, p.scope.Denotes m.locals (.name a) v → p.scope.Denotes m.locals (.name b) w →
    ((∃ slot, v = .localVar slot ∧ w = .localVar slot) ↔
      a.value = b.value ∧ a.value ∉ tree.statics.map (·.name.value))
  statics : ∀ name v, p.scope.Denotes m.locals (.name name) v →
    ((∃ slot, v = .staticVar mainClass slot) ↔ name.value ∈ tree.statics.map (·.name.value))

/-- A program that stands for a tree, body by body and invariant by invariant. -/
structure Program.Faithful (p : Program) (tree : Tree.Program) : Prop where
  scope : tree.Declares p.scope
  classNames : p.classes.map (·.name) =
    builtinClasses.map (·.name) ++ tree.classes.map (·.name.value)
  methodNames : p.methods.map (·.name) = tree.bodies.map (·.name.value)
  methods : List.Forall₂ (p.FaithfulBody tree) tree.bodies p.methods
  threads : p.threads = threadDecls tree.bodies
  started : p.threads ≠ []
  invariants : List.Forall₂ p.scope.DenotesInvariant tree.invariants p.invariants
  closed : ∀ i ∈ p.invariants, i.value.slots = []

section Faithful

variable {tree : Tree.Program} {p : Program}

theorem Program.Denotes.faithfulBody (h : p.Denotes tree) {body : Tree.Body} {m : MethodDecl}
    (hm : p.scope.DenotesBody body m) : p.FaithfulBody tree body m := by
  have hof : ∀ {s : Located Stmt}, s ∈ m.body →
      ∃ s', p.scope.DenotesStmt body m.locals s' s.value := by
    intro s hs
    obtain ⟨s', _, _, hdenotes⟩ := forall₂_exists hm.statements.flip hs
    exact ⟨s'.value, hdenotes⟩
  refine ⟨hm, fun s hs pc hpc => ?_, fun s hs => ?_, fun s hs min max hchoice => ?_,
    fun name hname => ?_, fun a b v w ha hb => ?_, fun name v hv => ?_⟩
  · obtain ⟨_, hdenotes⟩ := hof hs
    rw [← hm.statements.length_eq]
    exact hdenotes.jump_le hpc
  · obtain ⟨_, hdenotes⟩ := hof hs
    exact hdenotes.slots_lt
  · obtain ⟨_, hdenotes⟩ := hof hs
    exact hdenotes.choice_le hchoice
  · obtain ⟨s, hs, hname⟩ := List.mem_flatMap.1 hname
    obtain ⟨_, _, _, hdenotes⟩ := forall₂_exists hm.statements hs
    exact (hdenotes.defined fun _ => h.scope.isClass_iff.1).2 name hname
  · rw [ha.sameSlot_iff hm.locals hb, ← h.scope.mainStatic_iff, not_exists]
  · rw [hv.static_iff, h.scope.mainStatic_iff]

theorem Program.Denotes.faithful (h : p.Denotes tree) : p.Faithful tree := by
  refine ⟨h.scope, h.scope.className_eq, methods_names h.methods,
    h.methods.imp fun _ _ => h.faithfulBody, h.threads, h.started, h.invariants, fun i hi => ?_⟩
  obtain ⟨_, _, _, hdenotes⟩ := forall₂_exists h.invariants.flip hi
  exact List.eq_nil_iff_forall_not_mem.2 fun slot hslot =>
    Nat.not_lt_zero slot (hdenotes.slots_lt slot hslot)

end Faithful

section Source

variable {source path : String} {tree : Tree.Program} {p : Program}

theorem ofSource_succeeds (hreads : tree.Reads source) (h : ¬ tree.Faulty) :
    ∃ p, Program.ofSource source path = .ok p := by
  obtain ⟨tokens, htokens, htree⟩ := hreads
  have hsome : tree.isEmpty = false := by
    by_contra hempty
    simp only [Tree.Program.isEmpty, Bool.not_eq_false, Bool.and_eq_true, List.isEmpty_iff] at hempty
    refine h (.noThread fun body hbody => ?_)
    rw [hempty.1.2] at hbody
    cases hbody
  obtain ⟨p, hp⟩ := ofTree_succeeds (read_ordered htokens htree) h path (Text.lines source)
  refine ⟨p, ?_⟩
  unfold Program.ofSource
  refine bind_eq_ok.2 ⟨tokens, htokens, bind_eq_ok.2 ⟨tree, htree, ?_⟩⟩
  rw [hsome]
  exact hp

end Source

/-- A text that is accepted gives a program that is faithful to its tree, and a text that can be
parsed is refused exactly when its tree is at fault. -/
theorem resolution_faithful (source path : String) :
    (∀ p, Program.ofSource source path = .ok p →
      ∃ tree : Tree.Program, tree.Reads source ∧ p.Faithful tree) ∧
    ∀ tree : Tree.Program, tree.Reads source →
      ((∃ e, Program.ofSource source path = .error e) ↔ tree.Faulty) := by
  constructor
  · intro p h
    obtain ⟨tree, htree, hdenotes⟩ := ofSource_eq_ok h
    exact ⟨tree, htree, hdenotes.faithful⟩
  · intro tree hreads
    constructor
    · rintro ⟨e, he⟩
      by_contra hsound
      obtain ⟨p, hp⟩ := ofSource_succeeds hreads hsound
      rw [hp] at he
      cases he
    · intro hfaulty
      cases hsource : Program.ofSource source path with
      | error e => exact ⟨e, rfl⟩
      | ok p =>
        obtain ⟨tree', ⟨tokens', htokens', htree'⟩, hdenotes⟩ := ofSource_eq_ok hsource
        obtain ⟨tokens, htokens, htree⟩ := hreads
        cases htokens.symm.trans htokens'
        cases htree.symm.trans htree'
        exact absurd hfaulty hdenotes.not_faulty

/-- A thread that chooses again until it has set a static of a class to 2. -/
def settingSource : String :=
  "class C \x7b\n static int n\n\x7d\nthread t \x7b\ntop:\n i = choose(0, 2)\n C.n = i\n" ++
  " if i < 2 goto top\n\x7d\ninvariant C.n < 3\n"

/-- A jump to a label of another body. -/
def strayingSource : String :=
  "thread main \x7b\n  goto done\n\x7d\nmethod rest \x7b\ndone:\n  yield\n\x7d\n"

theorem setting_faithful :
    (∃ p, Program.ofSource settingSource "setting" = .ok p ∧
      ∃ tree : Tree.Program, tree.Reads settingSource ∧ p.Faithful tree) ∧
    ∃ tree : Tree.Program, tree.Reads strayingSource ∧ tree.Faulty ∧
      ∃ e, Program.ofSource strayingSource "straying" = .error e := by
  constructor
  · have haccepted : (Program.ofSource settingSource "setting").toOption.isSome = true := by
      decide +kernel
    cases hp : Program.ofSource settingSource "setting" with
    | error e =>
      rw [hp] at haccepted
      cases haccepted
    | ok p => exact ⟨p, rfl, (resolution_faithful settingSource "setting").1 p hp⟩
  · have hstrays : (Token.scan strayingSource).toOption.any (fun tokens =>
        (Tree.read tokens).toOption.any fun tree => tree.bodies.any fun body =>
          body.statements.any fun s => s.value.label?.any fun label =>
            decide (label.value ∉ body.labels.map (·.1.value))) = true := by
      decide +kernel
    cases hscan : Token.scan strayingSource with
    | error e =>
      rw [hscan] at hstrays
      cases hstrays
    | ok tokens =>
      cases hread : Tree.read tokens with
      | error e => simp [hscan, hread, Except.toOption] at hstrays
      | ok tree =>
        simp only [hscan, hread, Except.toOption, Option.any_some, List.any_eq_true,
          Option.any_eq_true, decide_eq_true_iff] at hstrays
        obtain ⟨body, hbody, s, hs, label, hlabel, hundefined⟩ := hstrays
        have hreads : tree.Reads strayingSource := ⟨tokens, hscan, hread⟩
        have hfaulty : tree.Faulty := .undefinedLabel hbody hs hlabel hundefined
        exact ⟨tree, hreads, hfaulty,
          ((resolution_faithful strayingSource "straying").2 tree hreads).2 hfaulty⟩

end Interleave
