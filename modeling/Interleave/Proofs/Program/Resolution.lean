import Interleave.Proofs.Program.Naming

set_option autoImplicit false

namespace Interleave

mutual

def Tree.Expr.parts : Tree.Expr → List Tree.Expr
  | .int value => [.int value]
  | .null => [.null]
  | .name n => [.name n]
  | .member object n => .member object n :: object.parts
  | .index array i => .index array i :: (array.parts ++ i.parts)
  | .call function args => .call function args :: Tree.Expr.partsOf args
  | .unary op e => .unary op e :: e.parts
  | .binary op left right => .binary op left right :: (left.parts ++ right.parts)

def Tree.Expr.partsOf : List Tree.Expr → List Tree.Expr
  | [] => []
  | e :: rest => e.parts ++ Tree.Expr.partsOf rest

end

def Tree.Expr.isClassName (classes : List String) : Tree.Expr → Bool
  | .name n => n.value ∈ classes
  | _ => false

mutual

/-- The bare names of an expression that are used as variables: all but the classes in
`Class.member`. -/
def Tree.Expr.variables (classes : List String) : Tree.Expr → List Tree.Name
  | .int _ | .null => []
  | .name n => [n]
  | .member object _ => if object.isClassName classes then [] else object.variables classes
  | .index array i => array.variables classes ++ i.variables classes
  | .call _ args => Tree.Expr.variablesOf classes args
  | .unary _ e => e.variables classes
  | .binary _ left right => left.variables classes ++ right.variables classes

def Tree.Expr.variablesOf (classes : List String) : List Tree.Expr → List Tree.Name
  | [] => []
  | e :: rest => e.variables classes ++ Tree.Expr.variablesOf classes rest

end

def Tree.Rvalue.exprs : Tree.Rvalue → List Tree.Expr
  | .expr e | .newArray _ e => [e]
  | .new _ | .newSet | .newBag | .choose _ _ => []

def Tree.Stmt.exprs : Tree.Stmt → List Tree.Expr
  | .assign target value => target :: value.exprs
  | .insert collection item | .remove collection item => [collection, item]
  | .lock e | .unlock e | .assert e _ | .ifGoto e _ => [e]
  | .goto _ | .call _ | .return | .yield => []

def Tree.Stmt.label? : Tree.Stmt → Option Tree.Name
  | .ifGoto _ label | .goto label => some label
  | _ => none

def Tree.Expr.isPlace : Tree.Expr → Bool
  | .name _ | .member _ _ | .index _ _ => true
  | _ => false

def builtinFunctions : List (String × Nat) := [("len", 1), ("size", 1), ("contains", 2)]

def Scope.PartDefined (scope : Scope) (part : Tree.Expr) : Prop :=
  (∀ owner member, part = .member (.name owner) member → scope.NamesClass (.name owner) →
    ∃ id slot, scope.IsClass owner.value id ∧ scope.IsStatic id member.value slot) ∧
  ∀ function args, part = .call function args → (function.value, args.length) ∈ builtinFunctions

structure Scope.Accepts (scope : Scope) (labels : List (Tree.Name × Nat)) (s : Tree.Stmt) :
    Prop where
  parts : ∀ e ∈ s.exprs, ∀ part ∈ e.parts, scope.PartDefined part
  place : ∀ target value, s = .assign target value → target.isPlace = true
  new : ∀ target name, s = .assign target (.new name) → ∃ id, scope.IsClass name.value id
  range : ∀ target min max, s = .assign target (.choose min max) → ¬ max < min
  label : ∀ label, s.label? = some label → label.value ∈ labels.map (·.1.value)
  method : ∀ name, s = .call name → name.value ∈ scope.methods

/-- If the action refuses, then at a place that satisfies `E`. -/
def Refuses {α : Type} (E : Span → Prop) (x : Except SourceError α) : Prop :=
  ∀ e, x = .error e → ∃ s, e.span = some s ∧ E s

section Refuses

variable {α β : Type} {E : Span → Prop}

theorem Refuses.ok (a : α) : Refuses E (.ok a : Except SourceError α) := by
  intro e h
  cases h

theorem Refuses.error {reason : Refusal} {span : Span} (h : E span) :
    Refuses E (.error ⟨reason, some span⟩ : Except SourceError α) := by
  intro e he
  cases he
  exact ⟨span, rfl, h⟩

theorem Refuses.bind {x : Except SourceError α} {f : α → Except SourceError β} (hx : Refuses E x)
    (hf : ∀ a, x = .ok a → Refuses E (f a)) : Refuses E (x >>= f) := by
  intro e h
  rcases bind_eq_error h with h | ⟨a, ha, h⟩
  · exact hx e h
  · exact hf a ha e h

theorem Refuses.bindError {reason : Refusal} {span : Span} (h : E span)
    (f : α → Except SourceError β) : Refuses E (.error ⟨reason, some span⟩ >>= f) := error h

end Refuses

namespace Resolve

/-- When these local variables are known, the action adds to them without repeating one, adds none
to a closed list, and what it gives satisfies `q` for those that are known then. -/
def Settles {α : Type} (known : List String) (x : Resolve α) (q : α → List String → Prop) : Prop :=
  ∀ l a l', known <+: l.names → l.names.Nodup → x l = .ok (a, l') →
    l.names <+: l'.names ∧ l'.names.Nodup ∧ (l.closed = true → l'.names = l.names) ∧
      l'.closed = l.closed ∧ q a l'.names

/-- The action settles something, or refuses at a place that satisfies `E` if the list of local
variables is closed as said. -/
structure Judged {α : Type} (E : Span → Prop) (closed : Bool) (known : List String) (x : Resolve α)
    (q : α → List String → Prop) : Prop where
  settles : Settles known x q
  refuses : ∀ l, known <+: l.names → l.names.Nodup → l.closed = closed → Refuses E (x l)

section Judged

variable {α β : Type} {E : Span → Prop} {closed : Bool} {known : List String}
  {q : α → List String → Prop}

theorem Judged.pure {a : α} (h : ∀ names, known <+: names → q a names) :
    Judged E closed known (Pure.pure a) q := by
  refine ⟨fun l b l' hl hnodup hx => ?_, fun _ _ _ _ => .ok _⟩
  cases hx
  exact ⟨List.prefix_rfl, hnodup, fun _ => rfl, rfl, h _ hl⟩

theorem Judged.refuse {reason : Refusal} {span : Span} (h : E span) :
    Judged E closed known (Resolve.refuse reason span) q := by
  refine ⟨fun l b l' _ _ hx => ?_, fun _ _ _ _ => .error h⟩
  cases hx

theorem Judged.bind {r : β → List String → Prop} {x : Resolve α} {f : α → Resolve β}
    (hx : Judged E closed known x q)
    (hf : ∀ a names, known <+: names → q a names → Judged E closed names (f a) r) :
    Judged E closed known (x >>= f) r := by
  refine ⟨fun l b l' hl hnodup h => ?_, fun l hl hnodup hclosed => ?_⟩
  · obtain ⟨a, l₁, hxl, hfl⟩ := run_bind_eq_ok.1 h
    obtain ⟨hgrown, hnodup₁, hsame, hclosed, ha⟩ := hx.settles l a l₁ hl hnodup hxl
    obtain ⟨hgrown', hnodup', hsame', hclosed', hb⟩ :=
      (hf a l₁.names (hl.trans hgrown) ha).settles l₁ b l' List.prefix_rfl hnodup₁ hfl
    refine ⟨hgrown.trans hgrown', hnodup', fun h => ?_, hclosed'.trans hclosed, hb⟩
    rw [hsame' (hclosed.trans h), hsame h]
  · refine (hx.refuses l hl hnodup hclosed).bind fun result hxl => ?_
    obtain ⟨hgrown, hnodup₁, _, hclosed₁, ha⟩ := hx.settles l _ _ hl hnodup hxl
    exact (hf _ _ (hl.trans hgrown) ha).refuses _ List.prefix_rfl hnodup₁ (hclosed₁.trans hclosed)

theorem slot_judged {name : Tree.Name} (h : closed = true → E name.span) :
    Judged E closed known (Resolve.slot name) fun slot names => names[slot]? = some name.value := by
  refine ⟨fun l a l' _ hnodup hrun => ?_, fun l _ _ hclosed => ?_⟩
  · unfold Resolve.slot at hrun
    rw [bind_run (x := get) (a := l) rfl] at hrun
    cases hi : l.names.findIdx? (· == name.value) with
    | some i =>
      simp only [hi] at hrun
      cases hrun
      obtain ⟨hlt, hname, _⟩ := List.findIdx?_eq_some_iff_getElem.1 hi
      refine ⟨List.prefix_rfl, hnodup, fun _ => rfl, rfl, List.getElem?_eq_some_iff.2 ⟨hlt, ?_⟩⟩
      simpa using hname
    | none =>
      have hnew : name.value ∉ l.names := by
        intro hmem
        have hall := List.findIdx?_eq_none_iff.1 hi _ hmem
        simp at hall
      simp only [hi] at hrun
      split at hrun <;> cases hrun
      next hopen =>
      refine ⟨List.prefix_append _ _, ?_, fun h => absurd h hopen, rfl, by simp⟩
      rw [← List.concat_eq_append]
      exact hnodup.concat hnew
  · unfold Resolve.slot
    rw [bind_run (x := get) (a := l) rfl]
    cases l.names.findIdx? (· == name.value) with
    | some i => exact .ok _
    | none =>
      split
      · next hyes => exact .error (h (hclosed.symm.trans hyes))
      · exact .ok _

end Judged

end Resolve

namespace Scope

open Resolve (Judged)

variable {scope : Scope} {body : Tree.Body} {E : Span → Prop} {closed : Bool} {known : List String}

/-- All parts are defined, and the names are statics if there are no local variables; or what is
wrong with them is at one of the places, which satisfy `E`. -/
def Grants (scope : Scope) (E : Span → Prop) (closed : Bool) (parts : List Tree.Expr)
    (names : List Tree.Name) (spans : List Span) : Prop :=
  ((∀ part ∈ parts, scope.PartDefined part) ∧
    (closed = true → ∀ name ∈ names, ∃ slot, scope.IsStatic mainClass name.value slot)) ∨
  ∀ s ∈ spans, E s

section Grants

variable {part : Tree.Expr} {parts parts' : List Tree.Expr} {names names' : List Tree.Name}
  {span : Span} {spans spans' : List Span}

theorem Grants.tail (h : scope.Grants E closed (part :: parts) names spans) :
    scope.Grants E closed parts names spans :=
  h.imp_left fun h => ⟨(List.forall_mem_cons.1 h.1).2, h.2⟩

theorem Grants.place (h : scope.Grants E closed (part :: parts) names (span :: spans)) :
    (scope.PartDefined part ∨ E span) ∧ scope.Grants E closed parts names spans :=
  ⟨h.imp (fun h => h.1 part List.mem_cons_self) fun h => h span List.mem_cons_self,
    h.tail.imp_right fun h => (List.forall_mem_cons.1 h).2⟩

theorem Grants.split (h : scope.Grants E closed (parts ++ parts') (names ++ names') (spans ++ spans')) :
    scope.Grants E closed parts names spans ∧ scope.Grants E closed parts' names' spans' := by
  rcases h with ⟨hparts, hnames⟩ | h
  · rw [List.forall_mem_append] at hparts
    exact ⟨.inl ⟨hparts.1, fun hc => (List.forall_mem_append.1 (hnames hc)).1⟩,
      .inl ⟨hparts.2, fun hc => (List.forall_mem_append.1 (hnames hc)).2⟩⟩
  · rw [List.forall_mem_append] at h
    exact ⟨.inr h.1, .inr h.2⟩

end Grants

theorem member?_judged (hdistinct : scope.Distinct) {object : Tree.Expr} {member : Tree.Name}
    (h : scope.PartDefined (.member object member) ∨ E member.span) :
    Judged E closed known (scope.member? object member) fun found _ =>
      (∃ owner id slot, found = some (id, slot) ∧ object = .name owner ∧
        scope.IsClass owner.value id ∧ scope.IsStatic id member.value slot) ∨
      found = none ∧ ¬ scope.NamesClass object := by
  unfold member?
  split
  · next owner =>
    split
    · next hnone =>
      refine .pure fun _ _ => .inr ⟨rfl, fun h => ?_⟩
      obtain ⟨id, hid⟩ := namesClass_iff.1 h
      exact not_isClass_of_plainClass? hdistinct hnone id hid
    · next id hid =>
      have hclass := isClass_of_plainClass? hid
      split
      · next slot hslot =>
        exact .pure fun _ _ => .inl ⟨owner, id, slot, rfl, rfl, hclass, isStatic_of_static? hslot⟩
      · next hnone =>
        refine .refuse (h.resolve_left fun hpart => ?_)
        obtain ⟨id', slot, hclass', hslot⟩ :=
          hpart.1 owner member rfl (namesClass_iff.2 ⟨id, hclass⟩)
        obtain rfl := IsClass.unique hdistinct hclass' hclass
        exact not_isStatic_of_static? hnone slot hslot
  · next hother =>
    refine .pure fun _ _ => .inr ⟨rfl, ?_⟩
    rintro ⟨name, _, rfl, _⟩
    exact hother name rfl

theorem builtin_judged {function : Tree.Name} {args : List Tree.Expr} {args' : List Expr}
    (hargs : List.Forall₂ (scope.Denotes known) args args')
    (h : scope.PartDefined (.call function args) ∨ E function.span) :
    Judged E closed known (Scope.builtin function args') fun e names =>
      scope.Denotes names (.call function args) e := by
  have hcount : (function.value, args'.length) ∈ builtinFunctions ∨ E function.span :=
    h.imp_left fun h => hargs.length_eq ▸ h.2 function args rfl
  simp only [builtinFunctions, List.mem_cons, Prod.mk.injEq, List.not_mem_nil, or_false,
    List.length_eq_one_iff, List.length_eq_two] at hcount
  unfold Scope.builtin
  split
  · next array hname =>
    obtain ⟨a, rest, ha, hrest, rfl⟩ := List.forall₂_cons_right_iff.1 hargs
    obtain rfl := List.forall₂_nil_right_iff.1 hrest
    exact .pure fun _ hnames => .len hname (ha.mono hnames)
  · next collection hname =>
    obtain ⟨a, rest, ha, hrest, rfl⟩ := List.forall₂_cons_right_iff.1 hargs
    obtain rfl := List.forall₂_nil_right_iff.1 hrest
    exact .pure fun _ hnames => .size hname (ha.mono hnames)
  · next collection item hname =>
    obtain ⟨a, rest, ha, hrest, rfl⟩ := List.forall₂_cons_right_iff.1 hargs
    obtain ⟨b, rest, hb, hnil, rfl⟩ := List.forall₂_cons_right_iff.1 hrest
    obtain rfl := List.forall₂_nil_right_iff.1 hnil
    exact .pure fun _ hnames => .contains hname (ha.mono hnames) (hb.mono hnames)
  all_goals exact .refuse (by grind)

mutual

theorem expr_judged (hdistinct : scope.Distinct) {classes : List String}
    (hclasses : ∀ name ∈ classes, ∃ id, scope.IsClass name id) (e : Tree.Expr) (known : List String)
    (h : scope.Grants E closed e.parts (e.variables classes) e.spans) :
    Judged E closed known (scope.expr e) fun e' names => scope.Denotes names e e' := by
  cases e with
  | int value =>
    unfold Scope.expr
    exact .pure fun _ _ => .int value
  | null =>
    unfold Scope.expr
    exact .pure fun _ _ => .null
  | name name =>
    unfold Scope.expr
    split
    · next slot hslot =>
      rw [mainStatic?_eq] at hslot
      exact .pure fun _ _ => .static (isStatic_of_static? hslot)
    · next hnone =>
      rw [mainStatic?_eq] at hnone
      have hplace : closed = true → E name.span := by
        intro hclosed
        rcases h with ⟨_, hnames⟩ | hspans
        · obtain ⟨slot, hslot⟩ := hnames hclosed name List.mem_cons_self
          exact absurd hslot (not_isStatic_of_static? hnone slot)
        · exact hspans _ List.mem_cons_self
      exact (Resolve.slot_judged hplace).bind fun slot _ _ hslot => .pure fun _ hmore =>
        Denotes.mono hmore (.localVar (not_isStatic_of_static? hnone) hslot)
  | member object member =>
    unfold Scope.expr
    have hplace := Grants.place h
    refine (member?_judged hdistinct hplace.1).bind fun found names _ hfound => ?_
    rcases hfound with ⟨owner, id, slot, rfl, rfl, hclass, hstatic⟩ | ⟨rfl, hclass⟩
    · exact .pure fun _ _ => .classMember hclass hstatic
    · have hobject : object.isClassName classes = false := by
        cases object with
        | name owner =>
          simp only [Tree.Expr.isClassName, decide_eq_false_iff_not]
          exact fun hmem => hclass (namesClass_iff.2 (hclasses _ hmem))
        | int | null | member | index | call | unary | binary => rfl
      have hinner := hplace.2
      rw [Tree.Expr.variables, hobject, if_neg Bool.false_ne_true] at hinner
      exact (expr_judged hdistinct hclasses object names hinner).bind fun e _ _ he =>
        .pure fun _ hmore => .field hclass (he.mono hmore)
  | index array index =>
    unfold Scope.expr
    obtain ⟨harray, hindex⟩ := (Grants.tail h).split
    refine (expr_judged hdistinct hclasses array known harray).bind fun a names _ ha => ?_
    exact (expr_judged hdistinct hclasses index names hindex).bind fun i _ hgrown hi =>
      .pure fun _ hmore => .index (ha.mono (hgrown.trans hmore)) (hi.mono hmore)
  | call function args =>
    unfold Scope.expr
    obtain ⟨hfunction, hargs⟩ := Grants.place h
    exact (exprs_judged hdistinct hclasses args known hargs).bind fun args' _ _ hargs =>
      builtin_judged hargs hfunction
  | unary op operand =>
    unfold Scope.expr
    exact (expr_judged hdistinct hclasses operand known (Grants.tail h)).bind fun e _ _ he =>
      .pure fun _ hmore => .unary op (he.mono hmore)
  | binary op left right =>
    unfold Scope.expr
    obtain ⟨hleft, hright⟩ := (Grants.tail h).split
    refine (expr_judged hdistinct hclasses left known hleft).bind fun a names _ ha => ?_
    exact (expr_judged hdistinct hclasses right names hright).bind fun b _ hgrown hb =>
      .pure fun _ hmore => .binary op (ha.mono (hgrown.trans hmore)) (hb.mono hmore)

theorem exprs_judged (hdistinct : scope.Distinct) {classes : List String}
    (hclasses : ∀ name ∈ classes, ∃ id, scope.IsClass name id) (es : List Tree.Expr)
    (known : List String) (h : scope.Grants E closed (Tree.Expr.partsOf es)
      (Tree.Expr.variablesOf classes es) (Tree.Expr.spansOf es)) :
    Judged E closed known (scope.exprs es) fun es' names =>
      List.Forall₂ (scope.Denotes names) es es' := by
  cases es with
  | nil =>
    unfold Scope.exprs
    exact .pure fun _ _ => .nil
  | cons e rest =>
    unfold Scope.exprs
    obtain ⟨hfirst, hrest⟩ := Grants.split h
    refine (expr_judged hdistinct hclasses e known hfirst).bind fun e' names _ he => ?_
    refine (exprs_judged hdistinct hclasses rest names hrest).bind fun es' _ hgrown hes => ?_
    exact .pure fun _ hmore =>
      .cons (he.mono (hgrown.trans hmore)) (hes.imp fun _ _ h => h.mono hmore)

end

variable {e : Tree.Expr}

variable (hdistinct : scope.Distinct)

include hdistinct

/-- In a body every name can be a local variable, so only the parts matter. -/
theorem bodyExpr_judged (h : (∀ part ∈ e.parts, scope.PartDefined part) ∨ e.Sited E) :
    Judged E false known (scope.expr e) fun e' names => scope.Denotes names e e' :=
  expr_judged hdistinct (List.forall_mem_nil _) e known (h.imp_left fun h => ⟨h, by simp⟩)

theorem target_judged {span : Span} (h : (∀ part ∈ e.parts, scope.PartDefined part) ∨ e.Sited E)
    (hplace : e.isPlace = true ∨ E span) :
    Judged E false known (scope.target e span) fun target names =>
      scope.Denotes names e target.expr := by
  unfold Scope.target
  refine (bodyExpr_judged hdistinct h).bind fun e' names _ he => ?_
  cases e' with
  | localVar | staticVar | field | index => exact .pure fun _ hmore => he.mono hmore
  | int | null | len | size | contains | unary | binary =>
    refine .refuse (hplace.resolve_left fun hplace => ?_)
    cases he
    cases hplace

theorem lockTarget_judged (h : (∀ part ∈ e.parts, scope.PartDefined part) ∨ e.Sited E) :
    Judged E false known (scope.lockTarget e) fun target names => scope.Locks names e target := by
  have hobject : ¬ scope.NamesClass e → Judged E false known (do return .object (← scope.expr e))
      fun (target : LockTarget) names => scope.Locks names e target := fun hclass =>
    (bodyExpr_judged hdistinct h).bind fun _ _ _ he =>
      .pure fun _ hmore => .object hclass (he.mono hmore)
  unfold Scope.lockTarget
  split
  · next name =>
    split
    · next hid => exact .pure fun _ _ => .ofClass (isClass_of_plainClass? hid)
    · next hnone =>
      refine hobject fun h => ?_
      obtain ⟨id, hid⟩ := namesClass_iff.1 h
      exact not_isClass_of_plainClass? hdistinct hnone id hid
  · next hother =>
    refine hobject ?_
    rintro ⟨name, _, rfl, _⟩
    exact hother name rfl

omit hdistinct in
theorem jump_judged (hbody : body.Ordered) {label : Tree.Name}
    (h : label.value ∈ body.labels.map (·.1.value) ∨ E label.span) :
    Judged E closed known (Scope.jump body.labels label) fun pc _ => body.LabelAt label.value pc := by
  unfold Scope.jump
  split
  · next found pc hfound =>
    have hmem := List.mem_of_find?_eq_some hfound
    refine .pure fun _ _ => ⟨found, List.mem_map_of_mem hmem, ?_, hbody found pc hmem⟩
    simpa using List.find?_some hfound
  · next hnone =>
    refine .refuse (h.resolve_left fun hmem => ?_)
    obtain ⟨entry, hentry, hname⟩ := List.mem_map.1 hmem
    have hall := List.find?_eq_none.1 hnone entry hentry
    simp [hname] at hall

omit hdistinct in
theorem method_judged {name : Tree.Name} (h : name.value ∈ scope.methods ∨ E name.span) :
    Judged E closed known (scope.method name) fun id _ => scope.methods[id]? = some name.value := by
  unfold Scope.method
  split
  · next id hid =>
    obtain ⟨hlt, hname, _⟩ := List.findIdx?_eq_some_iff_getElem.1 hid
    refine .pure fun _ _ => List.getElem?_eq_some_iff.2 ⟨hlt, ?_⟩
    simpa using hname
  · next hnone =>
    refine .refuse (h.resolve_left fun hmem => ?_)
    have hall := List.findIdx?_eq_none_iff.1 hnone _ hmem
    simp at hall

theorem rvalue_judged {target : Tree.Expr} {value : Tree.Rvalue} {labels : List (Tree.Name × Nat)}
    {span : Span}
    (h : scope.Accepts labels (.assign target value) ∨ E span ∧ ∀ s ∈ value.spans, E s) :
    Judged E false known (scope.rvalue span value) fun value' names =>
      scope.DenotesRvalue names value value' := by
  cases value with
  | expr e =>
    unfold Scope.rvalue
    have he := h.imp (·.parts e (List.mem_cons_of_mem _ List.mem_cons_self)) (·.2)
    exact (bodyExpr_judged hdistinct he).bind fun _ _ _ he => .pure fun _ hmore => .expr (he.mono hmore)
  | new name =>
    simp only [Scope.rvalue]
    split
    · next hid => exact .pure fun _ _ => .new (isClass_of_plainClass? hid)
    · next hnone =>
      refine .refuse ((h.imp (·.new target name rfl) (·.2 _ List.mem_cons_self)).resolve_left ?_)
      rintro ⟨id, hid⟩
      exact not_isClass_of_plainClass? hdistinct hnone id hid
  | newArray element length =>
    have hlength := h.imp (·.parts length (List.mem_cons_of_mem _ List.mem_cons_self)) (·.2)
    cases element with
    | int =>
      unfold Scope.rvalue
      exact (bodyExpr_judged hdistinct hlength).bind fun _ _ _ he =>
        .pure fun _ hmore => .newIntArray (he.mono hmore)
    | ref =>
      unfold Scope.rvalue
      exact (bodyExpr_judged hdistinct hlength).bind fun _ _ _ he =>
        .pure fun _ hmore => .newRefArray (he.mono hmore)
  | newSet =>
    unfold Scope.rvalue
    exact .pure fun _ _ => .newSet
  | newBag =>
    unfold Scope.rvalue
    exact .pure fun _ _ => .newBag
  | choose min max =>
    simp only [Scope.rvalue]
    split
    · next hlt => exact .refuse ((h.imp (·.range target min max rfl) (·.1)).resolve_left (· hlt))
    · next hle => exact .pure fun _ _ => .choose (Int64.not_lt.1 hle)

theorem stmt_judged (hbody : body.Ordered) {span : Span} {s : Tree.Stmt}
    (h : scope.Accepts body.labels s ∨ E span ∧ ∀ x ∈ s.spans, E x) :
    Judged E false known (scope.stmt body.labels span s) fun s' names =>
      scope.DenotesStmt body names s s' := by
  cases s with
  | assign target value =>
    unfold Scope.stmt
    have hvalue := h.imp_right fun h => And.intro h.1 (List.forall_mem_append.1 h.2).2
    have htarget := h.imp (·.parts target List.mem_cons_self)
      fun h => (List.forall_mem_append.1 h.2).1
    refine (rvalue_judged hdistinct hvalue).bind fun value' names _ hvalue => ?_
    exact (target_judged hdistinct htarget (h.imp (·.place target value rfl) (·.1))).bind
      fun _ _ hgrown htarget => .pure fun _ hmore =>
        .assign (htarget.mono hmore) (hvalue.mono (hgrown.trans hmore))
  | insert collection item =>
    unfold Scope.stmt
    refine (bodyExpr_judged hdistinct (h.imp (·.parts collection List.mem_cons_self)
      fun h => (List.forall_mem_append.1 h.2).1)).bind fun _ names _ hc => ?_
    exact (bodyExpr_judged hdistinct (h.imp (·.parts item (List.mem_cons_of_mem _ List.mem_cons_self))
      fun h => (List.forall_mem_append.1 h.2).2)).bind fun _ _ hgrown hi =>
        .pure fun _ hmore => .insert (hc.mono (hgrown.trans hmore)) (hi.mono hmore)
  | remove collection item =>
    unfold Scope.stmt
    refine (bodyExpr_judged hdistinct (h.imp (·.parts collection List.mem_cons_self)
      fun h => (List.forall_mem_append.1 h.2).1)).bind fun _ names _ hc => ?_
    exact (bodyExpr_judged hdistinct (h.imp (·.parts item (List.mem_cons_of_mem _ List.mem_cons_self))
      fun h => (List.forall_mem_append.1 h.2).2)).bind fun _ _ hgrown hi =>
        .pure fun _ hmore => .remove (hc.mono (hgrown.trans hmore)) (hi.mono hmore)
  | lock target =>
    unfold Scope.stmt
    exact (lockTarget_judged hdistinct (h.imp (·.parts target List.mem_cons_self) (·.2))).bind
      fun _ _ _ h => .pure fun _ hmore => .lock (h.mono hmore)
  | unlock target =>
    unfold Scope.stmt
    exact (lockTarget_judged hdistinct (h.imp (·.parts target List.mem_cons_self) (·.2))).bind
      fun _ _ _ h => .pure fun _ hmore => .unlock (h.mono hmore)
  | assert condition message =>
    unfold Scope.stmt
    exact (bodyExpr_judged hdistinct (h.imp (·.parts condition List.mem_cons_self) (·.2))).bind
      fun _ _ _ h => .pure fun _ hmore => .assert message (h.mono hmore)
  | ifGoto condition label =>
    unfold Scope.stmt
    refine (bodyExpr_judged hdistinct (h.imp (·.parts condition List.mem_cons_self)
      fun h => (List.forall_mem_cons.1 h.2).2)).bind fun _ names _ hcondition => ?_
    exact (jump_judged hbody (h.imp (·.label label rfl) (·.2 _ List.mem_cons_self))).bind
      fun _ _ hgrown hpc => .pure fun _ hmore => .ifGoto (hcondition.mono (hgrown.trans hmore)) hpc
  | goto label =>
    unfold Scope.stmt
    exact (jump_judged hbody (h.imp (·.label label rfl) (·.2 _ List.mem_cons_self))).bind
      fun _ _ _ hpc => .pure fun _ _ => .goto hpc
  | call name =>
    unfold Scope.stmt
    exact (method_judged (h.imp (·.method name rfl) (·.2 _ List.mem_cons_self))).bind
      fun _ _ _ h => .pure fun _ _ => .call h
  | «return» =>
    unfold Scope.stmt
    exact .pure fun _ _ => .return
  | yield =>
    unfold Scope.stmt
    exact .pure fun _ _ => .yield

def DenotesAt (scope : Scope) (body : Tree.Body) (locals : List String) (s : Located Tree.Stmt)
    (s' : Located Stmt) : Prop :=
  s'.span = s.span ∧ scope.DenotesStmt body locals s.value s'.value

theorem stmts_judged (hbody : body.Ordered) {stmts : List (Located Tree.Stmt)}
    (h : ∀ s ∈ stmts, scope.Accepts body.labels s.value ∨ E s.span ∧ ∀ x ∈ s.value.spans, E x) :
    Judged E false known (scope.stmts body.labels stmts) fun stmts' names =>
      List.Forall₂ (scope.DenotesAt body names) stmts stmts' := by
  induction stmts generalizing known with
  | nil =>
    unfold Scope.stmts
    exact .pure fun _ _ => .nil
  | cons s rest ih =>
    unfold Scope.stmts
    rw [List.forall_mem_cons] at h
    refine (stmt_judged hdistinct hbody h.1).bind fun s' names _ hs => ?_
    refine (ih h.2).bind fun rest' _ hgrown hrest => .pure fun _ hmore => ?_
    exact .cons ⟨rfl, hs.mono (hgrown.trans hmore)⟩
      (hrest.imp fun _ _ h => ⟨h.1, h.2.mono hmore⟩)

end Scope

end Interleave
