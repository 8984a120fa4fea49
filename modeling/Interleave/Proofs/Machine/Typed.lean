import Interleave.Proofs.Correspondence.Isomorphic

set_option autoImplicit false

namespace Interleave

def IsPlain (classes : List ClassDecl) (id : ClassId) : Prop :=
  ∃ decl, classes[id]? = some decl ∧ decl.kind = .plain

def HasStatic (classes : List ClassDecl) (owner : ClassId) (slot : Nat) : Prop :=
  ∃ decl, classes[owner]? = some decl ∧ decl.kind = .plain ∧ slot < decl.statics.length

def Expr.Sound (classes : List ClassDecl) : Expr → Prop
  | .int _ | .null | .localVar _ => True
  | .staticVar owner slot => HasStatic classes owner slot
  | .field e _ | .len e | .size e | .unary _ e => e.Sound classes
  | .index a b | .contains a b | .binary _ a b => a.Sound classes ∧ b.Sound classes

def Target.Sound (classes : List ClassDecl) (locals : Nat) : Target → Prop
  | .localVar slot => slot < locals
  | .staticVar owner slot => HasStatic classes owner slot
  | .field object _ => object.Sound classes
  | .index array i => array.Sound classes ∧ i.Sound classes

def Rvalue.Sound (classes : List ClassDecl) : Rvalue → Prop
  | .expr e | .newIntArray e | .newRefArray e => e.Sound classes
  | .new id => IsPlain classes id
  | .newSet | .newBag => True
  | .choose min max => min ≤ max

def LockTarget.Sound (classes : List ClassDecl) : LockTarget → Prop
  | .ofClass id => IsPlain classes id
  | .object e => e.Sound classes

/-- A statement of a method with so many local variables, in a program with so many methods. A jump
past the end of a body leaves it, so jumps are free. -/
def Stmt.Sound (classes : List ClassDecl) (methods locals : Nat) : Stmt → Prop
  | .assign target value => target.Sound classes locals ∧ value.Sound classes
  | .insert a b | .remove a b => a.Sound classes ∧ b.Sound classes
  | .lock target | .unlock target => target.Sound classes
  | .assert condition _ | .ifGoto condition _ => condition.Sound classes
  | .call method => method < methods
  | .goto _ | .return | .yield => True

def ClassKind.At (kind : ClassKind) (classes : List ClassDecl) (id : ClassId) : Prop :=
  ∃ decl, classes[id]? = some decl ∧ decl.kind = kind

structure Program.Sound (p : Program) : Prop where
  intArray : ClassKind.intArray.At p.classes intArrayClass
  refArray : ClassKind.refArray.At p.classes refArrayClass
  set : ClassKind.set.At p.classes setClass
  bag : ClassKind.bag.At p.classes bagClass
  bodies : ∀ m ∈ p.methods, ∀ s ∈ m.body,
    s.value.Sound p.classes p.methods.length m.locals.length
  entries : ∀ t ∈ p.threads, t.entry < p.methods.length
  invariants : ∀ e ∈ p.invariants, e.value.Sound p.classes

def Fits (values : List Value) (fields : List FieldDecl) : Prop :=
  List.Forall₂ (fun v f => v.fits f.type = true) values fields

inductive Payload.Typed (decl : ClassDecl) : Payload → Prop where
  | fields {values : List Value} (hkind : decl.kind = .plain) (h : Fits values decl.fields) :
      Typed decl (.fields values)
  | ints (hkind : decl.kind = .intArray) (elements : List Int64) : Typed decl (.ints elements)
  | refs (hkind : decl.kind = .refArray) (elements : List (Option Handle)) :
      Typed decl (.refs elements)
  | set (hkind : decl.kind = .set) (members : IdSet Handle) : Typed decl (.set members)
  | bag (hkind : decl.kind = .bag) (members : IdBag Handle) : Typed decl (.bag members)

def Object.Typed (p : Program) (o : Object) : Prop :=
  ∃ decl, p.classes[o.owner]? = some decl ∧ o.payload.Typed decl

def StackFrame.Typed (p : Program) (f : StackFrame) : Prop :=
  ∃ m, p.methods[f.method]? = some m ∧ f.locals.length = m.locals.length

def StaticRecord.Typed (p : Program) (r : StaticRecord) : Prop :=
  ∃ decl, p.classes[r.owner]? = some decl ∧ Fits r.fields decl.statics

structure Program.Typed (p : Program) (s : State) : Prop where
  names : s.threads.map (·.name) = p.threads.map (·.name)
  owners : s.statics.map (·.owner) = p.initialStatics.map (·.owner)
  statics : ∀ r ∈ s.statics, r.Typed p
  objects : ∀ h o, s.heap.get? h = some o → o.Typed p
  frames : ∀ thread ∈ s.threads, ∀ f ∈ thread.frames, f.Typed p

variable {α β ε : Type} {x : Eval α} {f : α → Except ε β} {a : α} {q : α → Prop}

theorem start_fits (fields : List FieldDecl) : Fits (fields.map (·.start)) fields := by
  refine List.forall₂_map_left_iff.2 (List.forall₂_same.2 fun f _ => ?_)
  unfold FieldDecl.start
  cases f.type <;> rfl

theorem Fits.set {values : List Value} {fields : List FieldDecl} (h : Fits values fields)
    {slot : Nat} {field : FieldDecl} (hfield : fields[slot]? = some field) {v : Value}
    (hv : v.fits field.type = true) : Fits (values.set slot v) fields := by
  unfold Fits at h ⊢
  induction h generalizing slot with
  | nil => cases hfield
  | cons hab hrest ih =>
    cases slot with
    | zero =>
      cases hfield
      exact .cons hv hrest
    | succ slot => exact .cons hab (ih hfield)

theorem mem_initialStatics {p : Program} {r : StaticRecord} :
    r ∈ p.initialStatics ↔ ∃ id decl, p.classes[id]? = some decl ∧ decl.kind = .plain ∧
      r = ⟨id, id = mainClass, decl.statics.map (·.start), .free⟩ := by
  simp only [Program.initialStatics, List.mem_filterMap]
  constructor
  · rintro ⟨⟨decl, id⟩, hmem, hr⟩
    dsimp only at hr
    split at hr
    · next hkind =>
      refine ⟨id, decl, ?_, hkind, (Option.some.inj hr).symm⟩
      simpa using List.mem_zipIdx_iff_getElem?.1 hmem
    · cases hr
  · rintro ⟨id, decl, hdecl, hkind, rfl⟩
    refine ⟨(decl, id), List.mem_zipIdx_iff_getElem?.2 (by simpa using hdecl), ?_⟩
    simp [hkind]

section Statics

variable {p : Program} {s : State} {owner : ClassId} {slot : Nat}

theorem Program.Typed.static? (h : p.Typed s) {id : ClassId} (hid : IsPlain p.classes id) :
    ∃ r, s.static? id = some r ∧ r.owner = id ∧ r ∈ s.statics := by
  obtain ⟨decl, hdecl, hkind⟩ := hid
  have howner : id ∈ s.statics.map (·.owner) := by
    rw [h.owners]
    exact List.mem_map.2 ⟨_, mem_initialStatics.2 ⟨id, decl, hdecl, hkind, rfl⟩, rfl⟩
  obtain ⟨q, hq, hqid⟩ := List.mem_map.1 howner
  obtain ⟨r, hr⟩ := Option.isSome_iff_exists.1
    (List.find?_isSome.2 ⟨q, hq, decide_eq_true hqid⟩ : (s.static? id).isSome)
  have hrid := List.find?_some hr
  exact ⟨r, hr, of_decide_eq_true hrid, List.mem_of_find?_eq_some hr⟩

theorem HasStatic.isPlain {classes : List ClassDecl} (h : HasStatic classes owner slot) :
    IsPlain classes owner := by
  obtain ⟨decl, hdecl, hkind, _⟩ := h
  exact ⟨decl, hdecl, hkind⟩

theorem Program.Typed.staticField (h : p.Typed s) (hstatic : HasStatic p.classes owner slot) :
    ∃ v, (s.static? owner).bind (·.fields[slot]?) = some v := by
  obtain ⟨r, hr, rfl, hmem⟩ := h.static? hstatic.isPlain
  obtain ⟨decl, hdecl, _, hslot⟩ := hstatic
  obtain ⟨decl', hdecl', hfits⟩ := h.statics r hmem
  cases hdecl.symm.trans hdecl'
  rw [← List.Forall₂.length_eq hfits] at hslot
  exact ⟨_, by rw [hr]; exact List.getElem?_eq_getElem hslot⟩

end Statics

theorem bind_eq_ok {x : Except ε α} {b : β} : x >>= f = .ok b ↔ ∃ a, x = .ok a ∧ f a = .ok b := by
  cases x with
  | error e =>
    constructor
    · intro h
      cases h
    · rintro ⟨a, h, _⟩
      cases h
  | ok a =>
    constructor
    · exact fun h => ⟨a, rfl, h⟩
    · rintro ⟨a', h, hf⟩
      cases h
      exact hf

theorem bind_run {σ : Type} {x : StateT σ (Except ε) α} {s s' : σ} (hx : x s = .ok (a, s'))
    (f : α → StateT σ (Except ε) β) : (x >>= f) s = f a s' := by
  change (x s >>= fun r => f r.1 r.2) = f a s'
  rw [hx]
  rfl

theorem run_bind_eq_ok {σ : Type} {x : StateT σ (Except ε) α} {f : α → StateT σ (Except ε) β} {s : σ}
    {r : β × σ} : (x >>= f) s = .ok r ↔ ∃ a s', x s = .ok (a, s') ∧ f a s' = .ok r := by
  constructor
  · intro h
    obtain ⟨⟨a, s'⟩, hx, hf⟩ := bind_eq_ok.1 h
    exact ⟨a, s', hx, hf⟩
  · rintro ⟨a, s', hx, hf⟩
    exact (bind_run hx f).trans hf

theorem bind_eq_error {x : Except ε α} {e : ε} (h : x >>= f = .error e) :
    x = .error e ∨ ∃ a, x = .ok a ∧ f a = .error e := by
  cases x with
  | error e' =>
    cases h
    exact .inl rfl
  | ok a => exact .inr ⟨a, rfl, h⟩

def Eval.Safe {α : Type} (x : Eval α) : Prop := ∀ d, x ≠ .error (.defect d)

theorem Eval.Safe.ok (a : α) : Eval.Safe (.ok a : Eval α) := by
  intro d h
  cases h

theorem Eval.Safe.fault (f : Fault) : Eval.Safe (Eval.fault f : Eval α) := by
  intro d h
  cases h

theorem Eval.Safe.bind {f : α → Eval β} (hx : x.Safe) (hf : ∀ a, x = .ok a → (f a).Safe) :
    (x >>= f).Safe := by
  cases x with
  | ok a => exact hf a rfl
  | error e =>
    cases e with
    | fault f => exact .fault f
    | defect d => exact absurd rfl (hx d)

theorem Eval.Safe.map (hx : x.Safe) (f : α → β) : Eval.Safe (f <$> x) := by
  rw [map_eq_pure_bind]
  exact hx.bind fun a _ => .ok (f a)

structure Eval.Gives {α : Type} (q : α → Prop) (x : Eval α) : Prop where
  safe : x.Safe
  result : ∀ a, x = .ok a → q a

theorem Eval.Gives.ok (h : q a) : Eval.Gives q (.ok a : Eval α) := by
  refine ⟨.ok a, fun b hb => ?_⟩
  cases hb
  exact h

theorem Eval.Gives.fault (f : Fault) : Eval.Gives q (Eval.fault f : Eval α) :=
  ⟨.fault f, fun _ hb => by cases hb⟩

theorem Eval.Gives.bind {q : β → Prop} {f : α → Eval β} (hx : x.Safe)
    (hf : ∀ a, x = .ok a → (f a).Gives q) : (x >>= f).Gives q := by
  cases x with
  | ok a => exact hf a rfl
  | error e =>
    cases e with
    | fault f => exact .fault f
    | defect d => exact absurd rfl (hx d)

theorem asInt_safe (v : Value) : v.asInt.Safe := by
  cases v with
  | int v => exact .ok v
  | ref | null => exact .fault _

theorem asHandle_safe (v : Value) : v.asHandle.Safe := by
  cases v with
  | ref h => exact .ok h
  | int | null => exact .fault _

theorem element_safe (elements : List α) (index : Int64) : (element elements index).Safe := by
  unfold element
  split
  · exact .ok _
  · exact .fault _

section Evaluation

variable {p : Program} {s : State} {R : Pairing} {a : Handle}

theorem Eval.Matches.ok_self {α : Type} {r : α → α → Prop} {x : Eval α} (h : x.Matches r x)
    {a : α} (ha : x = .ok a) : r a a := by
  subst ha
  cases h with
  | ok h => exact h

theorem object_gives (h : s.SameMemory R s) (ha : R a a) :
    (s.object a).Gives fun o => s.heap.get? a = some o := by
  obtain ⟨o, _, ho, _, _⟩ := h.objects a a ha
  unfold State.object
  rw [ho]
  exact .ok rfl

theorem fieldSlot_safe {o : Object} (ho : o.Typed p) (name : String) :
    (p.fieldSlot o.owner name).Safe := by
  obtain ⟨decl, hdecl, _⟩ := ho
  unfold Program.fieldSlot
  rw [hdecl]
  dsimp only
  split
  · exact .fault _
  · exact .ok _

theorem readField_safe (ht : p.Typed s) (h : s.SameMemory R s) (ha : R a a) (name : String) :
    (p.readField s a name).Safe := by
  unfold Program.readField
  refine (object_gives h ha).safe.bind fun o ho => ?_
  have hot : o.Typed p := ht.objects a o ((object_gives h ha).result o ho)
  refine (fieldSlot_safe hot name).bind fun x _ => ?_
  obtain ⟨slot, type⟩ := x
  cases o.payload with
  | fields values => exact .ok _
  | ints | refs | set | bag => exact .fault _

theorem readIndex_safe (o : Payload) (index : Int64) : (o.readIndex index).Safe := by
  cases o with
  | ints elements | refs elements => exact (element_safe elements index).map _
  | fields | set | bag => exact .fault _

theorem eval_safe (ht : p.Typed s) (h : s.SameMemory R s) {locals : List Value}
    (hl : List.Forall₂ (Value.Matches R) locals locals) {e : Expr} (he : e.Sound p.classes) :
    (p.eval s locals e).Safe := by
  -- a value in use is paired with itself, so its object is there
  have hpaired : ∀ {e v a}, p.eval s locals e = .ok v → v.asHandle = .ok a → R a a :=
    fun hv ha => ((eval_matches h p hl _).ok_self hv).asHandle.ok_self ha
  have hobject : ∀ {e v a}, p.eval s locals e = .ok v → v.asHandle = .ok a →
      (s.object a).Safe :=
    fun hv ha => (object_gives h (hpaired hv ha)).safe
  induction e with
  | int | null | localVar => exact .ok _
  | staticVar owner slot =>
    obtain ⟨v, hv⟩ := ht.staticField he
    unfold Program.eval
    rw [hv]
    exact .ok v
  | field object name ih =>
    unfold Program.eval
    refine (ih he).bind fun v hv => (asHandle_safe v).bind fun a ha => ?_
    exact readField_safe ht h (hpaired hv ha) name
  | index array index iha ihi =>
    unfold Program.eval
    refine (iha he.1).bind fun v hv => (asHandle_safe v).bind fun a ha => ?_
    refine (ihi he.2).bind fun w _ => (asInt_safe w).bind fun i _ => ?_
    exact (hobject hv ha).bind fun o _ => readIndex_safe o.payload i
  | len array ih =>
    unfold Program.eval
    refine (ih he).bind fun v hv => (asHandle_safe v).bind fun a ha => ?_
    refine (hobject hv ha).bind fun o _ => ?_
    cases o.payload with
    | ints | refs => exact .ok _
    | fields | set | bag => exact .fault _
  | size collection ih =>
    unfold Program.eval
    refine (ih he).bind fun v hv => (asHandle_safe v).bind fun a ha => ?_
    refine (hobject hv ha).bind fun o _ => ?_
    cases o.payload with
    | set | bag => exact .ok _
    | fields | ints | refs => exact .fault _
  | contains collection item ihc ihi =>
    unfold Program.eval
    refine (ihc he.1).bind fun v hv => (asHandle_safe v).bind fun a ha => ?_
    refine (ihi he.2).bind fun w _ => ?_
    cases w with
    | int => exact .fault _
    | null => exact .ok _
    | ref member =>
      refine (hobject hv ha).bind fun o _ => ?_
      cases o.payload with
      | set | bag => exact .ok _
      | fields | ints | refs => exact .fault _
  | unary op operand ih =>
    cases op with
    | neg =>
      unfold Program.eval
      exact (ih he).bind fun v _ => (asInt_safe v).bind fun _ _ => .ok _
    | not =>
      unfold Program.eval
      exact (ih he).bind fun _ _ => .ok _
  | binary op left right ihl ihr =>
    cases op with
    | and =>
      unfold Program.eval
      refine (ihl he.1).bind fun v _ => ?_
      split
      · exact (ihr he.2).bind fun _ _ => .ok _
      · exact .ok _
    | or =>
      unfold Program.eval
      refine (ihl he.1).bind fun v _ => ?_
      split
      · exact .ok _
      · exact (ihr he.2).bind fun _ _ => .ok _
    | eq | ne =>
      unfold Program.eval
      exact (ihl he.1).bind fun _ _ => (ihr he.2).bind fun _ _ => .ok _
    | add | sub | mul | lt | le | gt | ge =>
      unfold Program.eval
      refine (ihl he.1).bind fun v _ => (asInt_safe v).bind fun _ _ => ?_
      exact (ihr he.2).bind fun w _ => (asInt_safe w).bind fun _ _ => .ok _
    | div | rem =>
      unfold Program.eval
      refine (ihl he.1).bind fun v _ => (asInt_safe v).bind fun _ _ => ?_
      refine (ihr he.2).bind fun w _ => (asInt_safe w).bind fun _ _ => ?_
      simp only [BinOp.arith]
      split
      · exact .fault _
      · exact .ok _

end Evaluation

end Interleave
