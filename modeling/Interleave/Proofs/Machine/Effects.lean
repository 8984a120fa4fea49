import Interleave.Proofs.Machine.Execution

set_option autoImplicit false

namespace Interleave

structure State.Inherits (made : ClassId → Prop) (s s' : State) : Prop where
  classes : ∀ id, (s'.static? id).map (·.monitor) = (s.static? id).map (·.monitor)
  kept : ∀ h o, s.heap.get? h = some o →
    ∃ o', s'.heap.get? h = some o' ∧ o'.owner = o.owner ∧ o'.monitor = o.monitor
  made : ∀ h o', s'.heap.get? h = some o' → s.heap.get? h = none →
    made o'.owner ∧ o'.monitor = .free

section Memory

variable {made : ClassId → Prop} {s s' : State}

theorem State.Inherits.of_eq (hstatics : s'.statics = s.statics) (hheap : s'.heap = s.heap) :
    s.Inherits made s' := by
  refine ⟨fun id => ?_, fun h o ho => ⟨o, ?_, rfl, rfl⟩, fun h o ho hnone => ?_⟩
  · rw [State.static?, State.static?, hstatics]
  · rw [hheap]
    exact ho
  · rw [hheap, hnone] at ho
    cases ho

theorem State.Inherits.trans {s₁ : State} (h : s.Inherits made s₁) (h' : s₁.Inherits made s') :
    s.Inherits made s' := by
  refine ⟨fun id => (h'.classes id).trans (h.classes id), ?_, ?_⟩
  · intro a o ho
    obtain ⟨o₁, ho₁, howner, hmonitor⟩ := h.kept a o ho
    obtain ⟨o₂, ho₂, howner', hmonitor'⟩ := h'.kept a o₁ ho₁
    exact ⟨o₂, ho₂, howner'.trans howner, hmonitor'.trans hmonitor⟩
  · intro a o ho hnone
    cases hmid : s₁.heap.get? a with
    | none => exact h'.made a o ho hmid
    | some o₁ =>
      obtain ⟨o₂, ho₂, howner, hmonitor⟩ := h'.kept a o₁ hmid
      cases ho.symm.trans ho₂
      rw [howner, hmonitor]
      exact h.made a o₁ hmid hnone

theorem State.Inherits.modifyStatic (id : ClassId) {f : StaticRecord → StaticRecord}
    (howner : ∀ r, (f r).owner = r.owner) (hmonitor : ∀ r, (f r).monitor = r.monitor) :
    s.Inherits made (s.modifyStatic id f) := by
  refine ⟨fun k => ?_, fun h o ho => ⟨o, ho, rfl, rfl⟩, fun h o ho hnone => ?_⟩
  · exact find?_modify_map (fun r => by rw [howner r]) hmonitor _ _
  · cases ho.symm.trans hnone

theorem State.Inherits.putObject {h : Handle} {o q : Object} (ho : s.heap.get? h = some o)
    (howner : q.owner = o.owner) (hmonitor : q.monitor = o.monitor) :
    s.Inherits made (s.putObject h q) := by
  have hself := Heap.get?_put_self (Heap.lt_of_get? ho) q
  refine ⟨fun _ => rfl, fun k p hp => ?_, fun k p hp hnone => ?_⟩
  · by_cases hkh : k = h
    · subst hkh
      cases ho.symm.trans hp
      exact ⟨q, hself, howner, hmonitor⟩
    · exact ⟨p, (Heap.get?_put_of_ne hkh q).trans hp, rfl, rfl⟩
  · by_cases hkh : k = h
    · subst hkh
      cases ho.symm.trans hnone
    · cases hnone.symm.trans ((Heap.get?_put_of_ne hkh q).symm.trans hp)

theorem State.Inherits.allocate {owner : ClassId} {payload : Payload} {v : Value}
    (h : s.allocate owner payload = (v, s')) (hmade : made owner) : s.Inherits made s' := by
  obtain ⟨-, rfl⟩ := Prod.mk.inj h
  refine ⟨fun _ => rfl, fun h o ho => ⟨o, Heap.get?_allocate_of_get? ho _, rfl, rfl⟩, ?_⟩
  intro h o ho hnone
  rcases Heap.get?_of_allocate ho with hold | ⟨_, rfl⟩
  · cases hnone.symm.trans hold
  · exact ⟨hmade, rfl⟩

theorem State.Inherits.markInitialized (ids : List ClassId) :
    s.Inherits made (s.markInitialized ids) := by
  induction ids generalizing s with
  | nil => exact .of_eq rfl rfl
  | cons id ids ih =>
    have hfirst : s.Inherits made (s.modifyStatic id fun r => { r with initialized := true }) :=
      .modifyStatic id (fun _ => rfl) fun _ => rfl
    exact hfirst.trans ih

end Memory

def Rvalue.Makes : Rvalue → ClassId → Prop
  | .expr _, _ | .choose _ _, _ => False
  | .new id, k => k = id
  | .newIntArray _, k => k = intArrayClass
  | .newRefArray _, k => k = refArrayClass
  | .newSet, k => k = setClass
  | .newBag, k => k = bagClass

def Stmt.Makes : Stmt → ClassId → Prop
  | .assign _ value, k => value.Makes k
  | _, _ => False

def Outcome.Within (q : State → Prop) : Outcome → Prop
  | .next s | .raised _ s => q s
  | .defect _ => True

section Statements

variable {p : Program} {layout : Layout} {made : ClassId → Prop} {s s' : State} {f : StackFrame}
  {t : ThreadId} {data : Option Int64} {v : Value} {collection item : Expr} {α : Type} {x : Eval α}

theorem Outcome.after_eq_next {k : α → Outcome} (h : Outcome.after s x k = .next s') :
    ∃ a, x = .ok a ∧ k a = .next s' := by
  cases x with
  | ok a => exact ⟨a, rfl, h⟩
  | error e => cases e <;> cases h

theorem object_eq_ok {h : Handle} {o : Object} (ho : s.object h = .ok o) :
    s.heap.get? h = some o := by
  unfold State.object at ho
  split at ho
  · next q hq => rw [hq, Except.ok.inj ho]
  · cases ho

/-- The state is the same, or it has one more object, which holds no reference. -/
inductive State.Spawns (s : State) : State → Prop where
  | same : Spawns s s
  | made (owner : ClassId) {payload : Payload} (h : ∀ R : Pairing, payload.Matches R payload) :
      Spawns s (s.allocate owner payload).2

/-- A value is written into a frame, a static or an object. In an object there is nothing else than
what was there and the value. -/
inductive State.Stores (s : State) (t : ThreadId) (v : Value) : State → Prop where
  | locals (g : StackFrame → List Value) :
      Stores s t v (s.modifyTop t fun f => { f with locals := g f })
  | static (id : ClassId) (slot : Nat) (w : Value) :
      Stores s t v (s.modifyStatic id fun r => { r with fields := r.fields.set slot w })
  | object {a : Handle} {o : Object} {payload : Payload} (ho : s.heap.get? a = some o)
      (h : ∀ R : Pairing, Relator.BiUnique R → v.Matches R v → o.payload.Matches R o.payload →
        payload.Matches R payload) : Stores s t v (s.putObject a { o with payload })

theorem rvalue_spawns {mode : Symmetry} {value : Rvalue}
    (h : p.rvalue mode s f data value = .ok (v, s')) :
    s.Spawns s' ∧ s.Inherits value.Makes s' := by
  cases value with
  | expr e =>
    obtain ⟨_, _, h⟩ := bind_eq_ok.1 h
    cases h
    exact ⟨.same, .of_eq rfl rfl⟩
  | choose min max =>
    simp only [Program.rvalue] at h
    split at h <;> cases h
    exact ⟨.same, .of_eq rfl rfl⟩
  | new id =>
    simp only [Program.rvalue] at h
    split at h <;> cases h
    refine ⟨.made id fun R => .fields ?_, .allocate rfl rfl⟩
    exact List.forall₂_map_left_iff.2 (List.forall₂_map_right_iff.2
      (List.forall₂_same.2 fun field _ => start_matches field))
  | newIntArray length =>
    obtain ⟨_, _, h⟩ := bind_eq_ok.1 h
    obtain ⟨_, _, h⟩ := bind_eq_ok.1 h
    obtain ⟨n, _, h⟩ := bind_eq_ok.1 h
    cases h
    exact ⟨.made intArrayClass fun R => .ints _, .allocate rfl rfl⟩
  | newRefArray length =>
    obtain ⟨_, _, h⟩ := bind_eq_ok.1 h
    obtain ⟨_, _, h⟩ := bind_eq_ok.1 h
    obtain ⟨n, _, h⟩ := bind_eq_ok.1 h
    cases h
    refine ⟨.made refArrayClass fun R => .refs (List.forall₂_same.2 fun e he => ?_),
      .allocate rfl rfl⟩
    rw [List.eq_of_mem_replicate he]
    exact .none
  | newSet =>
    cases h
    exact ⟨.made setClass fun R => .set .zero, .allocate rfl rfl⟩
  | newBag =>
    cases h
    exact ⟨.made bagClass fun R => .bag ⟨IdBag.empty_tidy mode, IdBag.empty_tidy mode, .zero⟩,
      .allocate rfl rfl⟩

theorem store_stores {target : Target} (h : p.store s t f v target = .ok s') : s.Stores t v s' := by
  cases target with
  | localVar slot =>
    simp only [Program.store] at h
    split at h <;> cases h
    exact .locals _
  | staticVar owner slot =>
    simp only [Program.store] at h
    split at h
    · cases h
    · obtain ⟨w, _, h⟩ := bind_eq_ok.1 h
      split at h <;> cases h
      exact .static owner slot w
  | field object name =>
    simp only [Program.store] at h
    obtain ⟨_, _, h⟩ := bind_eq_ok.1 h
    obtain ⟨a, _, h⟩ := bind_eq_ok.1 h
    obtain ⟨o, ho, h⟩ := bind_eq_ok.1 h
    obtain ⟨⟨slot, type⟩, _, h⟩ := bind_eq_ok.1 h
    obtain ⟨w, hw, h⟩ := bind_eq_ok.1 h
    split at h
    · next values hvalues =>
      cases h
      refine .object (object_eq_ok ho) fun R _ hv hold => ?_
      rw [hvalues] at hold
      cases hold with
      | fields hold => exact .fields (forall₂_set hold ((hv.checked type).ok_self hw) slot)
    · cases h
  | index array index =>
    simp only [Program.store] at h
    obtain ⟨_, _, h⟩ := bind_eq_ok.1 h
    obtain ⟨a, _, h⟩ := bind_eq_ok.1 h
    obtain ⟨_, _, h⟩ := bind_eq_ok.1 h
    obtain ⟨i, _, h⟩ := bind_eq_ok.1 h
    obtain ⟨o, ho, h⟩ := bind_eq_ok.1 h
    split at h
    · obtain ⟨elements, _, h⟩ := bind_eq_ok.1 h
      cases h
      exact .object (object_eq_ok ho) fun R _ _ _ => .ints elements
    · next elements helements =>
      obtain ⟨changed, hchanged, h⟩ := bind_eq_ok.1 h
      cases h
      refine .object (object_eq_ok ho) fun R _ hv hold => ?_
      rw [helements] at hold
      cases hold with
      | refs hold =>
        refine .refs ((setElement_matches hold i ?_).ok_self hchanged)
        cases hv with
        | int v => exact .stop _
        | null => exact .ok .none
        | ref hk => exact .ok (.some hk)
    · cases h

theorem changeCollection_stores {change : Handle → Handle → Payload → Eval Payload}
    (hchange : ∀ R : Pairing, Relator.BiUnique R → ∀ h a, R a a → ∀ o : Payload, o.Matches R o →
      (change h a o).Matches (Payload.Matches R) (change h a o))
    (h : p.changeCollection s f collection item change = .ok s') :
    ∃ w b, p.eval s f.locals item = .ok w ∧ w.asHandle = .ok b ∧ s.Stores t (.ref b) s' := by
  unfold Program.changeCollection Program.collectionAndItem at h
  simp only [bind_assoc, pure_bind] at h
  obtain ⟨_, _, h⟩ := bind_eq_ok.1 h
  obtain ⟨a, _, h⟩ := bind_eq_ok.1 h
  obtain ⟨w, hw, h⟩ := bind_eq_ok.1 h
  obtain ⟨b, hb, h⟩ := bind_eq_ok.1 h
  obtain ⟨o, ho, h⟩ := bind_eq_ok.1 h
  obtain ⟨q, hq, h⟩ := bind_eq_ok.1 h
  cases h
  refine ⟨w, b, hw, hb, .object (object_eq_ok ho) fun R hR hv hold => ?_⟩
  cases hv with
  | ref hb => exact (hchange R hR a b hb o.payload hold).ok_self hq

theorem State.Spawns.threads (h : s.Spawns s') : s'.threads = s.threads := by
  cases h <;> rfl

theorem State.Spawns.statics (h : s.Spawns s') : s'.statics = s.statics := by
  cases h <;> rfl

theorem State.Stores.inherits (h : s.Stores t v s') : s.Inherits made s' := by
  cases h with
  | locals => exact .of_eq rfl rfl
  | static id => exact .modifyStatic id (fun _ => rfl) fun _ => rfl
  | object ho _ => exact .putObject ho rfl rfl

def Stmt.IsLocking : Stmt → Prop
  | .lock _ | .unlock _ => True
  | _ => False

/-- After a straight statement comes the one below it, whatever is in the memory. -/
def Stmt.isStraight : Stmt → Bool
  | .assign _ (.choose _ _) | .ifGoto _ _ | .goto _ | .call _ | .return => false
  | _ => true

/-- What a statement can do. A value that it writes was read from the memory or refers to what was
just made. -/
inductive Program.Acts (p : Program) (layout : Layout) (s : State) (t : ThreadId) (f : StackFrame)
    (data : Option Int64) (stmt : Stmt) : Outcome → Prop where
  | fails (d : Defect) : Acts p layout s t f data stmt (.defect d)
  | raises (e : Fault) {s₁ : State} (hspawns : s.Spawns s₁) (hinherits : s.Inherits stmt.Makes s₁) :
      Acts p layout s t f data stmt (.raised e s₁)
  | writes {v : Value} {s₁ s₂ : State} (hspawns : s.Spawns s₁)
      (hinherits : s.Inherits stmt.Makes s₁)
      (hv : ∀ R, s.Corresponds R s → f.Matches R f →
        ∃ S, v.Matches S v ∧ s₁.SameMemory S s₁ ∧ ∀ a b, S a b → R a b ∨ a = b)
      (hstores : s₁.Stores t v s₂) :
      Acts p layout s t f data stmt (.next (s₂.modifyTop t fun k => { k with pc := f.pc + 1 }))
  | locks (hstmt : stmt.IsLocking) (m : Monitor) (l : LockRef) : Acts p layout s t f data stmt
      (.next ((s.setMonitor m l).modifyTop t fun k => { k with pc := f.pc + 1 }))
  | passes : Acts p layout s t f data stmt (.next (s.modifyTop t fun k => { k with pc := f.pc + 1 }))
  | jumps (hstmt : stmt.isStraight = false) (g : Thread → List StackFrame) :
      Acts p layout s t f data stmt (.next (s.modifyThread t fun x => { x with frames := g x }))

variable {stmt : Stmt} {o : Outcome}

theorem Program.Acts.after {s₁ : State} {k : α → Outcome} (hspawns : s.Spawns s₁)
    (hinherits : s.Inherits stmt.Makes s₁)
    (hk : ∀ a, x = .ok a → p.Acts layout s t f data stmt (k a)) :
    p.Acts layout s t f data stmt (.after s₁ x k) := by
  cases x with
  | ok a => exact hk a rfl
  | error e =>
    cases e with
    | fault e => exact .raises e hspawns hinherits
    | defect d => exact .fails d

theorem effect_acts (stmt : Stmt) :
    p.Acts layout s t f data stmt (p.effect layout s t f data stmt) := by
  have hself : s.Inherits stmt.Makes s := .of_eq rfl rfl
  have hitem : ∀ {item : Expr} {w : Value} {b : Handle}, p.eval s f.locals item = .ok w →
      w.asHandle = .ok b → ∀ R, s.Corresponds R s → f.Matches R f → ∃ S,
        Value.Matches S (.ref b) (.ref b) ∧ s.SameMemory S s ∧ ∀ a c, S a c → R a c ∨ a = c := by
    intro item w b hw hb R hs hf
    have hpaired : R b b :=
      (((eval_matches hs.toSameMemory p hf.locals item).ok_self hw).asHandle).ok_self hb
    exact ⟨R, .ref hpaired, hs.toSameMemory, fun _ _ => .inl⟩
  cases stmt with
  | assign target value =>
    refine .after .same hself fun ⟨v, s₁⟩ hvalue => ?_
    obtain ⟨hspawns, hinherits⟩ := rvalue_spawns hvalue
    refine .after hspawns hinherits fun s₂ hs₂ =>
      .writes hspawns hinherits (fun R hs hf => ?_) (store_stores hs₂)
    obtain ⟨S, hv, hs₁, _, hsup, _, _⟩ := (rvalue_matches p hs hf layout.mode data value).ok_self hvalue
    exact ⟨S, hv, hs₁.toSameMemory, fun a b hab =>
      (hsup a b hab).imp_right fun hnew => hnew.1.trans hnew.2.symm⟩
  | insert collection item =>
    refine .after .same hself fun s₁ hs₁ => ?_
    obtain ⟨w, b, hw, hb, hstores⟩ :=
      changeCollection_stores (fun _ hR _ _ ha _ ho => insertItem_matches _ _ hR ha ho) hs₁
    exact .writes .same hself (hitem hw hb) hstores
  | remove collection item =>
    refine .after .same hself fun s₁ hs₁ => ?_
    obtain ⟨w, b, hw, hb, hstores⟩ :=
      changeCollection_stores (fun _ hR _ _ ha _ ho => removeItem_matches hR ha ho) hs₁
    exact .writes .same hself (hitem hw hb) hstores
  | lock target | unlock target =>
    -- both ways of changing a monitor end in setting it
    refine .after .same hself fun s₁ hs₁ => ?_
    obtain ⟨⟨l, m⟩, _, hset⟩ := bind_eq_ok.1 hs₁
    dsimp only at hset
    split at hset <;> cases hset
    exact .locks (by trivial) _ l
  | assert condition message =>
    refine .after .same hself fun v _ => ?_
    dsimp only
    split
    · exact .passes
    · exact .raises _ .same hself
  | ifGoto condition target =>
    refine .after .same hself fun v _ => ?_
    dsimp only
    split
    · exact .jumps rfl _
    · exact .passes
  | goto | «return» => exact .jumps rfl _
  | call method =>
    simp only [Program.effect]
    split
    · exact .fails _
    · exact .jumps rfl _
  | yield => exact .passes

/-- Statements other than those on locks leave every monitor as it is. -/
theorem Program.Acts.inherits (h : p.Acts layout s t f data stmt o) (hstmt : ¬ stmt.IsLocking) :
    o.Within (s.Inherits stmt.Makes) := by
  cases h with
  | fails => trivial
  | raises _ _ hinherits => exact hinherits
  | writes _ hinherits _ hstores => exact hinherits.trans (hstores.inherits.trans (.of_eq rfl rfl))
  | locks hlocking => exact absurd hlocking hstmt
  | passes | jumps => exact .of_eq rfl rfl

end Statements

section Steps

variable {p : Program} {layout : Layout} {s s' : State} {t : ThreadId} {data : Option Int64}
  {fault : Option Uncaught}

variable (h : p.execute layout s t data = .ok (s', fault))

include h

theorem execute_effect :
    ∃ f stmt s₁, s.topFrame? t = some f ∧ p.statement? f.method f.pc = some stmt ∧
      (p.effect layout (s.markInitialized stmt.value.owners) t f data stmt.value = .next s₁ ∧
          fault = none ∧ s' = p.updateStatuses (s₁.modifyThread t p.unwind) ∨
        ∃ e thread, p.effect layout (s.markInitialized stmt.value.owners) t f data stmt.value =
          .raised e s₁ ∧ s₁.threads[t]? = some thread ∧ fault = some (e.uncaught thread.name) ∧
          s' = p.updateStatuses (s₁.modifyThread t (·.failed (e.uncaught thread.name)))) := by
  unfold Program.execute Program.perform at h
  cases hf : s.topFrame? t with
  | none => simp [hf] at h
  | some f =>
    cases hstmt : p.statement? f.method f.pc with
    | none => simp [hf, hstmt] at h
    | some stmt =>
      simp only [hf, hstmt] at h
      cases heffect : p.effect layout (s.markInitialized stmt.value.owners) t f data stmt.value with
      | defect d => simp [heffect] at h
      | next s₁ =>
        simp only [heffect] at h
        cases h
        exact ⟨f, stmt, s₁, rfl, hstmt, .inl ⟨heffect, rfl, rfl⟩⟩
      | raised e s₁ =>
        simp only [heffect] at h
        split at h
        · cases h
        · next thread hthread =>
          cases h
          exact ⟨f, stmt, s₁, rfl, hstmt, .inr ⟨e, thread, heffect, hthread, rfl, rfl⟩⟩

theorem execute_acts :
    ∃ f stmt s₁ o, s.topFrame? t = some f ∧ p.statement? f.method f.pc = some stmt ∧
      p.Acts layout (s.markInitialized stmt.value.owners) t f data stmt.value o ∧
      (∀ q, o.Within q → q s₁) ∧ s'.statics = s₁.statics ∧ s'.heap = s₁.heap := by
  obtain ⟨f, stmt, s₁, hf, hstmt, ⟨heffect, _, rfl⟩ | ⟨e, thread, heffect, _, _, rfl⟩⟩ :=
    execute_effect h
  · exact ⟨f, stmt, s₁, .next s₁, hf, hstmt, heffect ▸ effect_acts _, fun _ hq => hq, rfl, rfl⟩
  · exact ⟨f, stmt, s₁, .raised e s₁, hf, hstmt, heffect ▸ effect_acts _, fun _ hq => hq, rfl, rfl⟩

theorem execute_inherits :
    ∃ f stmt, s.topFrame? t = some f ∧ p.statement? f.method f.pc = some stmt ∧
      (¬ stmt.value.IsLocking → s.Inherits stmt.value.Makes s') := by
  obtain ⟨f, stmt, s₁, o, hf, hstmt, hacts, hwithin, hstatics, hheap⟩ := execute_acts h
  refine ⟨f, stmt, hf, hstmt, fun hother => ?_⟩
  have hinit : s.Inherits stmt.value.Makes (s.markInitialized stmt.value.owners) :=
    .markInitialized stmt.value.owners
  exact (hinit.trans (hwithin _ (hacts.inherits hother))).trans (.of_eq hstatics hheap)

end Steps

def State.ClassesWithin (q : ClassId → Prop) (s : State) : Prop :=
  ∀ h o, s.heap.get? h = some o → q o.owner

section Classes

variable {p : Program} {layout : Layout} {q : ClassId → Prop} {s s' : State} {t : ThreadId}
  {data : Option Int64} {fault : Option Uncaught}

theorem State.Inherits.classesWithin {made : ClassId → Prop} (h : s.Inherits made s')
    (hmade : ∀ k, made k → q k) (hs : s.ClassesWithin q) : s'.ClassesWithin q := by
  intro a o' ho'
  cases ho : s.heap.get? a with
  | none => exact hmade _ (h.made a o' ho' ho).1
  | some o =>
    obtain ⟨o₁, ho₁, howner, _⟩ := h.kept a o ho
    cases ho'.symm.trans ho₁
    rw [howner]
    exact hs a o ho

theorem State.ClassesWithin.setMonitor (hs : s.ClassesWithin q) (m : Monitor) (l : LockRef) :
    (s.setMonitor m l).ClassesWithin q := by
  cases l with
  | ofClass id => exact hs
  | object a =>
    cases ho : s.heap.get? a with
    | none =>
      simp only [State.setMonitor, ho]
      exact hs
    | some o =>
      simp only [State.setMonitor, ho]
      intro b o' hb
      by_cases hba : b = a
      · subst hba
        cases (Heap.get?_put_self (Heap.lt_of_get? ho) _).symm.trans hb
        exact hs b o ho
      · exact hs b o' ((Heap.get?_put_of_ne hba _).symm.trans hb)

theorem Program.Acts.classesWithin {f : StackFrame} {stmt : Stmt} {o : Outcome}
    (h : p.Acts layout s t f data stmt o) (hs : s.ClassesWithin q) (hmade : ∀ k, stmt.Makes k → q k) :
    o.Within (State.ClassesWithin q) := by
  cases h with
  | fails => trivial
  | raises _ _ hinherits => exact hinherits.classesWithin hmade hs
  | writes _ hinherits _ hstores => exact (hinherits.trans hstores.inherits).classesWithin hmade hs
  | locks _ m l => exact hs.setMonitor m l
  | passes | jumps => exact hs

theorem execute_classesWithin (h : p.execute layout s t data = .ok (s', fault))
    (hs : s.ClassesWithin q)
    (hmade : ∀ m ∈ p.methods, ∀ stmt ∈ m.body, ∀ k, stmt.value.Makes k → q k) :
    s'.ClassesWithin q := by
  obtain ⟨f, stmt, s₁, o, _, hstmt, hacts, hwithin, _, hheap⟩ := execute_acts h
  obtain ⟨m, hm, hbody⟩ := Option.bind_eq_some_iff.1 hstmt
  have hstart : (s.markInitialized stmt.value.owners).ClassesWithin q := by
    unfold State.ClassesWithin
    rw [markInitialized_heap]
    exact hs
  have hend := hwithin _ (hacts.classesWithin hstart
    (hmade m (List.mem_of_getElem? hm) stmt (List.mem_of_getElem? hbody)))
  unfold State.ClassesWithin
  rw [hheap]
  exact hend

theorem Program.Execution.classesWithin {mode : Symmetry}
    {choices : List (ThreadId × Option Int64)} (h : p.Execution mode choices s fault)
    (hmade : ∀ m ∈ p.methods, ∀ stmt ∈ m.body, ∀ k, stmt.value.Makes k → q k) :
    s.ClassesWithin q := by
  induction h with
  | start h =>
    obtain ⟨threads, _, h⟩ := bind_eq_ok.1 h
    cases h
    intro a o ho
    cases ho
  | step _ hstep ih =>
    obtain ⟨_, hexecuted⟩ := hstep.executed
    exact execute_classesWithin hexecuted ih hmade

end Classes

end Interleave
