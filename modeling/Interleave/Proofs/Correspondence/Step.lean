import Interleave.Proofs.Correspondence.Eval
import Interleave.Proofs.Store.Heap

set_option autoImplicit false

namespace Interleave

def Pairing.IdentityOn (R : Pairing) (K : Handle → Prop) : Prop := ∀ a b, R a b → a = b ∧ K a

variable {α : Type} {x : Eval α} {f g : Thread → Thread}

theorem Eval.Matches.strict {r : α → α → Prop} {y : Eval α} (h : x.Matches r y) :
    x.Matches (fun a b => r a b ∧ (x = y → a = b)) y := by
  cases h with
  | ok h => exact .ok ⟨h, Except.ok.inj⟩
  | stop e => exact .stop e

section Identity

variable {R : Pairing} (hR : ∀ a b, R a b → a = b)

include hR

theorem Value.Matches.eq {v w : Value} (h : v.Matches R w) : v = w := by
  cases h with
  | int | null => rfl
  | ref hab => rw [hR _ _ hab]

theorem refs_eq {e f : List (Option Handle)} (h : List.Forall₂ (Option.Rel R) e f) : e = f := by
  rw [← List.forall₂_eq_eq_eq]
  refine h.imp fun x y hxy => ?_
  cases hxy with
  | none => rfl
  | some hab => rw [hR _ _ hab]

theorem values_eq {v w : List Value} (h : List.Forall₂ (Value.Matches R) v w) : v = w := by
  rw [← List.forall₂_eq_eq_eq]
  exact h.imp fun _ _ hxy => hxy.eq hR

theorem StackFrame.Matches.eq {f g : StackFrame} (h : f.Matches R g) : f = g := by
  obtain ⟨method, pc, locals⟩ := f
  obtain ⟨rfl, rfl, hlocals⟩ := h
  obtain rfl := values_eq hR hlocals
  rfl

theorem StaticRecord.Matches.eq {r q : StaticRecord} (h : r.Matches R q) : r = q := by
  obtain ⟨owner, initialized, fields, monitor⟩ := r
  obtain ⟨rfl, rfl, hfields, rfl⟩ := h
  obtain rfl := values_eq hR hfields
  rfl

end Identity

namespace State

/-- The first two states became the other two. Where `E` holds and the paired objects were equal, they
are equal still. -/
structure Updated (E : Prop) (R : Pairing) (s t s' t' : State) : Prop where
  corresponds : s'.Corresponds R t'
  left : s'.heap.cells.length = s.heap.cells.length
  right : t'.heap.cells.length = t.heap.cells.length
  exact : E → ∀ K, R.IdentityOn K → s.heap.AgreesOn K t.heap → s'.heap.AgreesOn K t'.heap

structure Grown (E : Prop) (R : Pairing) (s t s' t' : State) : Prop where
  pairing : ∃ S : Pairing, s'.Corresponds S t' ∧ (∀ a b, R a b → S a b) ∧
    ∀ a b, S a b → R a b ∨ (a = s.heap.cells.length ∧ b = t.heap.cells.length)
  sizes : ∃ n, s'.heap.cells.length = s.heap.cells.length + n ∧
    t'.heap.cells.length = t.heap.cells.length + n
  exact : E → ∀ K, R.IdentityOn K → K s.heap.cells.length →
    s.heap.cells.length = t.heap.cells.length → s.heap.AgreesOn K t.heap →
    s'.heap.AgreesOn K t'.heap

variable {E : Prop} {R : Pairing} {s t s' t' u v : State} {a b : Handle}

theorem Updated.refl (h : s.Corresponds R t) : Updated E R s t s t :=
  ⟨h, rfl, rfl, fun _ _ _ hK => hK⟩

theorem Updated.trans (h : Updated E R s t s' t') (h' : Updated E R s' t' u v) : Updated E R s t u v :=
  ⟨h'.corresponds, h'.left.trans h.left, h'.right.trans h.right,
    fun hE K hR hK => h'.exact hE K hR (h.exact hE K hR hK)⟩

theorem Updated.grown (h : Updated E R s t s' t') : Grown E R s t s' t' :=
  ⟨⟨R, h.corresponds, fun _ _ hab => hab, fun _ _ hab => .inl hab⟩, ⟨0, h.left, h.right⟩,
    fun hE K hR _ _ hK => h.exact hE K hR hK⟩

def extend (R : Pairing) (s t : State) : Pairing := fun a b =>
  R a b ∨ (a = s.heap.cells.length ∧ b = t.heap.cells.length)

theorem SameMemory.live_left (h : s.SameMemory R t) (hab : R a b) : a < s.heap.cells.length := by
  obtain ⟨_, _, ha, _, _⟩ := h.objects a b hab
  exact Heap.lt_of_get? ha

theorem SameMemory.live_right (h : s.SameMemory R t) (hab : R a b) : b < t.heap.cells.length := by
  obtain ⟨_, _, _, hb, _⟩ := h.objects a b hab
  exact Heap.lt_of_get? hb

theorem SameMemory.extend_oneToOne (h : s.SameMemory R t) : Relator.BiUnique (extend R s t) := by
  constructor
  · rintro a b c (hac | ⟨rfl, hc⟩) (hbc | ⟨rfl, hc'⟩)
    · exact h.oneToOne.1 hac hbc
    · exact absurd hc' (h.live_right hac).ne
    · exact absurd hc (h.live_right hbc).ne
    · rfl
  · rintro a b c (hab | ⟨ha, rfl⟩) (hac | ⟨ha', rfl⟩)
    · exact h.oneToOne.2 hab hac
    · exact absurd ha' (h.live_left hab).ne
    · exact absurd ha (h.live_left hac).ne
    · rfl

section

variable (h : s.Corresponds R t)

include h

theorem Corresponds.modifyThread (i : ThreadId)
    (hfg : ∀ a b, a.Matches R b → (f a).Matches R (g b)) :
    Updated E R s t (s.modifyThread i f) (t.modifyThread i g) :=
  ⟨⟨⟨h.oneToOne, h.statics, h.objects⟩, forall₂_modify h.threads hfg i⟩, rfl, rfl,
    fun _ _ _ hK => hK⟩

theorem Corresponds.modifyTop (i : ThreadId) {f g : StackFrame → StackFrame}
    (hfg : ∀ a b, a.Matches R b → (f a).Matches R (g b)) :
    Updated E R s t (s.modifyTop i f) (t.modifyTop i g) := by
  refine h.modifyThread i fun a b hab => ⟨hab.name, hab.status, ?_, hab.uncaught⟩
  rw [List.modifyHead_eq_modify_zero, List.modifyHead_eq_modify_zero]
  exact forall₂_modify hab.frames hfg 0

theorem Corresponds.modifyStatic (id : ClassId) {f g : StaticRecord → StaticRecord}
    (hfg : ∀ a b, a.Matches R b → (f a).Matches R (g b)) :
    Updated E R s t (s.modifyStatic id f) (t.modifyStatic id g) := by
  refine ⟨⟨⟨h.oneToOne, ?_, h.objects⟩, h.threads⟩, rfl, rfl, fun _ _ _ hK => hK⟩
  have hidx : s.statics.findIdx (·.owner = id) = t.statics.findIdx (·.owner = id) :=
    forall₂_findIdx h.statics fun r q hrq => by rw [hrq.owner]
  unfold State.modifyStatic
  rw [hidx]
  exact forall₂_modify h.statics hfg _

theorem Corresponds.putObject (hab : R a b) {o q : Object} (hoq : o.Matches R q)
    (hsame : E → (∀ c d, R c d → c = d) → s.heap.get? a = t.heap.get? b → o = q) :
    Updated E R s t (s.putObject a o) (t.putObject b q) := by
  obtain ⟨_, _, hlive, hlive', _⟩ := h.objects a b hab
  refine ⟨⟨⟨h.oneToOne, h.statics, fun c d hcd => ?_⟩, h.threads⟩, Heap.put_length _ _ _,
    Heap.put_length _ _ _, fun hE K hR hK c hc => ?_⟩
  · by_cases hca : c = a
    · obtain rfl : d = b := h.oneToOne.2 hcd (hca ▸ hab)
      subst hca
      exact ⟨o, q, Heap.get?_put_self (Heap.lt_of_get? hlive) o,
        Heap.get?_put_self (Heap.lt_of_get? hlive') q, hoq⟩
    · have hdb : d ≠ b := fun hdb => hca (h.oneToOne.1 hcd (hdb ▸ hab))
      unfold State.putObject
      rw [Heap.get?_put_of_ne hca, Heap.get?_put_of_ne hdb]
      exact h.objects c d hcd
  · obtain ⟨rfl, ha⟩ := hR a b hab
    obtain rfl := hsame hE (fun c d hcd => (hR c d hcd).1) (hK a ha)
    unfold State.putObject
    by_cases hca : c = a
    · rw [hca, Heap.get?_put_self (Heap.lt_of_get? hlive), Heap.get?_put_self (Heap.lt_of_get? hlive')]
    · rw [Heap.get?_put_of_ne hca, Heap.get?_put_of_ne hca]
      exact hK c hc

theorem Corresponds.setMonitor (m : Monitor) {k l : LockRef} (hkl : k.Matches R l) :
    Updated E R s t (s.setMonitor m k) (t.setMonitor m l) := by
  cases hkl with
  | @object a b hab =>
    obtain ⟨o, q, ha, hb, hoq⟩ := h.objects a b hab
    simp only [State.setMonitor, ha, hb]
    refine h.putObject hab ⟨hoq.owner, rfl, hoq.payload⟩ fun _ _ heq => ?_
    rw [Option.some.inj (ha.symm.trans (heq.trans hb))]
  | ofClass id =>
    exact h.modifyStatic id fun r q hrq => ⟨hrq.owner, hrq.initialized, hrq.fields, rfl⟩

theorem Corresponds.markInitialized (ids : List ClassId) :
    Updated E R s t (s.markInitialized ids) (t.markInitialized ids) := by
  induction ids generalizing s t with
  | nil => exact .refl h
  | cons id ids ih =>
    have hone := h.modifyStatic (E := E) id (f := fun record => { record with initialized := true })
      (g := fun record => { record with initialized := true })
      fun r q hrq => ⟨hrq.owner, rfl, hrq.fields, hrq.monitor⟩
    exact hone.trans (ih hone.corresponds)

theorem Corresponds.allocate (owner : ClassId) {o q : Payload} (hoq : o.Matches R q) :
    (s.allocate owner o).1.Matches (extend R s t) (t.allocate owner q).1 ∧
      (s.allocate owner o).2.Corresponds (extend R s t) (t.allocate owner q).2 := by
  have hmono : ∀ a b, R a b → extend R s t a b := fun _ _ hab => .inl hab
  refine ⟨.ref (.inr ⟨rfl, rfl⟩), ⟨h.toSameMemory.extend_oneToOne, ?_, ?_⟩, ?_⟩
  · exact h.statics.imp fun _ _ hrq => hrq.mono hmono
  · rintro a b (hab | ⟨rfl, rfl⟩)
    · obtain ⟨x, y, ha, hb, hxy⟩ := h.objects a b hab
      exact ⟨x, y, Heap.get?_allocate_of_get? ha _, Heap.get?_allocate_of_get? hb _,
        hxy.mono hmono⟩
    · exact ⟨_, _, Heap.get?_allocate_self _ _, Heap.get?_allocate_self _ _, rfl, rfl,
        hoq.mono hmono⟩
  · exact h.threads.imp fun _ _ htu => htu.mono hmono

end

end State

inductive Outcome.Matches (r : State → State → Prop) : Outcome → Outcome → Prop where
  | next {s t : State} (h : r s t) : Matches r (.next s) (.next t)
  | raised (f : Fault) {s t : State} (h : r s t) : Matches r (.raised f s) (.raised f t)
  | defect (d : Defect) : Matches r (.defect d) (.defect d)

theorem Outcome.Matches.after {β : Type} {q : α → β → Prop} {r : State → State → Prop} {s t : State}
    {y : Eval β} {f : α → Outcome} {g : β → Outcome} (hst : r s t) (h : x.Matches q y)
    (hfg : ∀ a b, q a b → (f a).Matches r (g b)) :
    (Outcome.after s x f).Matches r (Outcome.after t y g) := by
  cases h with
  | ok h => exact hfg _ _ h
  | stop e =>
    cases e with
    | fault f => exact .raised f hst
    | defect d => exact .defect d

section Statements

variable {E : Prop} {R : Pairing} {s t : State} {f g : StackFrame} (p : Program)

def Rvalue.Grown (R : Pairing) (s t : State) (x y : Value × State) : Prop :=
  ∃ S : Pairing, x.1.Matches S y.1 ∧ x.2.Corresponds S y.2 ∧ (∀ a b, R a b → S a b) ∧
    (∀ a b, S a b → R a b ∨ (a = s.heap.cells.length ∧ b = t.heap.cells.length)) ∧
    (∃ n, x.2.heap.cells.length = s.heap.cells.length + n ∧
      y.2.heap.cells.length = t.heap.cells.length + n) ∧
    (s.heap.cells.length = t.heap.cells.length →
      ∀ K, s.heap.AgreesOn K t.heap → x.2.heap.AgreesOn K y.2.heap)

variable {o q : Payload} {a b : Handle} {v w : Value}

theorem start_matches (decl : FieldDecl) : decl.start.Matches R decl.start := by
  unfold FieldDecl.start
  cases decl.type with
  | int => exact .int _
  | ref => exact .null

theorem object_eq_of_get?_eq (hab : R a b) {o q : Object}
    (hstrict : s.object a = t.object b → o = q) (hR : ∀ c d, R c d → c = d)
    (heq : s.heap.get? a = t.heap.get? b) : o = q := by
  refine hstrict ?_
  unfold State.object
  rw [heq, hR a b hab]

theorem lockRef_matches (h : s.SameMemory R t) (hfg : f.Matches R g) (target : LockTarget) :
    (p.lockRef s f target).Matches (LockRef.Matches R) (p.lockRef t g target) := by
  cases target with
  | ofClass id => exact .ok (.ofClass id)
  | object e =>
    exact (eval_matches h p hfg.locals e).bind fun _ _ hvw => hvw.asHandle.bind fun _ _ hab =>
      .ok (.object hab)

theorem insertItem_matches (arrange arrange' : Arrangement Handle) (hR : Relator.BiUnique R)
    (hab : R a b) (h : o.Matches R q) :
    (Program.insertItem arrange a o).Matches (Payload.Matches R)
      (Program.insertItem arrange' b q) := by
  cases h with
  | fields | ints | refs => exact .stop _
  | set h => exact .ok (.set (h.add hR hab))
  | bag h => exact .ok (.bag (h.add hR hab))

theorem removeItem_matches (hR : Relator.BiUnique R) (hab : R a b) (h : o.Matches R q) :
    (Program.removeItem a o).Matches (Payload.Matches R) (Program.removeItem b q) := by
  cases h with
  | fields | ints | refs => exact .stop _
  | set h => exact .ok (.set (h.remove hR hab))
  | bag h => exact .ok (.bag (h.removeOne hR hab))

theorem monitor_matches (h : s.SameMemory R t) (hfg : f.Matches R g) (target : LockTarget) :
    (p.monitor s f target).Matches (fun x y => x.1.Matches R y.1 ∧ x.2 = y.2)
      (p.monitor t g target) := by
  refine (lockRef_matches p h hfg target).bind fun l m hlm => ?_
  rw [h.monitor? hlm]
  cases hm : t.monitor? m with
  | some x => exact .ok ⟨hlm, rfl⟩
  | none =>
    cases hlm with
    | object hab =>
      obtain ⟨_, q, _, hq, _⟩ := h.objects _ _ hab
      simp [State.monitor?, hq] at hm
    | ofClass id => exact .stop _

variable (h : s.Corresponds R t)

include h

theorem Rvalue.grown_same (hvw : v.Matches R w) : Rvalue.Grown R s t (v, s) (w, t) :=
  ⟨R, hvw, h, fun _ _ hab => hab, fun _ _ hab => .inl hab, ⟨0, rfl, rfl⟩, fun _ _ hK => hK⟩

theorem Rvalue.grown_allocate (owner : ClassId) (ho : o.Matches R o) :
    Rvalue.Grown R s t (s.allocate owner o) (t.allocate owner o) :=
  ⟨State.extend R s t, (h.allocate owner ho).1, (h.allocate owner ho).2, fun _ _ hab => .inl hab,
    fun _ _ hab => hab, ⟨1, Heap.allocate_length _ _, Heap.allocate_length _ _⟩,
    fun hsize _ hK => hK.allocate hsize _⟩

theorem goTo_updated (i : ThreadId) (pc : Nat) :
    State.Updated E R s t (s.modifyTop i fun f => { f with pc })
      (t.modifyTop i fun f => { f with pc }) :=
  h.modifyTop i fun _ _ hab => ⟨hab.method, rfl, hab.locals⟩

theorem after_goTo_matches {x y : Eval State} (i : ThreadId) (pc : Nat)
    (hxy : x.Matches (State.Updated E R s t) y) :
    (Outcome.after s x fun s => .next (s.modifyTop i fun f => { f with pc })).Matches
      (State.Grown E R s t)
      (Outcome.after t y fun t => .next (t.modifyTop i fun f => { f with pc })) :=
  .after (State.Updated.refl h).grown hxy fun _ _ hab =>
    .next (hab.trans (goTo_updated hab.corresponds i pc)).grown

variable (hfg : f.Matches R g)

include hfg

theorem rvalue_matches (mode : Symmetry) (data : Option Int64) (value : Rvalue) :
    (p.rvalue mode s f data value).Matches (Rvalue.Grown R s t)
      (p.rvalue mode t g data value) := by
  cases value with
  | expr e =>
    exact (eval_matches h.toSameMemory p hfg.locals e).bind fun v w hvw =>
      .ok (Rvalue.grown_same h hvw)
  | choose min max =>
    cases data with
    | none =>
      simp only [Program.rvalue, StackFrame.choiceId, hfg.method, hfg.pc]
      exact .stop _
    | some v => exact .ok (Rvalue.grown_same h (.int v))
  | new id =>
    simp only [Program.rvalue]
    cases p.classes[id]? with
    | none => exact .stop _
    | some decl =>
      refine .ok (Rvalue.grown_allocate h id (.fields ?_))
      exact List.forall₂_map_left_iff.2 (List.forall₂_map_right_iff.2
        (List.forall₂_same.2 fun field _ => start_matches field))
  | newIntArray length =>
    refine (eval_matches h.toSameMemory p hfg.locals length).bind fun v w hvw => ?_
    refine hvw.asInt.bind fun i j hij => ?_
    subst hij
    refine (Eval.Matches.refl (arrayLength i)).bind fun m n hmn => ?_
    subst hmn
    exact .ok (Rvalue.grown_allocate h intArrayClass (.ints _))
  | newRefArray length =>
    refine (eval_matches h.toSameMemory p hfg.locals length).bind fun v w hvw => ?_
    refine hvw.asInt.bind fun i j hij => ?_
    subst hij
    refine (Eval.Matches.refl (arrayLength i)).bind fun m n hmn => ?_
    subst hmn
    refine .ok (Rvalue.grown_allocate h refArrayClass (.refs (List.forall₂_same.2 ?_)))
    intro e he
    rw [List.eq_of_mem_replicate he]
    exact .none
  | newSet => exact .ok (Rvalue.grown_allocate h setClass (.set .zero))
  | newBag =>
    exact .ok (Rvalue.grown_allocate h bagClass
      (.bag ⟨IdBag.empty_tidy mode, IdBag.empty_tidy mode, .zero⟩))

theorem store_matches (i : ThreadId) (hvw : v.Matches R w) (target : Target) :
    (p.store s i f v target).Matches (State.Updated E R s t) (p.store t i g w target) := by
  cases target with
  | localVar slot =>
    simp only [Program.store, hfg.locals.length_eq]
    split
    · refine .ok (h.modifyTop i fun a b hab => ⟨hab.method, hab.pc, ?_⟩)
      exact forall₂_set hab.locals hvw slot
    · exact .stop _
  | staticVar owner slot =>
    simp only [Program.store]
    cases p.classes[owner]?.bind (·.statics[slot]?) with
    | none => exact .stop _
    | some decl =>
      refine (hvw.checked decl.type).bind fun x y hxy => ?_
      obtain ⟨hs, ht⟩ | ⟨_, _, hs, ht, _⟩ :=
        optionRel_cases (h.toSameMemory.staticField owner slot)
      · rw [hs, ht]
        exact .stop _
      · rw [hs, ht]
        exact .ok (h.modifyStatic owner fun r q hrq =>
          ⟨hrq.owner, hrq.initialized, forall₂_set hrq.fields hxy slot, hrq.monitor⟩)
  | field object name =>
    simp only [Program.store]
    refine (eval_matches h.toSameMemory p hfg.locals object).bind fun x y hxy => ?_
    refine hxy.asHandle.bind fun a b hab => ?_
    refine (h.toSameMemory.object hab).strict.bind ?_
    rintro o q ⟨hoq, hstrict⟩
    have hsame := object_eq_of_get?_eq hab hstrict
    rw [hoq.owner]
    refine (Eval.Matches.refl (p.fieldSlot q.owner name)).bind fun x y hxy => ?_
    subst hxy
    refine (hvw.checked x.2).bind fun v w hvw => ?_
    obtain ⟨_, _, o⟩ := o
    obtain ⟨_, _, q⟩ := q
    cases hoq.payload with
    | fields hfields =>
      refine .ok (h.putObject hab ⟨rfl, hoq.monitor, .fields ?_⟩ fun _ hR heq => ?_)
      · exact forall₂_set hfields hvw x.1
      · cases hsame hR heq
        rw [hvw.eq hR]
    | ints | refs | set | bag => exact .stop _
  | index array index =>
    simp only [Program.store]
    refine (eval_matches h.toSameMemory p hfg.locals array).bind fun x y hxy => ?_
    refine hxy.asHandle.bind fun a b hab => ?_
    refine (eval_matches h.toSameMemory p hfg.locals index).bind fun x y hxy => ?_
    refine hxy.asInt.bind fun k l hkl => ?_
    subst hkl
    refine (h.toSameMemory.object hab).strict.bind ?_
    rintro o q ⟨hoq, hstrict⟩
    have hsame := object_eq_of_get?_eq hab hstrict
    obtain ⟨_, _, o⟩ := o
    obtain ⟨_, _, q⟩ := q
    cases hoq.payload with
    | fields | set | bag => exact .stop _
    | ints elements =>
      have hself : List.Forall₂ (· = ·) elements elements := List.forall₂_same.2 fun _ _ => rfl
      dsimp only
      refine (setElement_matches hself k ?_).bind fun x y hxy => ?_
      · cases hvw with
        | int v => exact .ok rfl
        | null | ref => exact .stop _
      · rw [List.forall₂_eq_eq_eq] at hxy
        subst hxy
        refine .ok (h.putObject hab ⟨hoq.owner, hoq.monitor, .ints x⟩ fun _ hR heq => ?_)
        cases hsame hR heq
        rfl
    | refs hef =>
      dsimp only
      refine (setElement_matches hef k ?_).bind fun x y hxy => ?_
      · cases hvw with
        | int v => exact .stop _
        | null => exact .ok .none
        | ref hcd => exact .ok (.some hcd)
      · refine .ok (h.putObject hab ⟨hoq.owner, hoq.monitor, .refs hxy⟩ fun _ hR heq => ?_)
        cases hsame hR heq
        rw [refs_eq hR hxy]

theorem changeCollection_matches (collection item : Expr)
    {change change' : Handle → Handle → Payload → Eval Payload} (hsame : E → change = change')
    (hchange : ∀ a b c d, R c d → ∀ o q, o.Matches R q →
      (change a c o).Matches (Payload.Matches R) (change' b d q)) :
    (p.changeCollection s f collection item change).Matches (State.Updated E R s t)
      (p.changeCollection t g collection item change') := by
  unfold Program.changeCollection Program.collectionAndItem
  simp only [bind_assoc, pure_bind]
  refine (eval_matches h.toSameMemory p hfg.locals collection).bind fun x y hxy => ?_
  refine hxy.asHandle.bind fun a b hab => ?_
  refine (eval_matches h.toSameMemory p hfg.locals item).bind fun x y hxy => ?_
  refine hxy.asHandle.bind fun c d hcd => ?_
  refine (h.toSameMemory.object hab).strict.bind ?_
  rintro o q ⟨hoq, hstrict⟩
  refine (hchange a b c d hcd _ _ hoq.payload).strict.bind ?_
  rintro x y ⟨hxy, hstrict'⟩
  refine .ok (h.putObject hab ⟨hoq.owner, hoq.monitor, hxy⟩ fun hE hR heq => ?_)
  obtain rfl := object_eq_of_get?_eq hab hstrict hR heq
  obtain rfl := hR a b hab
  obtain rfl := hR c d hcd
  rw [hstrict' (by rw [hsame hE])]

theorem enterLock_matches (i : ThreadId) (target : LockTarget) :
    (p.enterLock s i f target).Matches (State.Updated E R s t) (p.enterLock t i g target) := by
  refine (monitor_matches p h.toSameMemory hfg target).bind ?_
  rintro ⟨l, x⟩ ⟨m, y⟩ ⟨hlm, hxy⟩
  simp only at hlm hxy
  subst hxy
  dsimp only
  split
  · exact .ok (h.setMonitor _ hlm)
  · exact .stop _

theorem leaveLock_matches (i : ThreadId) (target : LockTarget) :
    (p.leaveLock s i f target).Matches (State.Updated E R s t) (p.leaveLock t i g target) := by
  refine (monitor_matches p h.toSameMemory hfg target).bind ?_
  rintro ⟨l, x⟩ ⟨m, y⟩ ⟨hlm, hxy⟩
  simp only at hlm hxy
  subst hxy
  dsimp only
  split
  · exact .ok (h.setMonitor _ hlm)
  · exact .stop _

variable {arrange arrange' : Handle → Arrangement Handle}

theorem assign_matches (mode : Symmetry) (i : ThreadId) (data : Option Int64)
    (target : Target) (value : Rvalue) :
    (p.effect ⟨mode, arrange⟩ s i f data (.assign target value)).Matches (State.Grown E R s t)
      (p.effect ⟨mode, arrange'⟩ t i g data (.assign target value)) := by
  simp only [Program.effect, hfg.pc]
  refine .after (State.Updated.refl h).grown (rvalue_matches p h hfg mode data value) ?_
  rintro ⟨v, s₁⟩ ⟨w, t₁⟩ ⟨S, hvw, hcorr, hsub, hsup, ⟨n, hs₁, ht₁⟩, hexact⟩
  have hgrown : ∀ s₂ t₂, State.Updated E S s₁ t₁ s₂ t₂ → State.Grown E R s t s₂ t₂ := by
    intro s₂ t₂ hup
    refine ⟨⟨S, hup.corresponds, hsub, hsup⟩, ⟨n, hup.left.trans hs₁, hup.right.trans ht₁⟩, ?_⟩
    intro hE K hR hnew hsize hK
    refine hup.exact hE K ?_ (hexact hsize K hK)
    intro a b hab
    rcases hsup a b hab with hold | ⟨rfl, rfl⟩
    · exact hR a b hold
    · exact ⟨hsize, hnew⟩
  have hfg' : f.Matches S g := hfg.mono hsub
  refine .after (hgrown _ _ (.refl hcorr)) (store_matches (E := E) p hcorr hfg' i hvw target) ?_
  intro s₂ t₂ hup
  exact .next (hgrown _ _ (hup.trans (goTo_updated hup.corresponds i _)))

theorem effect_matches (mode : Symmetry) (harrange : E → arrange = arrange')
    (i : ThreadId) (data : Option Int64) (stmt : Stmt) :
    (p.effect ⟨mode, arrange⟩ s i f data stmt).Matches (State.Grown E R s t)
      (p.effect ⟨mode, arrange'⟩ t i g data stmt) := by
  have hgoOn : ∀ pc, State.Grown E R s t (s.modifyTop i fun f => { f with pc })
      (t.modifyTop i fun f => { f with pc }) := fun pc => (goTo_updated h i pc).grown
  cases stmt with
  | assign target value => exact assign_matches p h hfg mode i data target value
  | insert collection item =>
    simp only [Program.effect, hfg.pc]
    refine after_goTo_matches h i _ (changeCollection_matches p h hfg collection item (fun hE => ?_)
      fun _ _ _ _ hab _ _ hoq => insertItem_matches _ _ h.oneToOne hab hoq)
    rw [harrange hE]
  | remove collection item =>
    simp only [Program.effect, hfg.pc]
    exact after_goTo_matches h i _ (changeCollection_matches p h hfg collection item (fun _ => rfl)
      fun _ _ _ _ hab _ _ hoq => removeItem_matches h.oneToOne hab hoq)
  | lock target =>
    simp only [Program.effect, hfg.pc]
    exact after_goTo_matches h i _ (enterLock_matches p h hfg i target)
  | unlock target =>
    simp only [Program.effect, hfg.pc]
    exact after_goTo_matches h i _ (leaveLock_matches p h hfg i target)
  | assert condition message =>
    simp only [Program.effect, hfg.pc, hfg.method]
    refine .after (State.Updated.refl h).grown (eval_matches h.toSameMemory p hfg.locals _) ?_
    intro v w hvw
    rw [hvw.isTrue]
    split
    · exact .next (hgoOn _)
    · exact .raised _ (State.Updated.refl h).grown
  | ifGoto condition target =>
    simp only [Program.effect, hfg.pc]
    refine .after (State.Updated.refl h).grown (eval_matches h.toSameMemory p hfg.locals _) ?_
    intro v w hvw
    rw [hvw.isTrue]
    split
    · exact .next (hgoOn _)
    · exact .next (hgoOn _)
  | goto target => exact .next (hgoOn _)
  | call method =>
    simp only [Program.effect, hfg.pc]
    unfold Program.newFrame
    cases p.methods[method]? with
    | none => exact .defect _
    | some decl =>
      refine .next (State.Updated.grown (h.modifyThread i fun a b hab => ?_))
      refine ⟨hab.name, hab.status, .cons ⟨rfl, rfl, ?_⟩ ?_, hab.uncaught⟩
      · refine List.forall₂_same.2 fun v hv => ?_
        rw [List.eq_of_mem_replicate hv]
        exact .int 0
      · rw [List.modifyHead_eq_modify_zero, List.modifyHead_eq_modify_zero]
        refine forall₂_modify hab.frames (fun _ _ hframe => ?_) 0
        exact ⟨hframe.method, rfl, hframe.locals⟩
  | «return» =>
    refine .next (State.Updated.grown (h.modifyThread i fun a b hab => ?_))
    refine ⟨hab.name, hab.status, ?_, hab.uncaught⟩
    rw [← List.drop_one, ← List.drop_one]
    exact List.forall₂_drop 1 hab.frames
  | yield =>
    simp only [Program.effect, hfg.pc]
    exact .next (hgoOn _)

end Statements

section Steps

variable {E : Prop} {R : Pairing} {s t s' t' : State} (p : Program) {a b : Thread}
  {x y : ThreadStatus} {arrange arrange' : Handle → Arrangement Handle}

theorem State.Updated.grown_trans {u v : State} (h : State.Updated E R s t s' t')
    (h' : State.Grown E R s' t' u v) : State.Grown E R s t u v := by
  obtain ⟨⟨S, hcorr, hsub, hsup⟩, ⟨n, hu, hv⟩, hexact⟩ := h'
  rw [h.left, h.right] at hsup hexact
  rw [h.left] at hu
  rw [h.right] at hv
  exact ⟨⟨S, hcorr, hsub, hsup⟩, ⟨n, hu, hv⟩,
    fun hE K hR hnew hsize hK => hexact hE K hR hnew hsize (h.exact hE K hR hK)⟩

theorem State.Corresponds.topFrame? (h : s.Corresponds R t) (i : ThreadId) :
    Option.Rel (StackFrame.Matches R) (s.topFrame? i) (t.topFrame? i) := by
  unfold State.topFrame?
  obtain ⟨hs, ht⟩ | ⟨a, b, hs, ht, hab⟩ := optionRel_cases (forall₂_getElem? h.threads i)
  · rw [hs, ht]
    exact .none
  · rw [hs, ht]
    simpa [List.head?_eq_getElem?] using forall₂_getElem? hab.frames 0

theorem perform_matches (h : s.Corresponds R t) (mode : Symmetry)
    (harrange : E → arrange = arrange') (i : ThreadId) (data : Option Int64) :
    (p.perform ⟨mode, arrange⟩ s i data).Matches (State.Grown E R s t)
      (p.perform ⟨mode, arrange'⟩ t i data) := by
  unfold Program.perform
  obtain ⟨hs, ht⟩ | ⟨f, g, hs, ht, hfg⟩ := optionRel_cases (h.topFrame? i)
  · rw [hs, ht]
    exact .defect _
  · rw [hs, ht]
    dsimp only
    rw [hfg.method, hfg.pc]
    cases p.statement? g.method g.pc with
    | none => exact .defect _
    | some stmt =>
      have hinit := h.markInitialized (E := E) stmt.value.owners
      have heff := effect_matches p hinit.corresponds hfg mode harrange i data stmt.value
      dsimp only
      revert heff
      generalize p.effect _ (s.markInitialized stmt.value.owners) i f data stmt.value = x
      generalize p.effect _ (t.markInitialized stmt.value.owners) i g data stmt.value = y
      intro heff
      cases heff with
      | next hgrown => exact .next (hinit.grown_trans hgrown)
      | raised e hgrown => exact .raised e (hinit.grown_trans hgrown)
      | defect d => exact .defect d

theorem unwind_matches (h : a.Matches R b) : (p.unwind a).Matches R (p.unwind b) := by
  have hdrop : List.Forall₂ (StackFrame.Matches R)
      (a.frames.dropWhile fun f => p.bodyLength f.method ≤ f.pc)
      (b.frames.dropWhile fun f => p.bodyLength f.method ≤ f.pc) :=
    forall₂_dropWhile h.frames fun f g hfg => by rw [hfg.method, hfg.pc]
  unfold Program.unwind
  revert hdrop
  generalize a.frames.dropWhile _ = k
  generalize b.frames.dropWhile _ = l
  intro hdrop
  cases hdrop with
  | nil => exact ⟨h.name, .terminated, .nil, h.uncaught⟩
  | cons hfg hrest => exact ⟨h.name, h.status, .cons hfg hrest, h.uncaught⟩

theorem ThreadStatus.Matches.runnable_iff (h : x.Matches R y) : x = .runnable ↔ y = .runnable := by
  cases h <;> simp

theorem ThreadStatus.Matches.terminated_iff (h : x.Matches R y) :
    x = .terminated ↔ y = .terminated := by
  cases h <;> simp

theorem Thread.Matches.isAlive (h : a.Matches R b) : a.isAlive = b.isAlive := by
  simp [Thread.isAlive, h.status.terminated_iff]

theorem Thread.Matches.isRunnable (h : a.Matches R b) : a.isRunnable = b.isRunnable := by
  simp [Thread.isRunnable, h.status.runnable_iff]

theorem statusOf_matches (h : s.SameMemory R t) (i : ThreadId) (halive : a.isAlive = b.isAlive)
    (hframes : List.Forall₂ (StackFrame.Matches R) a.frames b.frames) :
    (p.statusOf s i a).Matches R (p.statusOf t i b) := by
  unfold Program.statusOf
  rw [halive]
  split
  · exact .terminated
  · revert hframes
    generalize a.frames = k
    generalize b.frames = l
    intro hframes
    cases hframes with
    | nil => exact .runnable
    | @cons f g _ _ hfg _ =>
      dsimp only
      rw [hfg.method, hfg.pc]
      cases p.statement? g.method g.pc with
      | none => exact .runnable
      | some stmt =>
        obtain ⟨stmt, span⟩ := stmt
        cases stmt with
        | lock target =>
          have hlock := lockRef_matches p h hfg target
          dsimp only
          revert hlock
          generalize p.lockRef s f target = x
          generalize p.lockRef t g target = y
          intro hlock
          cases hlock with
          | stop e => exact .runnable
          | ok hlm =>
            dsimp only
            rw [h.monitor? hlm]
            split
            · exact .runnable
            · exact .blocked hlm
        | assign | insert | remove | unlock | assert | ifGoto | goto | call | «return» | yield =>
          exact .runnable

theorem updateStatuses_corresponds (h : s.Corresponds R t) :
    (p.updateStatuses s).Corresponds R (p.updateStatuses t) := by
  refine ⟨⟨h.oneToOne, h.statics, h.objects⟩, ?_⟩
  refine forall₂_mapIdx h.threads fun i a b hab => ?_
  exact ⟨hab.name, statusOf_matches p h.toSameMemory i hab.isAlive hab.frames, hab.frames,
    hab.uncaught⟩

theorem State.Grown.updateStatuses (h : State.Grown E R s t s' t') :
    State.Grown E R s t (p.updateStatuses s') (p.updateStatuses t') := by
  obtain ⟨⟨S, hcorr, hsub, hsup⟩, hsizes, hexact⟩ := h
  exact ⟨⟨S, updateStatuses_corresponds p hcorr, hsub, hsup⟩, hsizes, hexact⟩

theorem State.Grown.modifyThread (h : State.Grown E R s t s' t') (i : ThreadId)
    (hfg : ∀ (S : Pairing) (a b : Thread), a.Matches S b → (f a).Matches S (g b)) :
    State.Grown E R s t (s'.modifyThread i f) (t'.modifyThread i g) := by
  obtain ⟨⟨S, hcorr, hsub, hsup⟩, hsizes, hexact⟩ := h
  exact ⟨⟨S, (hcorr.modifyThread (E := E) i (hfg S)).corresponds, hsub, hsup⟩, hsizes, hexact⟩

inductive StepMatches (r : State → State → Prop) :
    Except Defect (State × Option Uncaught) → Except Defect (State × Option Uncaught) → Prop where
  | ok {s t : State} (h : r s t) (fault : Option Uncaught) :
      StepMatches r (.ok (s, fault)) (.ok (t, fault))
  | error (d : Defect) : StepMatches r (.error d) (.error d)

/-- What a step comes to does not depend on where hash tables list their members; and where they list
them alike, objects that were equal stay so. -/
theorem execute_matches (h : s.Corresponds R t) (mode : Symmetry)
    (harrange : E → arrange = arrange') (i : ThreadId) (data : Option Int64) :
    StepMatches (State.Grown E R s t) (p.execute ⟨mode, arrange⟩ s i data)
      (p.execute ⟨mode, arrange'⟩ t i data) := by
  have hperform := perform_matches p h mode harrange i data
  unfold Program.execute
  revert hperform
  generalize p.perform _ s i data = x
  generalize p.perform _ t i data = y
  intro hperform
  cases hperform with
  | defect d => exact .error d
  | next hgrown =>
    exact .ok ((hgrown.modifyThread i fun _ _ _ hab => unwind_matches p hab).updateStatuses p) _
  | @raised e s' t' hgrown =>
    obtain ⟨⟨S, hcorr, _, _⟩, _⟩ := id hgrown
    obtain ⟨hs, ht⟩ | ⟨a, b, hs, ht, hab⟩ := optionRel_cases (forall₂_getElem? hcorr.threads i)
    · simp only [hs, ht]
      exact .error _
    · simp only [hs, ht, hab.name]
      refine .ok (State.Grown.updateStatuses p (hgrown.modifyThread i fun S a b hab => ?_)) _
      exact ⟨hab.name, .terminated, .nil, rfl⟩

theorem execute_matches_alike (h : s.Corresponds R t) (layout : Layout) (i : ThreadId)
    (data : Option Int64) :
    StepMatches (State.Grown True R s t) (p.execute layout s i data) (p.execute layout t i data) :=
  execute_matches p h layout.mode (fun _ => rfl) i data

end Steps

end Interleave
