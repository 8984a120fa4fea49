import Interleave.Proofs.Machine.Typed

set_option autoImplicit false

namespace Interleave

/-- A thread is terminated when its stack is empty, and otherwise has a next statement. -/
structure Thread.Stacked (p : Program) (thread : Thread) : Prop where
  finished : thread.frames = [] ↔ thread.isAlive = false
  top : ∀ f, thread.frames.head? = some f → f.pc < p.bodyLength f.method

structure Program.WellFormed (p : Program) (s : State) : Prop
    extends Program.Coherent p s, Program.Typed p s where
  calls : ∀ thread ∈ s.threads, thread.Stacked p

section Lists

variable {α β : Type} {f : α → α} {g : α → β} {l : List α} {a : α} {P : α → Bool}

theorem map_modify_of_eq (hfg : ∀ a, g (f a) = g a) (l : List α) (i : Nat) :
    (l.modify i f).map g = l.map g := by
  refine List.ext_getElem? fun j => ?_
  rw [List.getElem?_map, List.getElem?_map, List.getElem?_modify]
  cases l[j]? with
  | none => rfl
  | some a => by_cases hij : i = j <;> simp [hij, hfg]

theorem mem_modify {i : Nat} (h : a ∈ l.modify i f) : a ∈ l ∨ ∃ b, l[i]? = some b ∧ a = f b := by
  obtain ⟨j, hj⟩ := List.mem_iff_getElem?.1 h
  rw [List.getElem?_modify] at hj
  obtain ⟨b, hb, rfl⟩ := Option.map_eq_some_iff.1 hj
  split
  · next hij => exact .inr ⟨b, hij ▸ hb, rfl⟩
  · exact .inl (List.mem_of_getElem? hb)

theorem find?_modify_map (hP : ∀ a, P (f a) = P a) (hg : ∀ a, g (f a) = g a) (l : List α) (i : Nat) :
    ((l.modify i f).find? P).map g = (l.find? P).map g := by
  induction l generalizing i with
  | nil => simp
  | cons a l ih =>
    cases i with
    | zero =>
      simp only [List.modify_zero_cons, List.find?_cons, hP]
      cases P a <;> simp [hg]
    | succ i =>
      simp only [List.modify_succ_cons, List.find?_cons]
      cases P a <;> simp [ih]

end Lists

section Changes

variable {p : Program} {s : State}

variable (h : p.Typed s)

include h

theorem Program.Typed.modifyThread (t : ThreadId) {f : Thread → Thread}
    (hname : ∀ thread, (f thread).name = thread.name)
    (hframes : ∀ thread, (∀ g ∈ thread.frames, g.Typed p) → ∀ g ∈ (f thread).frames, g.Typed p) :
    p.Typed (s.modifyThread t f) where
  names := (map_modify_of_eq hname s.threads t).trans h.names
  owners := h.owners
  statics := h.statics
  objects := h.objects
  frames := by
    intro thread hthread
    rcases mem_modify hthread with hmem | ⟨before, hbefore, rfl⟩
    · exact h.frames thread hmem
    · exact hframes before (h.frames before (List.mem_of_getElem? hbefore))

theorem Program.Typed.modifyTop (t : ThreadId) {f : StackFrame → StackFrame}
    (hf : ∀ g, (f g).method = g.method ∧ (f g).locals.length = g.locals.length) :
    p.Typed (s.modifyTop t f) := by
  refine h.modifyThread t (fun _ => rfl) fun thread hthread g hg => ?_
  rw [List.modifyHead_eq_modify_zero] at hg
  rcases mem_modify hg with hg | ⟨before, hbefore, rfl⟩
  · exact hthread g hg
  · obtain ⟨m, hm, hlen⟩ := hthread before (List.mem_of_getElem? hbefore)
    refine ⟨m, ?_, (hf before).2.trans hlen⟩
    rw [(hf before).1]
    exact hm

theorem Program.Typed.modifyStatic (id : ClassId) {f : StaticRecord → StaticRecord}
    (howner : ∀ r, (f r).owner = r.owner) (htyped : ∀ r, r.owner = id → r.Typed p → (f r).Typed p) :
    p.Typed (s.modifyStatic id f) where
  names := h.names
  owners := (map_modify_of_eq howner s.statics _).trans h.owners
  statics := by
    intro r hr
    rcases mem_modify hr with hmem | ⟨before, hbefore, rfl⟩
    · exact h.statics r hmem
    · have hid := List.findIdx_of_getElem?_eq_some hbefore
      exact htyped before (of_decide_eq_true hid)
        (h.statics before (List.mem_of_getElem? hbefore))
  objects := h.objects
  frames := h.frames

theorem Program.Typed.putObject (a : Handle) {o : Object} (ho : o.Typed p) :
    p.Typed (s.putObject a o) where
  names := h.names
  owners := h.owners
  statics := h.statics
  objects := by
    intro b q hq
    by_cases hba : b = a
    · subst hba
      have hlt : b < s.heap.cells.length := by
        have hlt := Heap.lt_of_get? hq
        rwa [State.putObject, Heap.put_length] at hlt
      cases (Heap.get?_put_self hlt o).symm.trans hq
      exact ho
    · exact h.objects b q ((Heap.get?_put_of_ne hba o).symm.trans hq)
  frames := h.frames

theorem Program.Typed.allocate {owner : ClassId} {payload : Payload} {decl : ClassDecl}
    (hdecl : p.classes[owner]? = some decl) (hpayload : payload.Typed decl) :
    p.Typed (s.allocate owner payload).2 where
  names := h.names
  owners := h.owners
  statics := h.statics
  objects := by
    intro a o ho
    rcases Heap.get?_of_allocate ho with ho | ⟨_, rfl⟩
    · exact h.objects a o ho
    · exact ⟨decl, hdecl, hpayload⟩
  frames := h.frames

theorem Program.Typed.markInitialized (ids : List ClassId) : p.Typed (s.markInitialized ids) := by
  induction ids generalizing s with
  | nil => exact h
  | cons id ids ih => exact ih (h.modifyStatic id (fun _ => rfl) fun _ _ hr => hr)

theorem Program.Typed.setMonitor (m : Monitor) (l : LockRef) : p.Typed (s.setMonitor m l) := by
  cases l with
  | object a =>
    simp only [State.setMonitor]
    cases ho : s.heap.get? a with
    | none => exact h
    | some o => exact h.putObject a (h.objects a o ho)
  | ofClass id => exact h.modifyStatic id (fun _ => rfl) fun _ _ hr => hr

theorem Program.Typed.updateStatuses : p.Typed (p.updateStatuses s) where
  names := by
    refine Eq.trans (List.ext_getElem? fun i => ?_) h.names
    simp [Program.updateStatuses, Function.comp_def]
  owners := h.owners
  statics := h.statics
  objects := h.objects
  frames := by
    intro thread hthread
    obtain ⟨i, hi, rfl⟩ := List.mem_mapIdx.1 hthread
    exact h.frames s.threads[i] (List.getElem_mem hi)

end Changes

inductive Outcome.Keeps (q : State → Prop) : Outcome → Prop where
  | next {s : State} (h : q s) : Keeps q (.next s)
  | raised (f : Fault) {s : State} (h : q s) : Keeps q (.raised f s)

variable {q : State → Prop} {s : State}

theorem Outcome.Keeps.imp {r : State → Prop} {x : Outcome} (h : x.Keeps q) (hqr : ∀ s, q s → r s) :
    x.Keeps r := by
  cases h with
  | next h => exact .next (hqr _ h)
  | raised f h => exact .raised f (hqr _ h)

theorem Outcome.Keeps.after {α : Type} {r : α → Prop} {x : Eval α} {f : α → Outcome} (hs : q s)
    (hx : x.Gives r) (hf : ∀ a, x = .ok a → r a → (f a).Keeps q) :
    (Outcome.after s x f).Keeps q := by
  cases x with
  | ok a => exact hf a rfl (hx.result a rfl)
  | error e =>
    cases e with
    | fault f => exact .raised f hs
    | defect d => exact absurd rfl (hx.safe d)

/-- What a statement of a thread keeps: types, and the status of every thread; the other threads
are not touched. -/
structure Program.Kept (p : Program) (t : ThreadId) (s s' : State) : Prop where
  typed : p.Typed s'
  threads : ∃ f : Thread → Thread, (∀ thread, (f thread).status = thread.status) ∧
    s'.threads = s.threads.modify t f

section Statements

variable {p : Program} {s : State} {R : Pairing} {f : StackFrame} {t : ThreadId}
  {target : LockTarget} {data : Option Int64} {o : Object}

theorem Program.Kept.of_eq {s' : State} (ht : p.Typed s') (h : s'.threads = s.threads) :
    p.Kept t s s' :=
  ⟨ht, id, fun _ => rfl, h.trans (List.modify_id _ _).symm⟩

theorem Program.Kept.trans {s₁ s₂ : State} (h : p.Kept t s s₁) (h' : p.Kept t s₁ s₂) :
    p.Kept t s s₂ := by
  obtain ⟨f, hf, hthreads⟩ := h.threads
  obtain ⟨g, hg, hthreads'⟩ := h'.threads
  refine ⟨h'.typed, g ∘ f, fun thread => (hg _).trans (hf _), ?_⟩
  rw [hthreads', hthreads, List.modify_modify_eq]

theorem setMonitor_threads (s : State) (m : Monitor) (l : LockRef) :
    (s.setMonitor m l).threads = s.threads := by
  cases l with
  | object a =>
    simp only [State.setMonitor]
    cases s.heap.get? a <;> rfl
  | ofClass id => rfl

theorem markInitialized_threads (s : State) (ids : List ClassId) :
    (s.markInitialized ids).threads = s.threads := by
  induction ids generalizing s with
  | nil => rfl
  | cons id ids ih => exact (ih _).trans rfl

theorem modifyTop_kept (ht : p.Typed s) {g : StackFrame → StackFrame}
    (hg : ∀ f, (g f).method = f.method ∧ (g f).locals.length = f.locals.length) :
    p.Kept t s (s.modifyTop t g) :=
  ⟨ht.modifyTop t hg, fun thread => { thread with frames := thread.frames.modifyHead g },
    fun _ => rfl, rfl⟩

theorem goTo_kept (ht : p.Typed s) (pc : Nat) :
    p.Kept t s (s.modifyTop t fun f => { f with pc }) :=
  modifyTop_kept ht fun _ => ⟨rfl, rfl⟩

theorem arrayLength_safe (length : Int64) : (arrayLength length).Safe := by
  unfold arrayLength
  split
  · exact .fault _
  · split
    · exact .fault _
    · exact .ok _

theorem rvalue_gives (hp : p.Sound) (ht : p.Typed s) (h : s.SameMemory R s) (hf : f.Matches R f)
    (mode : Symmetry) {value : Rvalue} (hv : value.Sound p.classes)
    (hdata : ∀ min max, value = .choose min max → data.isSome) :
    (p.rvalue mode s f data value).Gives fun x => p.Kept t s x.2 := by
  cases value with
  | expr e => exact .bind (eval_safe ht h hf.locals hv) fun _ _ => .ok (.of_eq ht rfl)
  | choose min max =>
    obtain ⟨v, rfl⟩ := Option.isSome_iff_exists.1 (hdata min max rfl)
    exact .ok (.of_eq ht rfl)
  | new id =>
    obtain ⟨decl, hdecl, hkind⟩ := hv
    simp only [Program.rvalue, hdecl]
    exact .ok (.of_eq (ht.allocate hdecl (.fields hkind (start_fits _))) rfl)
  | newIntArray length =>
    obtain ⟨decl, hdecl, hkind⟩ := hp.intArray
    refine .bind (eval_safe ht h hf.locals hv) fun v _ => .bind (asInt_safe v) fun i _ => ?_
    exact .bind (arrayLength_safe i) fun n _ => .ok (.of_eq (ht.allocate hdecl (.ints hkind _)) rfl)
  | newRefArray length =>
    obtain ⟨decl, hdecl, hkind⟩ := hp.refArray
    refine .bind (eval_safe ht h hf.locals hv) fun v _ => .bind (asInt_safe v) fun i _ => ?_
    exact .bind (arrayLength_safe i) fun n _ => .ok (.of_eq (ht.allocate hdecl (.refs hkind _)) rfl)
  | newSet =>
    obtain ⟨decl, hdecl, hkind⟩ := hp.set
    exact .ok (.of_eq (ht.allocate hdecl (.set hkind _)) rfl)
  | newBag =>
    obtain ⟨decl, hdecl, hkind⟩ := hp.bag
    exact .ok (.of_eq (ht.allocate hdecl (.bag hkind _)) rfl)

theorem putObject_kept (ht : p.Typed s) (a : Handle) (ho : o.Typed p) :
    p.Kept t s (s.putObject a o) :=
  .of_eq (ht.putObject a ho) rfl

theorem checked_gives (v : Value) (type : FieldType) :
    (v.checked type).Gives fun w => w.fits type = true := by
  cases type with
  | int | ref =>
    simp only [Value.checked]
    split
    · exact .ok ‹_›
    · exact .fault _

theorem setElement_safe {α : Type} (elements : List α) (index : Int64) {x : Eval α} (hx : x.Safe) :
    (setElement elements index x).Safe :=
  (element_safe elements index).bind fun _ _ => hx.bind fun _ _ => .ok _

theorem storeField_typed (ho : o.Typed p) {values : List Value}
    (hvalues : o.payload = .fields values) {name : String} {slot : Nat} {type : FieldType}
    (hslot : p.fieldSlot o.owner name = .ok (slot, type)) {v : Value} (hv : v.fits type = true) :
    Object.Typed p { o with payload := .fields (values.set slot v) } := by
  obtain ⟨decl, hdecl, hpayload⟩ := ho
  rw [hvalues] at hpayload
  cases hpayload with
  | fields hkind hfits =>
    refine ⟨decl, hdecl, .fields hkind ?_⟩
    simp only [Program.fieldSlot, hdecl] at hslot
    split at hslot
    · cases hslot
    · next found hfound =>
      obtain ⟨rfl, rfl⟩ := Prod.mk.inj (Except.ok.inj hslot)
      obtain ⟨hlt, _⟩ := List.findIdx?_eq_some_iff_getElem.1 hfound
      have hfield : decl.fields[found]? = some decl.fields[found] := List.getElem?_eq_getElem hlt
      refine hfits.set hfield ?_
      simpa [hfield] using hv

def Payload.SameKind (o q : Payload) : Prop := ∀ decl : ClassDecl, o.Typed decl → q.Typed decl

theorem changeItem_gives (arrange : Arrangement Handle) (item : Handle) (o : Payload) :
    (Program.insertItem arrange item o).Gives o.SameKind ∧
      (Program.removeItem item o).Gives o.SameKind := by
  have hset : ∀ members others, (Payload.set members).SameKind (.set others) := by
    rintro _ _ decl ⟨⟩
    exact .set ‹_› _
  have hbag : ∀ members others, (Payload.bag members).SameKind (.bag others) := by
    rintro _ _ decl ⟨⟩
    exact .bag ‹_› _
  cases o with
  | fields | ints | refs => exact ⟨.fault _, .fault _⟩
  | set => exact ⟨.ok (hset _ _), .ok (hset _ _)⟩
  | bag => exact ⟨.ok (hbag _ _), .ok (hbag _ _)⟩

theorem setMonitor_kept (ht : p.Typed s) (m : Monitor) (l : LockRef) :
    p.Kept t s (s.setMonitor m l) :=
  .of_eq (ht.setMonitor m l) (setMonitor_threads s m l)

section Accesses

variable (ht : p.Typed s) (h : s.SameMemory R s) (hf : f.Matches R f)

include ht h hf

theorem handle_gives {α : Type} {q : α → Prop} {e : Expr} (he : e.Sound p.classes)
    {g : Handle → Eval α} (hg : ∀ a, R a a → (g a).Gives q) :
    (p.eval s f.locals e >>= fun v => v.asHandle >>= g).Gives q :=
  .bind (eval_safe ht h hf.locals he) fun x hx => .bind (asHandle_safe x) fun a ha =>
    hg a (((eval_matches h p hf.locals e).ok_self hx).asHandle.ok_self ha)

theorem store_gives (v : Value) {target : Target}
    (htarget : target.Sound p.classes f.locals.length) :
    (p.store s t f v target).Gives (p.Kept t s) := by
  cases target with
  | localVar slot =>
    simp only [Program.store]
    split
    · exact .ok (modifyTop_kept ht fun g => ⟨rfl, List.length_set⟩)
    · exact absurd htarget ‹_›
  | staticVar owner slot =>
    obtain ⟨w, hw⟩ := ht.staticField htarget
    obtain ⟨decl, hdecl, _, hslot⟩ := htarget
    have hfield : decl.statics[slot]? = some decl.statics[slot] := List.getElem?_eq_getElem hslot
    simp only [Program.store, hdecl, Option.bind_some, hfield, hw]
    refine .bind (checked_gives v _).safe fun x hx => .ok ?_
    refine .of_eq (ht.modifyStatic owner (fun _ => rfl) ?_) rfl
    rintro r rfl ⟨decl', hdecl', hfits⟩
    cases hdecl.symm.trans hdecl'
    exact ⟨decl, hdecl, hfits.set hfield ((checked_gives v _).result x hx)⟩
  | field object name =>
    simp only [Program.store]
    refine handle_gives ht h hf htarget fun a haa => ?_
    refine .bind (object_gives h haa).safe fun o ho => ?_
    have hot : o.Typed p := ht.objects a o ((object_gives h haa).result o ho)
    refine .bind (fieldSlot_safe hot name) fun y hy => ?_
    refine .bind (checked_gives v _).safe fun w hw => ?_
    cases hpayload : o.payload with
    | fields values =>
      exact .ok (putObject_kept ht a (storeField_typed hot hpayload hy
        ((checked_gives v _).result w hw)))
    | ints | refs | set | bag => exact .fault _
  | index array index =>
    simp only [Program.store]
    refine handle_gives ht h hf htarget.1 fun a haa => ?_
    refine .bind (eval_safe ht h hf.locals htarget.2) fun y _ => .bind (asInt_safe y) fun i _ => ?_
    refine .bind (object_gives h haa).safe fun o ho => ?_
    obtain ⟨decl, hdecl, hpayload⟩ := ht.objects a o ((object_gives h haa).result o ho)
    obtain ⟨owner, monitor, payload⟩ := o
    cases hpayload with
    | fields | set | bag => exact .fault _
    | ints hkind elements =>
      dsimp only
      refine .bind (setElement_safe elements i ?_) fun z _ => ?_
      · cases v with
        | int v => exact .ok v
        | ref | null => exact .fault _
      · exact .ok (putObject_kept ht a ⟨decl, hdecl, .ints hkind z⟩)
    | refs hkind elements =>
      dsimp only
      refine .bind (setElement_safe elements i ?_) fun z _ => ?_
      · cases v with
        | int v => exact .fault _
        | ref | null => exact .ok _
      · exact .ok (putObject_kept ht a ⟨decl, hdecl, .refs hkind z⟩)

theorem changeCollection_gives {collection item : Expr} (hc : collection.Sound p.classes)
    (hi : item.Sound p.classes) {change : Handle → Handle → Payload → Eval Payload}
    (hchange : ∀ h item o, (change h item o).Gives o.SameKind) :
    (p.changeCollection s f collection item change).Gives (p.Kept t s) := by
  unfold Program.changeCollection Program.collectionAndItem
  simp only [bind_assoc, pure_bind]
  refine handle_gives ht h hf hc fun a haa => handle_gives ht h hf hi fun b _ => ?_
  refine .bind (object_gives h haa).safe fun o ho => ?_
  refine .bind (hchange a b o.payload).safe fun q hq => .ok ?_
  obtain ⟨decl, hdecl, hpayload⟩ := ht.objects a o ((object_gives h haa).result o ho)
  exact putObject_kept ht a ⟨decl, hdecl, (hchange a b o.payload).result q hq decl hpayload⟩

theorem lockRef_gives (htarget : target.Sound p.classes) :
    (p.lockRef s f target).Gives fun l => ∃ m, s.monitor? l = some m := by
  cases target with
  | ofClass id =>
    obtain ⟨r, hr, _⟩ := ht.static? htarget
    exact .ok ⟨r.monitor, by simp only [State.monitor?, hr, Option.map_some]⟩
  | object e =>
    refine handle_gives ht h hf htarget fun a haa => .ok ?_
    obtain ⟨o, _, ho, _⟩ := h.objects a a haa
    exact ⟨o.monitor, by simp only [State.monitor?, ho, Option.map_some]⟩

theorem monitor_gives (htarget : target.Sound p.classes) :
    (p.monitor s f target).Gives fun x =>
      p.lockRef s f target = .ok x.1 ∧ s.monitor? x.1 = some x.2 := by
  have hlock := lockRef_gives ht h hf htarget
  unfold Program.monitor
  refine .bind hlock.safe fun l hl => ?_
  obtain ⟨m, hm⟩ := hlock.result l hl
  simp only [hm]
  exact .ok ⟨hl, hm⟩

theorem enterLock_gives (htarget : target.Sound p.classes)
    (hfree : ∀ l, p.lockRef s f target = .ok l → (s.monitor? l).any (·.isFreeFor t) = true) :
    (p.enterLock s t f target).Gives (p.Kept t s) := by
  have hmonitor := monitor_gives ht h hf htarget
  unfold Program.enterLock
  refine .bind hmonitor.safe fun x hx => ?_
  obtain ⟨l, m⟩ := x
  obtain ⟨hl, hm⟩ := hmonitor.result _ hx
  have hlm := hfree l hl
  simp only at hm
  rw [hm, Option.any_some] at hlm
  dsimp only
  rw [if_pos hlm]
  exact .ok (setMonitor_kept ht _ l)

theorem leaveLock_gives (htarget : target.Sound p.classes) :
    (p.leaveLock s t f target).Gives (p.Kept t s) := by
  unfold Program.leaveLock
  refine .bind (monitor_gives ht h hf htarget).safe fun x _ => ?_
  dsimp only
  split
  · exact .ok (setMonitor_kept ht _ x.1)
  · exact .fault _

end Accesses

theorem after_goTo_keeps {x : Eval State} (ht : p.Typed s) (hx : x.Gives (p.Kept t s)) (pc : Nat) :
    (Outcome.after s x fun s => .next (s.modifyTop t fun f => { f with pc })).Keeps
      (p.Kept t s) :=
  .after (.of_eq ht rfl) hx fun _ _ hkept => .next (hkept.trans (goTo_kept hkept.typed pc))

theorem call_kept (ht : p.Typed s) {callee : StackFrame} (hcallee : callee.Typed p) (pc : Nat) :
    p.Kept t s (s.modifyThread t fun thread =>
      { thread with frames := callee :: thread.frames.modifyHead fun f => { f with pc } }) := by
  refine ⟨ht.modifyThread t (fun _ => rfl) ?_, _, ?_, rfl⟩
  · intro thread hthread g hg
    rcases List.mem_cons.1 hg with rfl | hg
    · exact hcallee
    · rw [List.modifyHead_eq_modify_zero] at hg
      rcases mem_modify hg with hg | ⟨before, hbefore, rfl⟩
      · exact hthread g hg
      · exact hthread before (List.mem_of_getElem? hbefore)
  · exact fun _ => rfl

theorem return_kept (ht : p.Typed s) :
    p.Kept t s (s.modifyThread t fun thread => { thread with frames := thread.frames.tail }) := by
  refine ⟨ht.modifyThread t (fun _ => rfl) ?_, _, ?_, rfl⟩
  · exact fun thread hthread g hg => hthread g (List.mem_of_mem_tail hg)
  · exact fun _ => rfl

theorem effect_keeps (hp : p.Sound) (ht : p.Typed s) (h : s.Corresponds R s) (hf : f.Matches R f)
    (layout : Layout) {stmt : Stmt} (hstmt : stmt.Sound p.classes p.methods.length f.locals.length)
    (hdata : stmt.choice?.isSome → data.isSome)
    (hfree : ∀ target, stmt = .lock target → ∀ l, p.lockRef s f target = .ok l →
      (s.monitor? l).any (·.isFreeFor t) = true) :
    (p.effect layout s t f data stmt).Keeps (p.Kept t s) := by
  have hm := h.toSameMemory
  cases stmt with
  | assign target value =>
    have hchoice : ∀ min max, value = .choose min max → data.isSome := by
      rintro min max rfl
      exact hdata rfl
    refine .after (.of_eq ht rfl) (rvalue_gives (t := t) hp ht hm hf layout.mode hstmt.2 hchoice) ?_
    rintro ⟨v, s₁⟩ hx hkept
    obtain ⟨S, _, hcorr, hsub, _⟩ := (rvalue_matches p h hf layout.mode data value).ok_self hx
    have hstore := store_gives (t := t) hkept.typed hcorr.toSameMemory (hf.mono hsub) v hstmt.1
    refine .after hkept hstore fun s₂ _ hkept₂ => .next ?_
    exact (hkept.trans hkept₂).trans (goTo_kept hkept₂.typed _)
  | insert collection item =>
    exact after_goTo_keeps ht (changeCollection_gives ht hm hf hstmt.1 hstmt.2 fun h a o =>
      (changeItem_gives (layout.arrange h) a o).1) _
  | remove collection item =>
    exact after_goTo_keeps ht (changeCollection_gives ht hm hf hstmt.1 hstmt.2 fun _ a o =>
      (changeItem_gives (fun _ _ => []) a o).2) _
  | lock target => exact after_goTo_keeps ht (enterLock_gives ht hm hf hstmt (hfree target rfl)) _
  | unlock target => exact after_goTo_keeps ht (leaveLock_gives ht hm hf hstmt) _
  | assert condition message =>
    refine .after (r := fun _ => True) (.of_eq ht rfl)
      ⟨eval_safe ht hm hf.locals hstmt, fun _ _ => trivial⟩ fun v _ _ => ?_
    dsimp only
    split
    · exact .next (goTo_kept ht _)
    · exact .raised _ (.of_eq ht rfl)
  | ifGoto condition target =>
    refine .after (r := fun _ => True) (.of_eq ht rfl)
      ⟨eval_safe ht hm hf.locals hstmt, fun _ _ => trivial⟩ fun v _ _ => ?_
    dsimp only
    split
    · exact .next (goTo_kept ht _)
    · exact .next (goTo_kept ht _)
  | goto target => exact .next (goTo_kept ht _)
  | call method =>
    have hcallee : p.methods[method]? = some p.methods[method] := List.getElem?_eq_getElem hstmt
    simp only [Program.effect, Program.newFrame, hcallee]
    exact .next (call_kept ht ⟨_, hcallee, List.length_replicate⟩ _)
  | «return» => exact .next (return_kept ht)
  | yield => exact .next (goTo_kept ht _)

end Statements

def Stmt.Offers (stmt : Stmt) (data : Option Int64) : Prop :=
  match stmt.choice? with
  | none => data = none
  | some (min, max) => ∃ v, data = some v ∧ min ≤ v ∧ v ≤ max

def Program.Offers (p : Program) (s : State) (t : ThreadId) (data : Option Int64) : Prop :=
  ∃ f stmt, s.topFrame? t = some f ∧ p.statement? f.method f.pc = some stmt ∧
    stmt.value.Offers data

theorem mem_runnable {t : ThreadId} :
    t ∈ s.runnable ↔ ∃ thread, s.threads[t]? = some thread ∧ thread.status = .runnable := by
  simp only [State.runnable, List.mem_filterMap, Prod.exists, List.mem_zipIdx_iff_getElem?]
  constructor
  · rintro ⟨thread, id, hthread, hid⟩
    split at hid
    · next hrun =>
      cases hid
      exact ⟨thread, hthread, of_decide_eq_true hrun⟩
    · cases hid
  · rintro ⟨thread, hthread, hrun⟩
    exact ⟨thread, t, hthread, if_pos (decide_eq_true hrun)⟩

section Steps

variable {p : Program} {s : State} {t : ThreadId} {data : Option Int64} {thread : Thread}
  {f : StackFrame} {rest : List StackFrame}

theorem Stmt.Offers.isSome {stmt : Stmt} (h : stmt.Offers data) (hc : stmt.choice?.isSome) :
    data.isSome := by
  unfold Stmt.Offers at h
  split at h
  · next hnone => simp [hnone] at hc
  · obtain ⟨v, rfl, _⟩ := h
    rfl

theorem markInitialized_static? {β : Type} {g : StaticRecord → β}
    (hg : ∀ r : StaticRecord, g { r with initialized := true } = g r) (s : State)
    (ids : List ClassId) (id : ClassId) :
    ((s.markInitialized ids).static? id).map g = (s.static? id).map g := by
  induction ids generalizing s with
  | nil => rfl
  | cons k ids ih =>
    refine (ih _).trans ?_
    have hmark : ∀ r : StaticRecord,
        ({ r with initialized := true } : StaticRecord).owner = r.owner :=
      fun _ => rfl
    exact find?_modify_map (fun r => by rw [hmark r]) hg _ _

theorem markInitialized_heap (s : State) (ids : List ClassId) :
    (s.markInitialized ids).heap = s.heap := by
  induction ids generalizing s with
  | nil => rfl
  | cons id ids ih => exact (ih _).trans rfl

theorem markInitialized_monitor? (s : State) (ids : List ClassId) (l : LockRef) :
    (s.markInitialized ids).monitor? l = s.monitor? l := by
  cases l with
  | object a => rw [State.monitor?, State.monitor?, markInitialized_heap]
  | ofClass id => exact markInitialized_static? (fun _ => rfl) s ids id

theorem markInitialized_lockRef (s : State) (ids : List ClassId) (f : StackFrame)
    (target : LockTarget) : p.lockRef (s.markInitialized ids) f target = p.lockRef s f target := by
  refine lockRef_congr (fun id slot => ?_) (markInitialized_heap s ids) f target
  have hfields := markInitialized_static? (g := fun r => r.fields) (fun _ => rfl) s ids id
  have hbind : ∀ x : Option StaticRecord,
      x.bind (·.fields[slot]?) = (x.map (·.fields)).bind (·[slot]?) := by
    intro x
    cases x <;> rfl
  rw [hbind, hbind, hfields]

theorem Program.Settled.isFree (h : p.Settled s) {target : LockTarget} {span : Span}
    (hthread : s.threads[t]? = some thread) (hrun : thread.status = .runnable)
    (hframes : thread.frames = f :: rest)
    (hstmt : p.statement? f.method f.pc = some ⟨.lock target, span⟩) {l : LockRef}
    (hl : p.lockRef s f target = .ok l) : (s.monitor? l).any (·.isFreeFor t) = true := by
  have hstatus := h t thread hthread
  have halive : thread.isAlive = true := by simp [Thread.isAlive, hrun]
  rw [hrun] at hstatus
  simp only [Program.statusOf, halive, hframes, hstmt, hl, Bool.not_true, Bool.false_eq_true,
    if_false] at hstatus
  split at hstatus
  · assumption
  · cases hstatus

theorem State.frames_of_topFrame? (hthread : s.threads[t]? = some thread)
    (hf : s.topFrame? t = some f) : ∃ rest, thread.frames = f :: rest := by
  rw [State.topFrame?, hthread, Option.bind_some] at hf
  exact List.head?_eq_some_iff.1 hf

theorem Program.WellFormed.statement_sound (hp : p.Sound) (hs : p.WellFormed s)
    {stmt : Located Stmt} (hthread : s.threads[t]? = some thread)
    (hframes : thread.frames = f :: rest) (hstmt : p.statement? f.method f.pc = some stmt) :
    stmt.value.Sound p.classes p.methods.length f.locals.length ∧ f.Matches (s.cut Eq) f := by
  have hmem : thread ∈ s.threads := List.mem_of_getElem? hthread
  have hfm : f ∈ thread.frames := hframes ▸ List.mem_cons_self
  obtain ⟨m, hm, hlocals⟩ := hs.frames thread hmem f hfm
  constructor
  · rw [hlocals]
    refine hp.bodies m (List.mem_of_getElem? hm) stmt ?_
    rw [Program.statement?, hm, Option.bind_some] at hstmt
    exact List.mem_of_getElem? hstmt
  · have hall := frames_cut hmem (frames_refl thread.frames)
    rw [hframes] at hall
    cases hall with
    | cons hf _ => exact hf

theorem perform_keeps (hp : p.Sound) (hs : p.WellFormed s) (layout : Layout)
    (hrun : t ∈ s.runnable) (hdata : p.Offers s t data) :
    (p.perform layout s t data).Keeps (p.Kept t s) := by
  obtain ⟨thread, hthread, hstatus⟩ := mem_runnable.1 hrun
  obtain ⟨f, stmt, hf, hstmt, hoffer⟩ := hdata
  obtain ⟨rest, hframes⟩ := State.frames_of_topFrame? hthread hf
  obtain ⟨hsound, hmatch⟩ := hs.statement_sound hp hthread hframes hstmt
  have hinit := hs.self.markInitialized (E := True) stmt.value.owners
  have hkept : p.Kept t s (s.markInitialized stmt.value.owners) :=
    .of_eq (hs.toTyped.markInitialized _) (markInitialized_threads s _)
  simp only [Program.perform, hf, hstmt]
  refine Outcome.Keeps.imp ?_ fun _ h => hkept.trans h
  refine effect_keeps hp hkept.typed hinit.corresponds hmatch layout hsound hoffer.isSome ?_
  intro target htarget l hl
  rw [markInitialized_lockRef] at hl
  rw [markInitialized_monitor?]
  obtain ⟨value, span⟩ := stmt
  obtain rfl := htarget
  exact hs.settled.isFree hthread hstatus hframes hstmt hl

theorem unwind_frames (hf : f ∈ (p.unwind thread).frames) : f ∈ thread.frames := by
  unfold Program.unwind at hf
  split at hf
  · cases hf
  · exact (List.dropWhile_sublist _).subset hf

theorem unwind_name (thread : Thread) : (p.unwind thread).name = thread.name := by
  unfold Program.unwind
  split <;> rfl

theorem Program.Typed.unwind (h : p.Typed s) (t : ThreadId) :
    p.Typed (s.modifyThread t p.unwind) :=
  h.modifyThread t unwind_name fun _ hthread g hg => hthread g (unwind_frames hg)

theorem unwind_stacked (h : thread.isAlive = true) : (p.unwind thread).Stacked p := by
  unfold Program.unwind
  split
  · exact ⟨by simp [Thread.isAlive], by simp⟩
  · next hne =>
    refine ⟨?_, fun f hf => ?_⟩
    · exact ⟨fun hnil => absurd hnil hne, fun hdead => by simp_all [Thread.isAlive]⟩
    · have htop := List.head?_dropWhile_not (fun f => p.bodyLength f.method ≤ f.pc) thread.frames
      rw [hf] at htop
      simpa using htop

theorem Thread.Stacked.setStatus (h : thread.Stacked p) (s : State) (i : ThreadId) :
    Thread.Stacked p { thread with status := p.statusOf s i thread } := by
  refine ⟨?_, h.top⟩
  rw [statusOf_alive]
  exact h.finished

theorem updateStatuses_stacked {s₁ : State} (hs : ∀ thread ∈ s.threads, thread.Stacked p)
    {g : Thread → Thread} (hg : ∀ thread, s.threads[t]? = some thread → (g thread).Stacked p)
    (hthreads : s₁.threads = s.threads.modify t g) :
    ∀ thread ∈ (p.updateStatuses s₁).threads, thread.Stacked p := by
  intro thread hthread
  obtain ⟨i, hi, rfl⟩ := List.mem_mapIdx.1 hthread
  refine Thread.Stacked.setStatus ?_ s₁ i
  have hat : s₁.threads[i]? = some s₁.threads[i] := List.getElem?_eq_getElem hi
  generalize s₁.threads[i] = before at hat ⊢
  rw [hthreads, List.getElem?_modify] at hat
  obtain ⟨orig, horig, hbefore⟩ := Option.map_eq_some_iff.1 hat
  split at hbefore
  · next hti =>
    subst hti hbefore
    exact hg orig horig
  · subst hbefore
    exact hs orig (List.mem_of_getElem? horig)

def Thread.failed (last : Uncaught) (thread : Thread) : Thread :=
  { thread with frames := [], status := .terminated, uncaught := some last }

/-- In a well-formed state of a sound program every runnable thread can take its next step, and the
state it leads to is well formed. -/
theorem execute_wellFormed (hp : p.Sound) (hs : p.WellFormed s) (layout : Layout)
    (hrun : t ∈ s.runnable) (hdata : p.Offers s t data) :
    ∃ s' fault, p.execute layout s t data = .ok (s', fault) ∧ p.WellFormed s' := by
  obtain ⟨thread, hthread, hstatus⟩ := mem_runnable.1 hrun
  have hkeeps := perform_keeps hp hs layout hrun hdata
  generalize hperform : p.perform layout s t data = x at hkeeps
  cases hkeeps with
  | @next s₁ hkept =>
    have hstep : p.execute layout s t data =
        .ok (p.updateStatuses (s₁.modifyThread t p.unwind), none) := by
      rw [Program.execute, hperform]
    refine ⟨_, _, hstep, hs.toCoherent.execute hstep, (hkept.typed.unwind t).updateStatuses, ?_⟩
    obtain ⟨g, hg, hthreads⟩ := hkept.threads
    refine updateStatuses_stacked (t := t) (g := p.unwind ∘ g) hs.calls ?_ ?_
    · intro orig horig
      cases hthread.symm.trans horig
      exact unwind_stacked (by simp [Thread.isAlive, hg, hstatus])
    · rw [State.modifyThread, hthreads, List.modify_modify_eq]
  | @raised e s₁ hkept =>
    obtain ⟨g, hg, hthreads⟩ := hkept.threads
    have hat : s₁.threads[t]? = some (g thread) := by
      rw [hthreads, List.getElem?_modify_eq, hthread]
      rfl
    have hstep : p.execute layout s t data =
        .ok (p.updateStatuses (s₁.modifyThread t (·.failed (e.uncaught (g thread).name))),
          some (e.uncaught (g thread).name)) := by
      rw [Program.execute, hperform]
      simp only [hat]
      rfl
    have htyped : p.Typed (s₁.modifyThread t (·.failed (e.uncaught (g thread).name))) :=
      hkept.typed.modifyThread t (fun _ => rfl) fun _ _ _ hf => by cases hf
    refine ⟨_, _, hstep, hs.toCoherent.execute hstep, htyped.updateStatuses, ?_⟩
    refine updateStatuses_stacked (t := t)
      (g := Thread.failed (e.uncaught (g thread).name) ∘ g) hs.calls ?_ ?_
    · exact fun _ _ => ⟨by simp [Thread.failed, Thread.isAlive], by simp [Thread.failed]⟩
    · rw [State.modifyThread, hthreads, List.modify_modify_eq]

theorem Program.WellFormed.collect (hs : p.WellFormed s) : p.WellFormed s.collect.2 := by
  obtain ⟨hcorr, hsettled⟩ := hs.toCoherent.collect
  refine ⟨hcorr.swap.coherent hsettled, ⟨hs.names, hs.owners, hs.statics, ?_, hs.frames⟩, hs.calls⟩
  exact fun h o ho => hs.objects h o (Heap.get?_of_retain ho)

theorem newFrame_ok {method : MethodId} (h : method < p.methods.length) :
    ∃ f, p.newFrame method = .ok f ∧ f.Typed p := by
  have hm : p.methods[method]? = some p.methods[method] := List.getElem?_eq_getElem h
  refine ⟨_, by rw [Program.newFrame, hm], _, hm, List.length_replicate⟩

theorem initialThreads_ok (hp : p.Sound) {decls : List ThreadDecl}
    (h : ∀ decl ∈ decls, decl ∈ p.threads) :
    ∃ threads, p.initialThreads decls = .ok threads ∧
      threads.map (·.name) = decls.map (·.name) ∧
      ∀ thread ∈ threads, thread.Stacked p ∧ ∀ f ∈ thread.frames, f.Typed p := by
  induction decls with
  | nil => exact ⟨[], rfl, rfl, by simp⟩
  | cons decl rest ih =>
    obtain ⟨threads, hthreads, hnames, hall⟩ := ih fun d hd => h d (List.mem_cons_of_mem _ hd)
    obtain ⟨f, hf, htyped⟩ := newFrame_ok (hp.entries decl (h decl List.mem_cons_self))
    refine ⟨p.unwind ⟨decl.name, .runnable, [f], none⟩ :: threads, ?_, ?_, ?_⟩
    · simp only [Program.initialThreads, hf, hthreads]
      rfl
    · rw [List.map_cons, List.map_cons, hnames, unwind_name]
    · intro thread hthread
      rcases List.mem_cons.1 hthread with rfl | hthread
      · refine ⟨unwind_stacked rfl, fun g hg => ?_⟩
        obtain rfl := List.mem_singleton.1 (unwind_frames hg)
        exact htyped
      · exact hall thread hthread

/-- A sound program has a state to start in, and that state is well formed. -/
theorem initialState_wellFormed (hp : p.Sound) :
    ∃ s, p.initialState = .ok s ∧ p.WellFormed s := by
  obtain ⟨threads, hthreads, hnames, hall⟩ := initialThreads_ok hp fun _ h => h
  have hstart : p.initialState = .ok (p.updateStatuses ⟨threads, p.initialStatics, .empty⟩) := by
    simp only [Program.initialState, hthreads]
    rfl
  have htyped : p.Typed ⟨threads, p.initialStatics, .empty⟩ := by
    refine ⟨hnames, rfl, fun r hr => ?_, fun h o ho => ?_, fun thread hthread => (hall _ hthread).2⟩
    · obtain ⟨id, decl, hdecl, _, rfl⟩ := mem_initialStatics.1 hr
      exact ⟨decl, hdecl, start_fits _⟩
    · cases ho
  refine ⟨_, hstart, initialState_coherent hstart, htyped.updateStatuses, fun thread hthread => ?_⟩
  obtain ⟨i, hi, rfl⟩ := List.mem_mapIdx.1 hthread
  exact (hall _ (List.getElem_mem hi)).1.setStatus _ i

theorem firstViolated_ok (hs : p.WellFormed s) {invariants : List (Located Expr)}
    (h : ∀ e ∈ invariants, e.value.Sound p.classes) :
    ∃ span, p.firstViolated s invariants = .ok span := by
  induction invariants with
  | nil => exact ⟨none, rfl⟩
  | cons invariant rest ih =>
    have hsafe := eval_safe hs.toTyped hs.closed .nil (h invariant List.mem_cons_self)
    obtain ⟨span, hspan⟩ := ih fun e he => h e (List.mem_cons_of_mem _ he)
    unfold Program.firstViolated
    cases heval : p.eval s [] invariant.value with
    | ok v =>
      dsimp only
      split
      · exact ⟨span, hspan⟩
      · exact ⟨_, rfl⟩
    | error e =>
      cases e with
      | fault f => exact ⟨_, rfl⟩
      | defect d => exact absurd heval (hsafe d)

theorem violated_ok (hp : p.Sound) (hs : p.WellFormed s) : ∃ place, p.violated s = .ok place := by
  obtain ⟨span, hspan⟩ := firstViolated_ok hs hp.invariants
  exact ⟨_, by rw [Program.violated, hspan]; rfl⟩

end Steps

end Interleave
