import Interleave.Proofs.Fingerprint.Total
import Interleave.Proofs.Machine.Preservation

set_option autoImplicit false

namespace Interleave

inductive EachCode {α : Type} (code : α → List Nat → Prop) : List α → List Nat → Prop where
  | nil : EachCode code [] []
  | cons {a : α} {l : List α} {u v : List Nat} (ha : code a u) (hl : EachCode code l v) :
      EachCode code (a :: l) (u ++ v)

def NumberCode (met : List Handle) (h : Handle) (n : Nat) : Prop := 0 < n ∧ met[n - 1]? = some h

def ValueCode (met : List Handle) : Value → Nat → Prop
  | .int v, n => n = intWord v
  | .null, n => n = 0
  | .ref h, n => NumberCode met h n

def FrameCode (met : List Handle) (f : StackFrame) (words : List Nat) : Prop :=
  ∃ values, List.Forall₂ (ValueCode met) f.locals values ∧
    words = f.method :: f.pc :: f.locals.length :: Walk.referenceBits f.locals ++ values

inductive StatusCode (met : List Handle) : ThreadStatus → List Nat → Prop where
  | runnable : StatusCode met .runnable [1]
  | object {h : Handle} {n : Nat} (hn : NumberCode met h n) :
      StatusCode met (.blocked (.object h)) [2, n]
  | ofClass (id : ClassId) : StatusCode met (.blocked (.ofClass id)) [2, id]
  | terminated : StatusCode met .terminated [3]

def ThreadCode (met : List Handle) (t : Thread) (words : List Nat) : Prop :=
  ∃ status frames, StatusCode met t.status status ∧
    EachCode (FrameCode met) t.frames.reverse frames ∧
    words = status ++ (if t.uncaught.isSome then 1 else 0) :: t.frames.length :: frames

def StaticCode (met : List Handle) (r : StaticRecord) (words : List Nat) : Prop :=
  ∃ values, List.Forall₂ (ValueCode met) r.fields values ∧
    words = r.owner :: (if r.initialized then 1 else 0) :: r.monitor.words ++ values

def EntryCode (met : List Handle) (b : IdBag Handle) (k : Handle) (words : List Nat) : Prop :=
  ∃ n, NumberCode met k n ∧ words = [n, b.count k]

inductive PayloadCode (met : List Handle) : Payload → List Nat → Prop where
  | fields {values : List Value} {words : List Nat}
      (h : List.Forall₂ (ValueCode met) values words) : PayloadCode met (.fields values) words
  | ints (elements : List Int64) :
      PayloadCode met (.ints elements) (elements.length :: elements.map intWord)
  | refs {elements : List (Option Handle)} {words : List Nat}
      (h : List.Forall₂ (fun e => ValueCode met (e.elim .null .ref)) elements words) :
      PayloadCode met (.refs elements) (elements.length :: words)
  | set {members : IdSet Handle} {sorted : List Handle} {words : List Nat}
      (hperm : sorted.Perm members.members) (h : List.Forall₂ (NumberCode met) sorted words) :
      PayloadCode met (.set members) (sorted.length :: words)
  | bag {members : IdBag Handle} {sorted : List Handle} {words : List Nat}
      (hperm : sorted.Perm members.distinct) (h : EachCode (EntryCode met members) sorted words) :
      PayloadCode met (.bag members) (sorted.length :: words)

def ObjectCode (met : List Handle) (o : Object) (words : List Nat) : Prop :=
  ∃ payload, PayloadCode met o.payload payload ∧ words = o.owner :: o.monitor.words ++ payload

/-- The words of a state under the list of all objects met: threads, statics, and the objects in
the order of their numbers. -/
def StateCode (s : State) (met : List Handle) (words : List Nat) : Prop :=
  ∃ threads statics objects, EachCode (ThreadCode met) s.threads threads ∧
    EachCode (StaticCode met) s.statics statics ∧
    EachCode (fun h w => ∃ o, s.heap.get? h = some o ∧ ObjectCode met o w) met objects ∧
    words = s.threads.length :: threads ++ s.statics.length :: statics ++ objects

variable {masks : Masks} {p : Program} {policy : SerializerPolicy} {h k : Handle} {decl : ClassDecl}
  {mask : ClassMask}

theorem EachCode.flatten {γ : Type} {code : γ → List Nat → Prop} {items : List γ}
    {l : List (List Nat)} (h : List.Forall₂ code items l) : EachCode code items l.flatten := by
  induction h with
  | nil => exact .nil
  | cons ha _ ih => exact .cons ha ih

structure Program.Unfiltered (p : Program) : Prop where
  fields : ∀ c ∈ p.classes, ∀ f ∈ c.fields, f.filtered = false
  statics : ∀ c ∈ p.classes, ∀ f ∈ c.statics, f.filtered = false
  methods : ∀ m ∈ p.methods, m.filtered = false

structure Masks.Plain (masks : Masks) (p : Program) : Prop where
  unfiltered : p.Unfiltered
  masks : Masks.ofProgram p ⟨[], []⟩ = .ok masks

structure FieldMask.Shows (mask : FieldMask) (fields : List FieldDecl) : Prop where
  emits : ∀ slot, mask.emits slot = true
  isRef : ∀ (slot : Nat) (f : FieldDecl), fields[slot]? = some f →
    mask.isRef slot = decide (f.type = .ref)

theorem fieldMask_shows {fields : List FieldDecl} (h : ∀ f ∈ fields, f.filtered = false)
    (owner : String) : (Filter.fieldMask ⟨[], []⟩ owner fields).Shows fields where
  emits := by
    intro slot
    simp only [FieldMask.emits, Filter.fieldMask, List.getElem?_map]
    cases hf : fields[slot]? with
    | none => rfl
    | some f => simp [h f (List.mem_of_getElem? hf)]
  isRef := by
    intro slot f hf
    simp [FieldMask.isRef, Filter.fieldMask, hf]

theorem Masks.Plain.eq (h : masks.Plain p) :
    masks = ⟨p.classes.map fun decl => ⟨Filter.fieldMask ⟨[], []⟩ decl.name decl.fields,
        Filter.fieldMask ⟨[], []⟩ decl.name decl.statics⟩,
      p.methods.map fun m => m.filtered || [].contains m.name⟩ :=
  (Except.ok.inj h.masks).symm

theorem Masks.Plain.ofClass (h : masks.Plain p) {id : ClassId}
    (hdecl : p.classes[id]? = some decl) :
    ∃ mask, masks.ofClass id = .ok mask ∧ mask.fields.Shows decl.fields ∧
      mask.statics.Shows decl.statics := by
  have hmem := List.mem_of_getElem? hdecl
  rw [h.eq]
  simp only [Masks.ofClass, List.getElem?_map, hdecl, Option.map_some]
  exact ⟨_, rfl, fieldMask_shows (h.unfiltered.fields decl hmem) _,
    fieldMask_shows (h.unfiltered.statics decl hmem) _⟩

theorem Masks.Plain.isFilteredMethod (h : masks.Plain p) {id : MethodId} {m : MethodDecl}
    (hm : p.methods[id]? = some m) : masks.isFilteredMethod id = .ok false := by
  rw [h.eq]
  simp only [Masks.isFilteredMethod, List.getElem?_map, hm, Option.map_some]
  simp [h.unfiltered.methods m (List.mem_of_getElem? hm)]

theorem Masks.Plain.filter_keeps (h : masks.Plain p) {frames : List StackFrame}
    (hframes : ∀ f ∈ frames, f.Typed p) : frames.filter masks.keeps = frames := by
  refine List.filter_eq_self.2 fun f hf => ?_
  obtain ⟨m, hm, _⟩ := hframes f hf
  exact Masks.keeps_iff.2 (h.isFilteredMethod hm)

structure State.Met (s : State) (met : List Handle) : Prop where
  nodup : met.Nodup
  reached : ∀ h ∈ met, s.Reaches h

section Parts

variable {met : List Handle} {v : Value} {values : List Value} {fields : List FieldDecl}

theorem map_code_words (words : List Nat) : (words.map Item.word).map (Item.code met) = words := by
  rw [List.map_map]
  exact List.map_id words

theorem Walk.getElem?_of_number {n : Nat} (hn : number? met h = some n) : NumberCode met h n := by
  obtain ⟨i, hi, rfl⟩ := Option.map_eq_some_iff.1 hn
  obtain ⟨hlt, heq, _⟩ := List.findIdx?_eq_some_iff_getElem.1 hi
  refine ⟨Nat.succ_pos i, List.getElem?_eq_some_iff.2 ⟨hlt, ?_⟩⟩
  exact eq_of_beq heq

theorem NumberCode.of_mem (hh : h ∈ met) : NumberCode met h ((Item.mention h).code met) := by
  cases hn : number? met h with
  | none => exact absurd hh (number?_eq_none.1 hn)
  | some n =>
    rw [Item.code, hn]
    exact Walk.getElem?_of_number hn

theorem ValueCode.of_item (hv : ∀ h, v = .ref h → h ∈ met) : ValueCode met v (v.item.code met) := by
  cases v with
  | int v => rfl
  | null => rfl
  | ref h => exact .of_mem (hv h rfl)

theorem EachCode.of_flatMap {γ : Type} {code : γ → List Nat → Prop} {items : γ → List Item}
    {l : List γ} (h : ∀ a ∈ l, code a ((items a).map (Item.code met))) :
    EachCode code l ((l.flatMap items).map (Item.code met)) := by
  rw [List.map_flatMap, List.flatMap_def]
  exact .flatten (List.forall₂_map_right_iff.2 (List.forall₂_same.2 h))

theorem valueCodes_of_items (h : ∀ k, .ref k ∈ values → k ∈ met) :
    List.Forall₂ (ValueCode met) values ((values.map Value.item).map (Item.code met)) := by
  rw [List.map_map]
  refine List.forall₂_map_right_iff.2 (List.forall₂_same.2 fun v hv => .of_item ?_)
  rintro k rfl
  exact h k hv

theorem FieldMask.Shows.items_eq {mask : FieldMask} (h : mask.Shows fields)
    (hfits : Fits values fields) : mask.items values = values.map Value.item := by
  have hemitted : mask.emitted values = values.zipIdx.map fun x => (x.2, x.1) := by
    unfold FieldMask.emitted
    rw [← List.filterMap_eq_map]
    congr 1
    funext x
    simp [h.emits]
  rw [FieldMask.items, hemitted, List.map_map]
  conv_rhs => rw [← List.zipIdx_map_fst 0 values, List.map_map]
  refine List.map_congr_left fun x hx => ?_
  have hv := List.mem_zipIdx_iff_getElem?.1 hx
  have hat := forall₂_getElem? hfits x.2
  rw [hv] at hat
  generalize hf : fields[x.2]? = f at hat
  cases hat with
  | @some _ f hvf =>
    have hslot (v : Value) (type : FieldType) (h : v.fits type = true) :
        v.slotItem (decide (type = .ref)) = v.item := by
      cases v <;> cases type <;> first | rfl | cases h
    exact (congrArg (x.1.slotItem ·) (h.isRef _ _ hf)).trans (hslot _ _ hvf)

theorem FrameCode.of_items (hpc : policy.includePc = true) {f : StackFrame}
    (hf : ∀ k, .ref k ∈ f.locals → k ∈ met) :
    FrameCode met f ((f.items policy).map (Item.code met)) := by
  refine ⟨_, valueCodes_of_items hf, ?_⟩
  rw [StackFrame.items, List.map_append, map_code_words, hpc]
  rfl

theorem StatusCode.of_items {status : ThreadStatus}
    (h : ∀ k, status = .blocked (.object k) → k ∈ met) :
    StatusCode met status (status.items.map (Item.code met)) := by
  cases status with
  | runnable => exact .runnable
  | terminated => exact .terminated
  | blocked on =>
    cases on with
    | object k => exact .object (.of_mem (h k rfl))
    | ofClass id => exact .ofClass id

theorem ThreadCode.of_items (hpc : policy.includePc = true) {t : Thread}
    (h : ∀ k, .mention k ∈ t.items policy t.frames.reverse → k ∈ met) :
    ThreadCode met t ((t.items policy t.frames.reverse).map (Item.code met)) := by
  have hmet {k : Handle} (hk : t.status = .blocked (.object k) ∨
      ∃ f ∈ t.frames.reverse, .ref k ∈ f.locals) : k ∈ met := h k (Thread.mention_items.2 hk)
  refine ⟨_, _, .of_items fun k hk => hmet (.inl hk),
    .of_flatMap fun f hf => .of_items hpc fun k hk => hmet (.inr ⟨f, hf, hk⟩), ?_⟩
  rw [Thread.items, List.map_append, List.map_cons, List.map_cons, List.length_reverse]
  rfl

theorem StaticCode.of_items {r : StaticRecord} (hmask : mask.statics.Shows fields)
    (hfits : Fits r.fields fields) (h : ∀ k, .mention k ∈ r.items mask → k ∈ met) :
    StaticCode met r ((r.items mask).map (Item.code met)) := by
  rw [StaticRecord.items, hmask.items_eq hfits] at h ⊢
  refine ⟨_, valueCodes_of_items fun k hk => h k ?_, ?_⟩
  · exact List.mem_append_right _ (List.mem_map.2 ⟨_, hk, rfl⟩)
  · rw [List.map_append, map_code_words]

theorem PayloadCode.of_items {o : Payload} (ho : o.Typed decl)
    (hmask : mask.fields.Shows decl.fields) {order : List Handle → List Handle}
    (horder : ∀ members, (order members).Perm members)
    (h : ∀ k, .mention k ∈ o.items mask order → k ∈ met) :
    PayloadCode met o ((o.items mask order).map (Item.code met)) := by
  have hmet {k : Handle} (hk : _) : k ∈ met := h k ((Payload.mention_items horder).2 hk)
  cases ho with
  | @fields values hkind hfits =>
    rw [Payload.items, hmask.items_eq hfits] at h ⊢
    exact .fields (valueCodes_of_items fun k hk => h k (List.mem_map.2 ⟨_, hk, rfl⟩))
  | ints hkind elements =>
    rw [Payload.items, map_code_words]
    exact .ints elements
  | refs hkind elements =>
    rw [Payload.items, List.map_cons, List.map_map]
    refine .refs (List.forall₂_map_right_iff.2 (List.forall₂_same.2 fun e he => .of_item fun k hk => ?_))
    cases e with
    | none => cases hk
    | some a =>
      cases hk
      exact hmet he
  | set hkind members =>
    rw [Payload.items, List.map_cons, List.map_map]
    exact .set (horder _) (List.forall₂_map_right_iff.2 (List.forall₂_same.2 fun k hk =>
      .of_mem (hmet ((horder _).mem_iff.1 hk))))
  | bag hkind members =>
    rw [Payload.items, List.map_cons]
    exact .bag (horder _) (.of_flatMap fun k hk => ⟨_, .of_mem (hmet ((horder _).mem_iff.1 hk)), rfl⟩)

end Parts

namespace Walk

variable {s : State} {met : List Handle} {p : Program} {masks : Masks} {policy : SerializerPolicy}

section WholeState

variable {p : Program} {masks : Masks} (hmasks : masks.Plain p) (hs : p.WellFormed s)

include hs

variable {h : Handle}

theorem reached_isLive (h : Handle) (hh : s.Reaches h) : s.heap.isLive h = true :=
  Heap.isLive_iff.2 (hs.live hh)

theorem reached_tidy (hh : s.Reaches h) {o : Object} (ho : s.heap.get? h = some o)
    {b : IdBag Handle} (hb : o.payload = .bag b) : b.Tidy := by
  obtain ⟨o', ⟨_, _, q⟩, ho', _, hmatch⟩ := hs.closed.objects h h ⟨hh, rfl⟩
  cases ho.symm.trans ho'
  have hpayload : o.payload.Matches (s.cut Eq) q := hmatch.payload
  rw [hb] at hpayload
  cases hpayload with
  | bag h => exact h.left

theorem blocked_reached {t : Thread} (ht : t ∈ s.threads)
    (hstatus : t.status = .blocked (.object h)) : s.Reaches h := by
  obtain ⟨i, hi⟩ := List.getElem?_of_mem ht
  have hat := forall₂_getElem? hs.self.threads i
  rw [hi] at hat
  cases hat with
  | some hmatch =>
    have hself := hmatch.status
    rw [hstatus] at hself
    cases hself with
    | blocked hl =>
      cases hl with
      | object hh => exact hh.1

theorem opening_reached (hk : .mention k ∈ s.opening policy masks) : s.Reaches k := by
  obtain ⟨t, ht, hk⟩ | ⟨r, hr, mask, _, hk⟩ := State.mention_opening.1 hk
  · obtain hstatus | ⟨f, hf, hk⟩ := Thread.mention_items.1 hk
    · exact blocked_reached hs ht hstatus
    · exact .of_local ht (List.mem_reverse.1 (List.mem_of_mem_filter hf)) hk
  · obtain ⟨slot, hslot, _⟩ := StaticRecord.mention_items.1 hk
    exact .of_static hr (List.mem_of_getElem? (FieldMask.mem_emitted.1 hslot).2)

theorem expansion_reached {a b : Handle} (ha : s.Reaches a) {items : List Item}
    (hitems : s.heap.Expands masks a items) (hb : .mention b ∈ items) : s.Reaches b := by
  obtain ⟨o, mask, order, ho, hmask, horder, rfl⟩ := hitems
  refine .next ha ho ?_
  rw [Object.items, List.mem_append, or_iff_right not_mention_words,
    Payload.mention_items horder] at hb
  cases hpayload : o.payload with
  | fields values =>
    rw [hpayload] at hb
    obtain ⟨slot, hslot, _⟩ := hb
    exact State.mem_handles.2 (List.mem_of_getElem? (FieldMask.mem_emitted.1 hslot).2)
  | ints elements => simp [hpayload] at hb
  | refs elements =>
    rw [hpayload] at hb
    exact List.mem_filterMap.2 ⟨_, hb, rfl⟩
  | set members =>
    rw [hpayload] at hb
    exact hb
  | bag members =>
    rw [hpayload] at hb
    exact (reached_tidy hs ha ho hpayload).mem_toList.2 hb

/-- The fingerprint of a well-formed state, when nothing is left out, is its words under the list of
all objects that were met. -/
theorem stateWords_code (hmasks : masks.Plain p) (hkind : policy.kind = .full)
    (hpc : policy.includePc = true) :
    ∃ words met, stateWords policy masks s [] = .ok (words, met) ∧ s.Met met ∧
      StateCode s met words := by
  obtain ⟨⟨words, met⟩, hwords⟩ :=
    stateWords_total (Masks.ofProgram_cover hmasks.masks) policy hs.toTyped []
  obtain ⟨objects, hcode, hdiscover, hmet, hobjects⟩ := stateWords_script hkind
    (fun _ => opening_reached hs) (fun _ _ _ ha hitems => expansion_reached hs ha hitems) hwords
  have hmem {k : Handle} (hk : .mention k ∈ s.opening policy masks ++ objects.flatten)
      (hreached : s.Reaches k) : k ∈ met :=
    hdiscover ▸ Heap.mem_discover.2 (.inr ⟨mem_mentions.2 hk, reached_isLive hs k hreached⟩)
  have hopened {k : Handle} (hk : .mention k ∈ s.opening policy masks) : k ∈ met :=
    hmem (List.mem_append_left _ hk) (opening_reached hs hk)
  have hthreads : EachCode (ThreadCode met) s.threads ((s.threads.flatMap fun t =>
      t.items policy (t.frames.reverse.filter masks.keeps)).map (Item.code met)) := by
    refine .of_flatMap fun t ht => ?_
    have hkept := hmasks.filter_keeps fun f hf => hs.frames t ht f (List.mem_reverse.1 hf)
    have hk := fun k hk => hopened (k := k) (State.mention_opening.2 (.inl ⟨t, ht, hk⟩))
    rw [hkept] at hk ⊢
    exact .of_items hpc hk
  have hstatics : EachCode (StaticCode met) s.statics ((s.statics.flatMap fun r =>
      masks.classes[r.owner]?.elim [] r.items).map (Item.code met)) := by
    refine .of_flatMap fun r hr => ?_
    obtain ⟨decl, hdecl, hfits⟩ := hs.statics r hr
    obtain ⟨mask, hmask, _, hshows⟩ := hmasks.ofClass hdecl
    rw [Masks.ofClass_eq_ok.1 hmask]
    exact .of_items hshows hfits fun k hk =>
      hopened (State.mention_opening.2 (.inr ⟨r, hr, mask, hmask, hk⟩))
  have hcodes : EachCode (fun h w => ∃ o, s.heap.get? h = some o ∧ ObjectCode met o w) met
      (objects.flatten.map (Item.code met)) := by
    rw [List.map_flatten]
    refine .flatten (List.forall₂_map_right_iff.2 (forall₂_keep hobjects ?_))
    intro a ha items hitems hexpands
    have hmet {k : Handle} (hk : .mention k ∈ items) : k ∈ met :=
      hmem (List.mem_append_right _ (List.mem_flatten.2 ⟨items, hitems, hk⟩))
        (expansion_reached hs (hmet.within a ha) hexpands hk)
    obtain ⟨o, mask, order, ho, hmask, horder, rfl⟩ := hexpands
    obtain ⟨decl, hdecl, hpayload⟩ := hs.objects a o ho
    obtain ⟨_, hmask', hshows, _⟩ := hmasks.ofClass hdecl
    cases hmask.symm.trans hmask'
    refine ⟨o, ho, _, .of_items hpayload hshows horder fun k hk => hmet (List.mem_append_right _ hk), ?_⟩
    rw [Object.items, List.map_append, map_code_words]
  refine ⟨words, met, hwords, ⟨hmet.nodup, hmet.within⟩, _, _, _, hthreads, hstatics, hcodes, ?_⟩
  rw [hcode, State.opening, List.map_append, List.map_append, List.map_cons, List.map_cons]
  rfl

end WholeState

end Walk

end Interleave
