import Interleave.Proofs.Correspondence.Mirror
import Interleave.Proofs.Fingerprint.Code

set_option autoImplicit false

namespace Interleave

section Masks

variable {masks : Masks} {mask : FieldMask} {owner : ClassId} {v w : List Value}
  {r : Value → Value → Prop} {α β : Type}

def Masks.emits (masks : Masks) (owner : ClassId) (slot : Nat) : Bool :=
  masks.classes[owner]?.all (·.fields.emits slot)

theorem Masks.mem_visible {x : Value} :
    x ∈ masks.visible owner v ↔ ∃ slot, masks.emits owner slot = true ∧ v[slot]? = some x := by
  unfold Masks.visible Masks.emits
  cases masks.classes[owner]? with
  | none => simp [List.mem_iff_getElem?]
  | some mask => simp [FieldMask.mem_emitted]

theorem FieldMask.emitted_eq_nil {start : Nat}
    (h : ∀ slot, mask.emits (start + slot) = true → v[slot]? = none) :
    (v.zipIdx start).filterMap
      (fun (v, slot) => if mask.emits slot then some (slot, v) else none) = [] := by
  rw [List.filterMap_eq_nil_iff]
  rintro ⟨x, slot⟩ hx
  obtain ⟨hle, hx⟩ := List.mk_mem_zipIdx_iff_le_and_getElem?_sub.1 hx
  refine if_neg fun hemits => ?_
  rw [← Nat.add_sub_cancel' hle] at hemits
  rw [h (slot - start) hemits] at hx
  cases hx

theorem optionRel_none_iff {r : α → β → Prop} {x : Option α} {y : Option β} (h : Option.Rel r x y) :
    x = none ↔ y = none := by
  cases h <;> simp

theorem FieldMask.emitted_forall₂
    (h : ∀ slot, mask.emits slot = true → Option.Rel r v[slot]? w[slot]?) :
    List.Forall₂ (fun x y : Nat × Value => x.1 = y.1 ∧ r x.2 y.2) (mask.emitted v)
      (mask.emitted w) := by
  unfold FieldMask.emitted
  replace h : ∀ slot, mask.emits (0 + slot) = true → Option.Rel r v[slot]? w[slot]? :=
    fun slot hemits => h slot (by rwa [Nat.zero_add] at hemits)
  -- One list may be longer than the other, if hidden slots are all that it has left.
  generalize 0 = start at h ⊢
  induction v generalizing w start with
  | nil =>
    rw [emitted_eq_nil (v := w) fun slot hemits => (optionRel_none_iff (h slot hemits)).1 rfl]
    exact .nil
  | cons x v ih =>
    cases w with
    | nil =>
      rw [emitted_eq_nil (v := x :: v) fun slot hemits => (optionRel_none_iff (h slot hemits)).2 rfl]
      exact .nil
    | cons y w =>
      have hrest := ih (w := w) (start + 1) fun slot hemits =>
        h (slot + 1) (by rwa [← Nat.add_assoc, Nat.add_right_comm])
      rw [List.zipIdx_cons, List.zipIdx_cons, List.filterMap_cons, List.filterMap_cons]
      by_cases hemits : mask.emits start = true
      · simp only [hemits, if_true]
        exact .cons ⟨rfl, Option.rel_some_some.1 (h 0 hemits)⟩ hrest
      · simp only [hemits, Bool.false_eq_true, if_false]
        exact hrest

theorem forall₂_of_optionRel {r : α → β → Prop} {l : List α} {m : List β}
    (h : ∀ i : Nat, Option.Rel r l[i]? m[i]?) : List.Forall₂ r l m := by
  induction l generalizing m with
  | nil =>
    cases m with
    | nil => exact .nil
    | cons => cases h 0
  | cons a l ih =>
    cases m with
    | nil => cases h 0
    | cons b m => exact .cons (Option.rel_some_some.1 (h 0)) (ih fun i => h (i + 1))

theorem Masks.visible_forall₂
    (h : ∀ slot, masks.emits owner slot = true → Option.Rel r v[slot]? w[slot]?) :
    List.Forall₂ r (masks.visible owner v) (masks.visible owner w) := by
  unfold Masks.emits at h
  unfold Masks.visible
  cases hmask : masks.classes[owner]? with
  | none => exact forall₂_of_optionRel fun slot => h slot (by rw [hmask]; rfl)
  | some mask =>
    rw [hmask] at h
    exact List.rel_map (fun _ _ hxy => hxy.2) (FieldMask.emitted_forall₂ h)

end Masks

def Payload.listing : Payload → List Handle
  | .set members => members.members
  | .bag members => members.distinct
  | .fields _ | .ints _ | .refs _ => []

inductive Payload.LooksAlike (masks : Masks) (owner : ClassId) (R : Pairing) :
    Payload → Payload → Prop where
  | fields {v w : List Value} (h : ∀ slot, masks.emits owner slot = true →
      Option.Rel (Value.Matches R) v[slot]? w[slot]?) :
      LooksAlike masks owner R (.fields v) (.fields w)
  | ints (elements : List Int64) : LooksAlike masks owner R (.ints elements) (.ints elements)
  | refs {e f : List (Option Handle)} (h : List.Forall₂ (Option.Rel R) e f) :
      LooksAlike masks owner R (.refs e) (.refs f)
  | set {m n : IdSet Handle} (h : m.Matches R n) : LooksAlike masks owner R (.set m) (.set n)
  | bag {b c : IdBag Handle} (h : (b.distinct : Multiset Handle).Rel R c.distinct)
      (hcount : ∀ x y, R x y → b.count x = c.count y) (hsize : b.size = c.size) :
      LooksAlike masks owner R (.bag b) (.bag c)

structure Object.LooksAlike (masks : Masks) (R : Pairing) (o q : Object) : Prop where
  owner : o.owner = q.owner
  monitor : o.monitor = q.monitor
  payload : o.payload.LooksAlike masks o.owner R q.payload

structure Heap.LooksAlike (heap : Heap) (masks : Masks) (R : Pairing) (heap' : Heap) : Prop where
  oneToOne : Relator.BiUnique R
  objects : ∀ a b, R a b → Option.Rel (Object.LooksAlike masks R) (heap.get? a) (heap'.get? b)

inductive Walk.KeptAlike (R : Pairing) :
    Except MaskError (List StackFrame) → Except MaskError (List StackFrame) → Prop where
  | ok {k l : List StackFrame} (h : List.Forall₂ (StackFrame.Matches R) k l) :
      KeptAlike R (.ok k) (.ok l)
  | error (e : MaskError) : KeptAlike R (.error e) (.error e)

structure Thread.LooksAlike (masks : Masks) (R : Pairing) (x y : Thread) : Prop where
  status : x.status.Matches R y.status
  uncaught : x.uncaught.isSome = y.uncaught.isSome
  frames : Walk.KeptAlike R (Walk.unfiltered masks x.frames.reverse)
    (Walk.unfiltered masks y.frames.reverse)

structure StaticRecord.LooksAlike (masks : Masks) (R : Pairing) (r q : StaticRecord) : Prop where
  owner : r.owner = q.owner
  initialized : r.initialized = q.initialized
  monitor : r.monitor = q.monitor
  fields : ∀ mask, masks.ofClass r.owner = .ok mask → ∀ slot, mask.statics.emits slot = true →
    Option.Rel (Value.Matches R) r.fields[slot]? q.fields[slot]?

structure State.LooksAlike (s : State) (masks : Masks) (R : Pairing) (t : State) : Prop where
  heap : s.heap.LooksAlike masks R t.heap
  threads : List.Forall₂ (Thread.LooksAlike masks R) s.threads t.threads
  statics : List.Forall₂ (StaticRecord.LooksAlike masks R) s.statics t.statics

section LooksAlike

variable {R : Pairing} {heap heap' : Heap} {masks : Masks} {o q : Object} {a b : Handle} {s t : State}

theorem Payload.LooksAlike.listing {owner : ClassId} {o q : Payload}
    (h : o.LooksAlike masks owner R q) : (o.listing : Multiset Handle).Rel R q.listing := by
  cases h with
  | fields | ints | refs => exact .zero
  | set h => exact h
  | bag h => exact h

theorem Heap.LooksAlike.isLive (h : heap.LooksAlike masks R heap') (hab : R a b) :
    heap.isLive a = heap'.isLive b := by
  unfold Heap.isLive
  obtain ⟨ho, hq⟩ | ⟨o, q, ho, hq, _⟩ := optionRel_cases (h.objects a b hab) <;>
    simp [ho, hq]

theorem Heap.LooksAlike.exists_object (h : heap.LooksAlike masks R heap') (hab : R a b)
    (ho : heap.get? a = some o) : ∃ q, heap'.get? b = some q ∧ o.LooksAlike masks R q := by
  have hobjects := h.objects a b hab
  rw [ho] at hobjects
  generalize heap'.get? b = y at hobjects
  cases hobjects with
  | some hoq => exact ⟨_, rfl, hoq⟩

theorem Heap.LooksAlike.object (h : heap.LooksAlike masks R heap') (hab : R a b)
    (ho : heap.get? a = some o) (hq : heap'.get? b = some q) : o.LooksAlike masks R q := by
  obtain ⟨q', hq', hoq⟩ := h.exists_object hab ho
  cases hq.symm.trans hq'
  exact hoq

theorem Object.Matches.looksAlike (hR : Relator.BiUnique R) (h : o.Matches R q) (masks : Masks) :
    o.LooksAlike masks R q := by
  obtain ⟨howner, hmonitor, hpayload⟩ := h
  obtain ⟨owner, monitor, payload⟩ := o
  obtain ⟨owner', monitor', payload'⟩ := q
  refine ⟨howner, hmonitor, ?_⟩
  cases hpayload with
  | fields h => exact .fields fun slot _ => forall₂_getElem? h slot
  | ints elements => exact .ints elements
  | refs h => exact .refs h
  | set h => exact .set h
  | bag h =>
    refine .bag ?_ (fun _ _ hxy => h.count hR hxy) h.size
    exact Multiset.rel_map.2 (h.entries.mono fun _ _ _ _ hef => hef.1)

theorem Walk.unfiltered_alike (masks : Masks) {k l : List StackFrame}
    (h : List.Forall₂ (StackFrame.Matches R) k l) :
    KeptAlike R (unfiltered masks k) (unfiltered masks l) := by
  induction h with
  | nil => exact .ok .nil
  | @cons f g k l hfg _ ih =>
    unfold unfiltered
    rw [hfg.method]
    cases masks.isFilteredMethod g.method with
    | error e => exact .error e
    | ok filtered =>
      generalize unfiltered masks k = x at ih
      generalize unfiltered masks l = y at ih
      cases ih with
      | error e => exact .error e
      | ok hkl =>
        cases filtered with
        | true => exact .ok hkl
        | false => exact .ok (.cons hfg hkl)

theorem State.Mirrors.looksAlike (h : s.Mirrors R t) (masks : Masks) : s.LooksAlike masks R t where
  heap := by
    refine ⟨h.heap.oneToOne, fun a b hab => ?_⟩
    obtain ⟨ho, hq⟩ | ⟨o, q, ho, hq, hoq⟩ := optionRel_cases (h.heap.objects a b hab) <;> rw [ho, hq]
    · exact .none
    · exact .some (hoq.looksAlike h.heap.oneToOne masks)
  threads := h.threads.imp fun _ _ hxy =>
    ⟨hxy.status, hxy.uncaught, Walk.unfiltered_alike masks (List.rel_reverse hxy.frames)⟩
  statics := h.statics.imp fun _ _ hrq => ⟨hrq.owner, hrq.initialized, hrq.monitor,
    fun _ _ slot _ => forall₂_getElem? hrq.fields slot⟩

end LooksAlike

structure MetAlike (R : Pairing) (found found' : List Handle) : Prop where
  pairs : List.Forall₂ R found found'
  nodup : found.Nodup

variable {R : Pairing} {s t : State} {found found' : List Handle} {F : Pairing → Prop}
  {masks : Masks} {policy : SerializerPolicy} {a b : Handle} {r q : StaticRecord} {x y : Thread}

theorem MetAlike.nodup_right (h : MetAlike R found found') (hR : Relator.BiUnique R) : found'.Nodup := by
  obtain ⟨hpairs, hnodup⟩ := h
  induction hpairs with
  | nil => exact List.nodup_nil
  | @cons a b l m hab hrest ih =>
    obtain ⟨ha, hl⟩ := List.nodup_cons.1 hnodup
    refine List.nodup_cons.2 ⟨fun hb => ?_, ih hl⟩
    obtain ⟨c, hc, hcb⟩ := forall₂_exists hrest.flip hb
    exact ha (hR.1 hab hcb ▸ hc)

theorem MetAlike.length_le {heap heap' : Heap} (h : MetAlike (heap.live R) found found')
    (hR : heap.LooksAlike masks R heap') :
    found.length ≤ heap.cells.length ∧ found'.length ≤ heap'.cells.length := by
  have hpairs : MetAlike R found found' := ⟨h.pairs.imp fun _ _ hab => hab.2, h.nodup⟩
  refine ⟨Heap.length_le_of_live h.nodup fun a ha => ?_,
    Heap.length_le_of_live (hpairs.nodup_right hR.oneToOne) fun b hb => ?_⟩
  · obtain ⟨b, _, hlive, _⟩ := forall₂_exists h.pairs ha
    exact hlive
  · obtain ⟨a, _, hlive, hab⟩ := forall₂_exists h.pairs.flip hb
    exact (hR.isLive hab).symm.trans hlive

theorem MetAlike.imp {S : Pairing} (h : MetAlike R found found')
    (hRS : ∀ a b, a ∈ found → R a b → S a b) : MetAlike S found found' :=
  ⟨forall₂_keep h.pairs fun a ha b _ => hRS a b ha, h.nodup⟩

theorem MetAlike.append (h : MetAlike R found found') (hab : R a b) (ha : a ∉ found) :
    MetAlike R (found ++ [a]) (found' ++ [b]) := by
  refine ⟨List.rel_append h.pairs (.cons hab .nil), ?_⟩
  refine List.nodup_append.2 ⟨h.nodup, List.nodup_singleton a, ?_⟩
  rintro c hc d hd rfl
  exact ha (List.mem_singleton.1 hd ▸ hc)

/-- Two walks that fail alike, or write the same and go on to meet objects that are paired by one
of the given pairings. -/
inductive Walk.Agrees {α : Type} (F : Pairing → Prop) :
    Except MaskError (α × List Handle) → Except MaskError (α × List Handle) → Prop where
  | ok {a : α} {R : Pairing} {found found' : List Handle} (hR : F R) (h : MetAlike R found found') :
      Agrees F (.ok (a, found)) (.ok (a, found'))
  | error (e : MaskError) : Agrees F (.error e) (.error e)

def Walk.Alike {α : Type} (F : Pairing → Prop) (x y : Walk α) : Prop :=
  ∀ R found found', F R → MetAlike R found found' → Agrees F (x found) (y found')

namespace Walk

section Steps

variable {α β γ : Type} {F : Pairing → Prop} {x y : Walk α} {f g : α → Walk β} {P : Handle → Prop}
  {found found' : List Handle} {R : Pairing} {q : α → β → Prop} {items : List α} {items' : List β}

theorem Agrees.mono {G : Pairing → Prop} {x y : Except MaskError (α × List Handle)}
    (h : Agrees F x y) (hFG : ∀ R, F R → G R) : Agrees G x y := by
  cases h with
  | ok hR h => exact .ok (hFG _ hR) h
  | error e => exact .error e

theorem Alike.of_each (h : ∀ R, F R → Alike (· = R) x y) : Alike F x y := by
  intro R found found' hR hmet
  refine (h R hR R found found' rfl hmet).mono ?_
  rintro _ rfl
  exact hR

theorem Alike.cut (h : ∀ R, F R → Alike (· = R.within P) x y) : Alike (Cut P F) x y := by
  refine Alike.of_each ?_
  rintro _ ⟨R, hR, rfl⟩
  exact h R hR

theorem Agrees.cut {x y : Except MaskError (α × List Handle)} (h : Agrees (· = R.within P) x y)
    (hR : F R) : Agrees (Cut P F) x y := by
  refine h.mono ?_
  rintro _ rfl
  exact ⟨R, hR, rfl⟩

theorem Agrees.met {a a' : α} (h : Agrees (Cut P (· = R)) (.ok (a, found)) (.ok (a', found'))) :
    MetAlike (R.within P) found found' := by
  cases h with
  | ok hS hmet =>
    obtain ⟨_, rfl, rfl⟩ := hS
    exact hmet

theorem Alike.pure (a : α) : Alike F (Pure.pure a : Walk α) (Pure.pure a) :=
  fun _ _ _ hR h => .ok hR h

theorem Agrees.bind (hxy : Agrees F (x found) (y found'))
    (hfg : ∀ a R next next', x found = .ok (a, next) → F R → MetAlike R next next' →
      Agrees F (f a next) (g a next')) : Agrees F ((x >>= f) found) ((y >>= g) found') := by
  change Agrees F (x found >>= fun r => f r.1 r.2) (y found' >>= fun r => g r.1 r.2)
  generalize x found = r at hxy hfg
  generalize y found' = r' at hxy
  cases hxy with
  | ok hR h => exact hfg _ _ _ _ rfl hR h
  | error e => exact .error e

theorem Alike.bind (hxy : Alike F x y) (hfg : ∀ a, Alike F (f a) (g a)) :
    Alike F (x >>= f) (y >>= g) :=
  fun R found found' hR h => (hxy R found found' hR h).bind fun a S next next' _ => hfg a S next next'

theorem Agrees.lookup {x : Except MaskError α}
    (hfg : ∀ a, x = .ok a → Agrees F (f a found) (g a found')) :
    Agrees F ((liftM x >>= f) found) ((liftM x >>= g) found') := by
  cases x with
  | ok a => exact hfg a rfl
  | error e => exact .error e

theorem Alike.get {f g : List Handle → Walk β} (h : ∀ R found found', F R →
      MetAlike R found found' → Agrees F (f found found) (g found' found')) :
    Alike F (MonadStateOf.get >>= f) (MonadStateOf.get >>= g) :=
  fun R found found' hR hmet => h R found found' hR hmet

theorem Alike.each {f : α → Walk (List Nat)} {g : β → Walk (List Nat)}
    (hitems : List.Forall₂ q items items') (h : ∀ a b, q a b → Alike F (f a) (g b)) :
    Alike F (each f items) (each g items') := by
  have hmap : Alike F (items.mapM f) (items'.mapM g) := by
    induction hitems with
    | nil => exact Alike.pure _
    | cons hab _ ih =>
      rw [List.mapM_cons, List.mapM_cons]
      exact (h _ _ hab).bind fun _ => ih.bind fun _ => Alike.pure _
  exact hmap.bind fun _ => Alike.pure _

end Steps

variable {R : Pairing} {v w values values' : List Value} {r : Value → Value → Prop}
  {F : Pairing → Prop} {heap heap' : Heap} {meet : Bool}

theorem number?_eq (hR : Relator.BiUnique R) (hfound : List.Forall₂ R found found') (hab : R a b) :
    number? found a = number? found' b := by
  unfold number?
  congr 1
  induction hfound with
  | nil => rfl
  | @cons c d l m hcd _ ih =>
    have hiff : c = a ↔ d = b :=
      ⟨fun h => hR.2 (h ▸ hcd) hab, fun h => hR.1 (h ▸ hcd) hab⟩
    rw [List.idxOf?_cons, List.idxOf?_cons, ih]
    by_cases hca : c = a
    · rw [if_pos (beq_iff_eq.2 hca), if_pos (beq_iff_eq.2 (hiff.1 hca))]
    · rw [if_neg (mt beq_iff_eq.1 hca), if_neg (mt beq_iff_eq.1 (mt hiff.2 hca))]

theorem referenceBits_congr (h : v.map Value.isReference = w.map Value.isReference) :
    referenceBits v = referenceBits w := by
  have hfold : ∀ l : List Value,
      l.foldr (fun v word => 2 * word + if v.isReference then 1 else 0) 0 =
        (l.map Value.isReference).foldr (fun b word => 2 * word + if b then 1 else 0) 0 := by
    intro l
    rw [List.foldr_map]
  fun_induction referenceBits v generalizing w with
  | case1 v hempty =>
    obtain rfl := List.isEmpty_iff.1 hempty
    obtain rfl := List.map_eq_nil_iff.1 h.symm
    rw [referenceBits]
    rfl
  | case2 v hne ih =>
    have hw : ¬ w.isEmpty = true := by
      intro hempty
      rw [List.isEmpty_iff.1 hempty] at h
      exact hne (List.isEmpty_iff.2 (List.map_eq_nil_iff.1 h))
    have hrest : referenceBits (v.drop 64) = referenceBits (w.drop 64) :=
      ih (by rw [List.map_drop, List.map_drop, h])
    conv_rhs => rw [referenceBits, if_neg hw]
    rw [hrest, hfold, hfold, List.map_take, List.map_take, h]

theorem referenceBits_eq (h : List.Forall₂ (Value.Matches R) v w) :
    referenceBits v = referenceBits w := by
  apply referenceBits_congr
  induction h with
  | nil => rfl
  | cons hvw _ ih =>
    rw [List.map_cons, List.map_cons, ih]
    cases hvw <;> rfl

end Walk

inductive Item.Matches (R : Pairing) : Item → Item → Prop where
  | word (n : Nat) : Matches R (.word n) (.word n)
  | mention {a b : Handle} (h : R a b) : Matches R (.mention a) (.mention b)

section Items

variable {R : Pairing} {masks : Masks}

theorem words_match (words : List Nat) :
    List.Forall₂ (Item.Matches R) (words.map .word) (words.map .word) :=
  List.rel_map (fun n _ h => h ▸ .word n) (List.forall₂_same.2 fun _ _ => rfl)

theorem Value.Matches.item {v w : Value} (h : v.Matches R w) : v.item.Matches R w.item := by
  cases h with
  | int v => exact .word _
  | null => exact .word 0
  | ref h => exact .mention h

theorem FieldMask.items_match {mask : FieldMask} {v w : List Value}
    (h : ∀ slot, mask.emits slot = true → Option.Rel (Value.Matches R) v[slot]? w[slot]?) :
    List.Forall₂ (Item.Matches R) (mask.items v) (mask.items w) := by
  refine List.rel_map ?_ (FieldMask.emitted_forall₂ h)
  rintro ⟨slot, v⟩ ⟨_, w⟩ ⟨rfl, hvw⟩
  have hreference : v.isReference = w.isReference := by cases hvw <;> rfl
  dsimp only [Value.slotItem]
  rw [hreference]
  split
  · exact hvw.item
  · exact .word 0

theorem StackFrame.Matches.items {f g : StackFrame} (h : f.Matches R g) (policy : SerializerPolicy) :
    List.Forall₂ (Item.Matches R) (f.items policy) (g.items policy) := by
  unfold StackFrame.items
  rw [h.method, h.pc, h.locals.length_eq, Walk.referenceBits_eq h.locals]
  exact List.rel_append (words_match _) (List.rel_map (fun _ _ hvw => hvw.item) h.locals)

theorem ThreadStatus.Matches.items {x y : ThreadStatus} (h : x.Matches R y) :
    List.Forall₂ (Item.Matches R) x.items y.items := by
  cases h with
  | runnable => exact words_match [_]
  | terminated => exact words_match [_]
  | blocked hlm =>
    cases hlm with
    | object hab => exact .cons (.word 2) (.cons (.mention hab) .nil)
    | ofClass id => exact words_match [2, id]

theorem Thread.LooksAlike.items (h : x.LooksAlike masks R y) {k l : List StackFrame}
    (hkl : List.Forall₂ (StackFrame.Matches R) k l) (policy : SerializerPolicy) :
    List.Forall₂ (Item.Matches R) (x.items policy k) (y.items policy l) := by
  unfold Thread.items
  rw [h.uncaught, hkl.length_eq]
  refine List.rel_append h.status.items (.cons (.word _) (.cons (.word _) ?_))
  exact List.rel_flatMap hkl fun _ _ hfg => hfg.items policy

theorem Object.LooksAlike.items {o q : Object} (h : o.LooksAlike masks R q) {mask : ClassMask}
    (hmask : masks.ofClass o.owner = .ok mask) {order order' : List Handle → List Handle}
    (hsorted : List.Forall₂ R (order o.payload.listing) (order' q.payload.listing)) :
    List.Forall₂ (Item.Matches R) (o.items mask order) (q.items mask order') := by
  unfold Object.items
  rw [h.owner, h.monitor]
  refine List.rel_append (words_match _) ?_
  obtain ⟨owner, monitor, payload⟩ := o
  obtain ⟨owner', monitor', payload'⟩ := q
  cases h.payload with
  | fields hslots =>
    refine FieldMask.items_match fun slot hemits => hslots slot ?_
    rw [Masks.emits, Masks.ofClass_eq_ok.1 hmask]
    exact hemits
  | ints elements => exact words_match _
  | refs helements =>
    dsimp only [Payload.items]
    rw [helements.length_eq]
    refine .cons (.word _) (List.rel_map (fun e f hef => ?_) helements)
    cases hef with
    | none => exact .word 0
    | some hab => exact .mention hab
  | set hmembers =>
    dsimp only [Payload.items, Payload.listing] at hsorted ⊢
    rw [hsorted.length_eq]
    exact .cons (.word _) (List.rel_map (fun _ _ hab => .mention hab) hsorted)
  | bag _ hcount =>
    dsimp only [Payload.items, Payload.listing] at hsorted ⊢
    rw [hsorted.length_eq]
    refine .cons (.word _) (List.rel_flatMap hsorted fun a b hab => ?_)
    rw [hcount a b hab]
    exact .cons (.mention hab) (.cons (.word _) .nil)

end Items

namespace Walk

section Parts

variable {F : Pairing → Prop} {R : Pairing} {heap heap' : Heap} {masks : Masks} {meet : Bool}

theorem script_alike {items items' : List Item} (h : List.Forall₂ (fun i j =>
      Alike F (write heap meet i) (write heap' meet j)) items items') :
    Alike F (script heap meet items) (script heap' meet items') := by
  induction h with
  | nil => exact Alike.pure []
  | cons hij _ ih =>
    rw [script, script, List.mapM_cons, List.mapM_cons]
    exact hij.bind fun _ => ih.bind fun _ => Alike.pure _

theorem staticWords_alike_of (howner : r.owner = q.owner)
    (hinitialized : r.initialized = q.initialized) (hmonitor : r.monitor = q.monitor)
    (hslots : ∀ mask, masks.ofClass r.owner = .ok mask →
      List.Forall₂ (fun i j => Alike F (write heap meet i) (write heap' meet j))
        (mask.statics.items r.fields) (mask.statics.items q.fields)) :
    Alike F (staticWords masks heap meet r) (staticWords masks heap' meet q) := by
  rw [staticWords_eq, staticWords_eq, ← howner]
  refine fun S found found' hS hmet => Agrees.lookup fun mask hmask => ?_
  refine script_alike ?_ S found found' hS hmet
  unfold StaticRecord.items
  rw [howner, hinitialized, hmonitor]
  exact List.rel_append (List.rel_map (fun n _ h => h ▸ Alike.pure n)
    (List.forall₂_same.2 fun _ _ => rfl)) (hslots mask hmask)

variable (h : heap.LooksAlike masks R heap')

include h

theorem write_alike (meet : Bool) {i j : Item} (hij : i.Matches R j) :
    Alike (· = heap.live R) (write heap meet i) (write heap' meet j) := by
  cases hij with
  | word n => exact Alike.pure n
  | @mention a b hab =>
    refine Alike.get ?_
    rintro _ found found' rfl hmet
    rw [← number?_eq h.oneToOne (hmet.pairs.imp fun _ _ hcd => hcd.2) hab, ← h.isLive hab]
    cases hn : number? found a with
    | some n => exact .ok rfl hmet
    | none =>
      dsimp only
      split
      · exact .ok rfl hmet
      split
      · exact .ok rfl hmet
      · next hlive _ =>
        have hlength := hmet.pairs.length_eq
        have hnew := hmet.append ⟨by simpa using hlive, hab⟩ (number?_eq_none.1 hn)
        rw [hlength]
        exact .ok rfl hnew

theorem threadWords_alike (policy : SerializerPolicy) (hxy : x.LooksAlike masks R y) :
    Alike (· = heap.live R) (threadWords policy masks heap x) (threadWords policy masks heap' y) := by
  rw [threadWords_eq, threadWords_eq]
  have hframes := hxy.frames
  generalize unfiltered masks x.frames.reverse = k at hframes
  generalize unfiltered masks y.frames.reverse = l at hframes
  cases hframes with
  | error e => exact fun _ _ _ _ _ => .error e
  | ok hkl => exact script_alike ((hxy.items hkl policy).imp fun _ _ => write_alike h true)

theorem staticWords_alike (meet : Bool) (hrq : r.LooksAlike masks R q) :
    Alike (· = heap.live R) (staticWords masks heap meet r) (staticWords masks heap' meet q) :=
  staticWords_alike_of hrq.owner hrq.initialized hrq.monitor fun mask hmask =>
    (FieldMask.items_match (hrq.fields mask hmask)).imp fun _ _ => write_alike h meet

end Parts

end Walk

/-- How far the walk over a state has come when it gets to an object: the position of the object
and what was met so far. -/
inductive State.Meets (s : State) (policy : SerializerPolicy) (masks : Masks) :
    Nat → List Handle → Prop where
  | full {words words' : List Nat} {found found' : List Handle} (hkind : policy.kind = .full)
      (hthreads : Walk.each (Walk.threadWords policy masks s.heap) s.threads [] = .ok (words, found))
      (hstatics : Walk.each (Walk.staticWords masks s.heap true) s.statics found =
        .ok (words', found')) : Meets s policy masks 0 found'
  | threads {words : List Nat} {found : List Handle} (hkind : policy.kind = .threadReachable)
      (hthreads : Walk.each (Walk.threadWords policy masks s.heap) s.threads [] = .ok (words, found)) :
      Meets s policy masks 0 found
  | object {done : Nat} {words : List Nat} {a : Handle} {o : Object} {found found' : List Handle}
      (h : Meets s policy masks done found) (ha : found[done]? = some a)
      (ho : s.heap.get? a = some o)
      (hwords : Walk.objectWords masks s.heap a o found = .ok (words, found')) :
      Meets s policy masks (done + 1) found'

/-- The members of paired collections are put into the same order when the walk gets to them; with
another one of the pairings, perhaps, but not for what was met. -/
def OrderedAlike (policy : SerializerPolicy) (masks : Masks) (F : Pairing → Prop) (s t : State) :
    Prop :=
  ∀ R a b o q, F R → R a b → s.heap.get? a = some o → t.heap.get? b = some q →
    ∀ done found found', s.Meets policy masks done found → found[done]? = some a →
      MetAlike (s.heap.live R) found found' →
      ∃ S, F S ∧ S a b ∧ MetAlike (s.heap.live S) found found' ∧
        List.Forall₂ S (KeyContext.orderMembers ⟨s.heap, masks, found⟩ a o.payload.listing)
          (KeyContext.orderMembers ⟨t.heap, masks, found'⟩ b q.payload.listing)

namespace Walk

variable {masks : Masks} {done : Nat} {found : List Handle}

section States

variable {F : Pairing → Prop} {s t : State} {policy : SerializerPolicy} {masks : Masks}
  (h : ∀ R, F R → s.LooksAlike masks R t)

include h

variable {R : Pairing} {done : Nat} {found found' : List Handle}

theorem allThreads_alike (policy : SerializerPolicy) :
    Alike (Cut (s.heap.isLive · = true) F) (each (threadWords policy masks s.heap) s.threads)
      (each (threadWords policy masks t.heap) t.threads) :=
  Alike.cut fun S hS => Alike.each (h S hS).threads fun _ _ hxy =>
    threadWords_alike (h S hS).heap policy hxy

theorem allStatics_alike (meet : Bool) :
    Alike (Cut (s.heap.isLive · = true) F) (each (staticWords masks s.heap meet) s.statics)
      (each (staticWords masks t.heap meet) t.statics) :=
  Alike.cut fun S hS => Alike.each (h S hS).statics fun _ _ hrq =>
    staticWords_alike (h S hS).heap meet hrq

variable (horder : OrderedAlike policy masks F s t)

include horder

theorem objectWords_alike (hR : F R) (hab : R a b) {o q : Object} (ho : s.heap.get? a = some o)
    (hq : t.heap.get? b = some q) (hmeets : s.Meets policy masks done found)
    (ha : found[done]? = some a) (hmet : MetAlike (s.heap.live R) found found') :
    Agrees (Cut (s.heap.isLive · = true) F) (objectWords masks s.heap a o found)
      (objectWords masks t.heap b q found') := by
  obtain ⟨S, hS, hSab, hmetS, hsorted⟩ :=
    horder R a b o q hR hab ho hq done found found' hmeets ha hmet
  -- From here on the objects are paired as the collections are ordered.
  have hheap := (h S hS).heap
  have hoq := hheap.object hSab ho hq
  rw [objectWords, objectWords, objectWordsBy_eq, objectWordsBy_eq, ← hoq.owner]
  refine Agrees.lookup fun mask hmask => Agrees.cut ?_ hS
  rw [bind_run (x := get) (a := found) rfl, bind_run (x := get) (a := found') rfl]
  exact script_alike ((hoq.items hmask hsorted).imp fun _ _ => write_alike hheap true) _ _ _ rfl hmetS

/-- The cells of each heap bound what can still be met in it, so that neither walk is cut short. -/
theorem expand_alike (hR : F R) {fuel fuel' : Nat} (hmeets : s.Meets policy masks done found)
    (hmet : MetAlike (s.heap.live R) found found') (hfuel : s.heap.cells.length ≤ done + fuel)
    (hfuel' : t.heap.cells.length ≤ done + fuel') :
    Agrees (Cut (s.heap.isLive · = true) F) (expand masks s.heap fuel done found)
      (expand masks t.heap fuel' done found') := by
  induction fuel generalizing R fuel' done found found' with
  | zero =>
    have hbound := hmet.length_le (h R hR).heap
    have hend' : found'[done]? = none :=
      List.getElem?_eq_none (by have := hmet.pairs.length_eq; omega)
    rw [expand_end t.heap fuel' hend']
    exact .ok ⟨R, hR, rfl⟩ hmet
  | succ fuel ih =>
    obtain ⟨hnone, hnone'⟩ | ⟨a, b, ha, hb, hlive, hab⟩ :=
      optionRel_cases (forall₂_getElem? hmet.pairs done)
    · rw [expand_end _ _ hnone, expand_end _ _ hnone']
      exact .ok ⟨R, hR, rfl⟩ hmet
    · obtain ⟨o, ho⟩ := Heap.isLive_iff.1 hlive
      obtain ⟨q, hq, _⟩ := (h R hR).heap.exists_object hab ho
      have hlt : done < found'.length := (List.getElem?_eq_some_iff.1 hb).1
      obtain ⟨fuel', rfl⟩ : ∃ n, fuel' = n + 1 :=
        Nat.exists_eq_add_one.2 (by have := hmet.length_le (h R hR).heap; omega)
      have hfirst := objectWords_alike h horder hR hab ho hq hmeets ha hmet
      rw [expand_next _ _ ha ho, expand_next _ _ hb hq]
      refine hfirst.bind ?_
      rintro words _ next next' hwords ⟨S, hS, rfl⟩ hmet
      have hrest := ih hS (.object hmeets ha ho hwords) hmet (by omega)
        (show t.heap.cells.length ≤ done + 1 + fuel' by omega)
      exact hrest.bind fun rest T _ _ _ hT hmet => Alike.pure (words ++ rest) T _ _ hT hmet

theorem stateWords_alike (hR : F R) :
    Agrees (Cut (s.heap.isLive · = true) F) (stateWords policy masks s [])
      (stateWords policy masks t []) := by
  have hexpand : ∀ {S : Pairing} {found found' : List Handle},
      s.Meets policy masks 0 found → Cut (s.heap.isLive · = true) F S → MetAlike S found found' →
      Agrees (Cut (s.heap.isLive · = true) F) (expand masks s.heap s.heap.cells.length 0 found)
        (expand masks t.heap t.heap.cells.length 0 found') := by
    rintro _ found found' hmeets ⟨S, hS, rfl⟩ hmet
    exact expand_alike h horder hS hmeets hmet (by omega) (by omega)
  unfold stateWords
  rw [(h R hR).threads.length_eq, (h R hR).statics.length_eq]
  refine (allThreads_alike h policy _ [] [] ⟨R, hR, rfl⟩ ⟨.nil, List.nodup_nil⟩).bind
    fun threads S found found' hrun hS hmet => ?_
  cases hkind : policy.kind with
  | full =>
    refine (allStatics_alike h true S found found' hS hmet).bind
      fun statics S found found' hrun' hS hmet => ?_
    refine (hexpand (.full hkind hrun hrun') hS hmet).bind fun objects S found found' _ hS hmet => ?_
    exact Alike.pure _ S found found' hS hmet
  | threadReachable =>
    refine (hexpand (.threads hkind hrun) hS hmet).bind fun objects S found found' _ hS hmet => ?_
    exact ((allStatics_alike h false).bind fun statics => Alike.pure _) S found found' hS hmet

end States

end Walk

theorem fingerprint_eq_of_agrees
    (h : Walk.Agrees F (Walk.stateWords policy masks s []) (Walk.stateWords policy masks t [])) :
    s.fingerprint policy masks = t.fingerprint policy masks := by
  change (Walk.stateWords policy masks s [] >>= fun r => pure (Fingerprint.mk r.1)) =
    (Walk.stateWords policy masks t [] >>= fun r => pure (Fingerprint.mk r.1))
  generalize Walk.stateWords policy masks s [] = x at h
  generalize Walk.stateWords policy masks t [] = y at h
  cases h <;> rfl

theorem fingerprint_mirrors (h : ∀ R, F R → s.Mirrors R t) (hR : F R)
    (horder : OrderedAlike policy masks F s t) :
    s.fingerprint policy masks = t.fingerprint policy masks :=
  fingerprint_eq_of_agrees (Walk.stateWords_alike (fun S hS => (h S hS).looksAlike masks) horder hR)

theorem fingerprint_congr (h : s.Corresponds R t) (horder : OrderedAlike policy masks (· = R) s t) :
    s.fingerprint policy masks = t.fingerprint policy masks := by
  refine fingerprint_mirrors (F := (· = R)) ?_ rfl horder
  rintro _ rfl
  exact h.mirrors

theorem orderedAlike_of_empty (h : ∀ R, F R → s.Mirrors R t)
    (hempty : ∀ a o, s.heap.get? a = some o → o.payload.listing = []) :
    OrderedAlike policy masks F s t := by
  intro R a b o q hR hab ho hq done found found' _ _ hmet
  have hlisting := (((h R hR).looksAlike masks).heap.object hab ho hq).payload.listing
  rw [hempty a o ho] at hlisting ⊢
  rw [Multiset.coe_eq_zero _ |>.1 (Multiset.rel_zero_left.1 hlisting)]
  exact ⟨R, hR, hab, hmet, .nil⟩

end Interleave
