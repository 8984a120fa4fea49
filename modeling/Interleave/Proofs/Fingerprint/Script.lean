import Interleave.Fingerprint.Basic
import Interleave.Proofs.Machine.Typed

set_option autoImplicit false

/-! A walk writes a script: words, and mentions of objects. Once the masks are looked up, the script of
each part of a state is a list that can be written down, and what a walk does is what writing a
script does. -/

namespace Interleave

variable {found targets next met : List Handle} {a k : Handle} {words : List Nat}
  {policy : SerializerPolicy}

inductive Item where
  | word (n : Nat)
  | mention (h : Handle)

def Item.code (met : List Handle) : Item → Nat
  | .word n => n
  | .mention h => (number? met h).getD invalidWord

def Item.handle? : Item → Option Handle
  | .word _ => none
  | .mention h => some h

def mentions (items : List Item) : List Handle := items.filterMap Item.handle?

def Value.item : Value → Item
  | .int v => .word (intWord v)
  | .null => .word 0
  | .ref h => .mention h

def Value.slotItem (isRef : Bool) (v : Value) : Item :=
  if v.isReference = isRef then v.item else .word 0

def FieldMask.items (mask : FieldMask) (values : List Value) : List Item :=
  (mask.emitted values).map fun (slot, v) => v.slotItem (mask.isRef slot)

def StackFrame.items (policy : SerializerPolicy) (f : StackFrame) : List Item :=
  (f.method :: (if policy.includePc then [f.pc] else []) ++
    f.locals.length :: Walk.referenceBits f.locals).map .word ++ f.locals.map Value.item

def ThreadStatus.items : ThreadStatus → List Item
  | .blocked (.object h) => [.word 2, .mention h]
  | .blocked (.ofClass id) => [.word 2, .word id]
  | status => [.word status.code]

def Masks.keeps (masks : Masks) (f : StackFrame) : Bool :=
  masks.filteredMethods[f.method]? == some false

def Thread.items (policy : SerializerPolicy) (x : Thread) (kept : List StackFrame) : List Item :=
  x.status.items ++ .word (if x.uncaught.isSome then 1 else 0) :: .word kept.length ::
    kept.flatMap (StackFrame.items policy)

def StaticRecord.items (r : StaticRecord) (mask : ClassMask) : List Item :=
  (r.owner :: (if r.initialized then 1 else 0) :: r.monitor.words).map .word ++
    mask.statics.items r.fields

def Payload.items (mask : ClassMask) (order : List Handle → List Handle) : Payload → List Item
  | .fields values => mask.fields.items values
  | .ints elements => (elements.length :: elements.map intWord).map .word
  | .refs elements => .word elements.length :: elements.map fun e => (e.elim .null .ref : Value).item
  | .set members =>
    .word (order members.members).length :: (order members.members).map .mention
  | .bag members =>
    .word (order members.distinct).length ::
      (order members.distinct).flatMap fun m => [.mention m, .word (members.count m)]

def Object.items (o : Object) (mask : ClassMask) (order : List Handle → List Handle) : List Item :=
  (o.owner :: o.monitor.words).map .word ++ o.payload.items mask order

namespace Walk

def write (heap : Heap) (meet : Bool) : Item → Walk Nat
  | .word n => return n
  | .mention h => reference heap meet h

def script (heap : Heap) (meet : Bool) (items : List Item) : Walk (List Nat) :=
  items.mapM (write heap meet)

section Equations

variable {α : Type} {heap : Heap} {masks : Masks} {policy : SerializerPolicy} {meet : Bool}
  {found : List Handle}

theorem script_append (items more : List Item) : script heap meet (items ++ more) =
    script heap meet items >>= fun first => script heap meet more >>= fun rest =>
      pure (first ++ rest) := by
  simp only [script, List.mapM_append]

theorem script_cons_word (n : Nat) (items : List Item) : script heap meet (.word n :: items) =
    script heap meet items >>= fun rest => pure (n :: rest) := by
  rw [script, List.mapM_cons, ← script]
  rfl

theorem script_words (words : List Nat) : script heap meet (words.map .word) = pure words := by
  induction words with
  | nil => rfl
  | cons n words ih => rw [List.map_cons, script_cons_word, ih, pure_bind]

theorem each_cons (f : α → Walk (List Nat)) (a : α) (l : List α) :
    each f (a :: l) = f a >>= fun first => each f l >>= fun rest => pure (first ++ rest) := by
  simp only [each, List.mapM_cons, bind_assoc, pure_bind, List.flatten_cons]

theorem each_script (items : α → List Item) (l : List α) :
    each (fun a => script heap meet (items a)) l = script heap meet (l.flatMap items) := by
  induction l with
  | nil => rfl
  | cons a l ih => rw [each_cons, ih, List.flatMap_cons, script_append]

theorem each_write (item : α → Item) (l : List α) :
    each (fun a => do return [← write heap meet (item a)]) l =
      script heap meet (l.map item) := by
  have hone : (fun a => (do return [← write heap meet (item a)] : Walk (List Nat))) =
      fun a => script heap meet [item a] := by
    funext a
    simp only [script, List.mapM_cons, List.mapM_nil, pure_bind]
  rw [hone, each_script, List.map_eq_flatMap]

theorem localWord_eq (v : Value) : localWord heap v = write heap true v.item := by
  cases v <;> rfl

theorem slotWords_eq (mask : FieldMask) (values : List Value) :
    slotWords heap meet mask values = script heap meet (mask.items values) := by
  have hslot (isRef : Bool) (v : Value) :
      slotWord heap meet isRef v = write heap meet (v.slotItem isRef) := by
    cases v <;> cases isRef <;> rfl
  simp only [slotWords, hslot]
  exact each_write (fun e : Nat × Value => e.2.slotItem (mask.isRef e.1)) _

theorem frameWords_eq :
    frameWords policy heap = fun f => script heap true (f.items policy) := by
  funext f
  simp only [frameWords, localWord_eq, each_write, StackFrame.items, script_append, script_words,
    pure_bind, List.append_assoc, List.cons_append]

theorem statusWords_eq (status : ThreadStatus) :
    statusWords heap status = script heap true status.items := by
  unfold statusWords ThreadStatus.items
  split
  all_goals simp only [script, List.mapM_cons, List.mapM_nil, write, pure_bind, bind_assoc]

theorem write_ok (heap : Heap) (meet : Bool) (item : Item) (found : List Handle) :
    ∃ r, write heap meet item found = .ok r := by
  cases item with
  | word n => exact ⟨_, rfl⟩
  | mention h =>
    rw [write, reference, bind_run (x := get) (a := found) rfl]
    cases number? found h with
    | some n => exact ⟨_, rfl⟩
    | none =>
      cases heap.isLive h with
      | false => exact ⟨_, rfl⟩
      | true => cases meet <;> exact ⟨_, rfl⟩

theorem script_ok (heap : Heap) (meet : Bool) (items : List Item) (found : List Handle) :
    ∃ r, script heap meet items found = .ok r := by
  induction items generalizing found with
  | nil => exact ⟨_, rfl⟩
  | cons item items ih =>
    obtain ⟨⟨n, next⟩, hn⟩ := write_ok heap meet item found
    obtain ⟨⟨rest, last⟩, hrest⟩ := ih next
    rw [script, List.mapM_cons, ← script, bind_run hn, bind_run hrest]
    exact ⟨_, rfl⟩

/-- Nothing is lost if the frames are looked up before the status is written. -/
theorem threadWords_eq (x : Thread) : threadWords policy masks heap x =
    liftM (unfiltered masks x.frames.reverse) >>= fun kept =>
      script heap true (x.items policy kept) := by
  simp only [threadWords, statusWords_eq, frameWords_eq, each_script, Thread.items, script_append,
    script_cons_word, bind_assoc, pure_bind]
  funext found
  obtain ⟨⟨status, next⟩, hstatus⟩ := script_ok heap true x.status.items found
  cases unfiltered masks x.frames.reverse with
  | ok kept => rfl
  | error e =>
    rw [bind_run hstatus]
    rfl

theorem staticWords_eq (r : StaticRecord) : staticWords masks heap meet r =
    liftM (masks.ofClass r.owner) >>= fun mask => script heap meet (r.items mask) := by
  simp only [staticWords, slotWords_eq, StaticRecord.items, script_append, script_words, pure_bind]

theorem objectWordsBy_eq (order : List Handle → List Handle → List Handle) (o : Object) :
    objectWordsBy masks heap order o = liftM (masks.ofClass o.owner) >>= fun mask =>
      get >>= fun found => script heap true (o.items mask (order found)) := by
  have hset (sorted : List Handle) : each (fun m => do return [← reference heap true m]) sorted =
      script heap true (sorted.map .mention) := each_write Item.mention sorted
  have hbag (count : Handle → Nat) (sorted : List Handle) :
      each (fun m => do return [← reference heap true m, count m]) sorted =
        script heap true (sorted.flatMap fun m => [.mention m, .word (count m)]) := by
    rw [← each_script]
    simp only [script, List.mapM_cons, List.mapM_nil, write, pure_bind]
  refine congrArg (liftM (masks.ofClass o.owner) >>= ·) (funext fun mask => funext fun found => ?_)
  rw [bind_run (x := get) (a := found) rfl]
  simp only [Object.items, script_append, script_words, pure_bind]
  cases o.payload with
  | fields values => simp only [slotWords_eq, Payload.items]
  | ints elements => simp only [Payload.items, script_words, pure_bind]
  | refs elements =>
    simp only [localWord_eq, each_write, Payload.items, script_cons_word, bind_assoc, pure_bind]
  | set members =>
    simp only [hset, Payload.items, script_cons_word, bind_assoc, pure_bind]
    rfl
  | bag members =>
    simp only [hbag, Payload.items, script_cons_word, bind_assoc, pure_bind]
    rfl

end Equations

theorem unfiltered_eq_filter {masks : Masks} {frames kept : List StackFrame}
    (h : unfiltered masks frames = .ok kept) :
    kept = frames.filter masks.keeps := by
  induction frames generalizing kept with
  | nil =>
    cases h
    rfl
  | cons f rest ih =>
    obtain ⟨filtered, hfiltered, h⟩ := bind_eq_ok.1 h
    obtain ⟨others, hothers, h⟩ := bind_eq_ok.1 h
    cases h
    rw [Masks.isFilteredMethod] at hfiltered
    split at hfiltered
    · next b hb =>
      cases hfiltered
      rw [ih hothers, List.filter_cons, Masks.keeps, hb]
      cases filtered <;> rfl
    · cases hfiltered

end Walk

section Mentions

variable {masks : Masks} {mask : ClassMask} {a : Handle}

theorem Masks.keeps_iff {f : StackFrame} :
    masks.keeps f = true ↔ masks.isFilteredMethod f.method = .ok false := by
  unfold keeps isFilteredMethod
  cases masks.filteredMethods[f.method]? with
  | none => simp
  | some filtered => cases filtered <;> simp

theorem FieldMask.mem_emitted {mask : FieldMask} {values : List Value} {slot : Nat} {v : Value} :
    (slot, v) ∈ mask.emitted values ↔ mask.emits slot = true ∧ values[slot]? = some v := by
  unfold FieldMask.emitted
  rw [List.mem_filterMap]
  constructor
  · rintro ⟨⟨w, i⟩, hw, hemits⟩
    dsimp only at hemits
    split at hemits
    · next hi =>
      cases hemits
      exact ⟨hi, List.mk_mem_zipIdx_iff_getElem?.1 hw⟩
    · cases hemits
  · rintro ⟨hemits, hv⟩
    exact ⟨(v, slot), List.mk_mem_zipIdx_iff_getElem?.2 hv, if_pos hemits⟩

theorem mem_mentions {items : List Item} : a ∈ mentions items ↔ .mention a ∈ items := by
  rw [mentions, List.mem_filterMap]
  constructor
  · rintro ⟨item, hitem, ha⟩
    cases item with
    | word n => cases ha
    | mention b =>
      cases ha
      exact hitem
  · exact fun ha => ⟨_, ha, rfl⟩

theorem not_mention_words : .mention a ∉ words.map Item.word := by
  simp

theorem Value.item_eq_mention {v : Value} : v.item = .mention a ↔ v = .ref a := by
  cases v <;> simp [item]

theorem FieldMask.mention_items {mask : FieldMask} {values : List Value} :
    .mention a ∈ mask.items values ↔
    ∃ slot, (slot, .ref a) ∈ mask.emitted values ∧ mask.isRef slot = true := by
  have hslot (isRef : Bool) (v : Value) :
      v.slotItem isRef = .mention a ↔ v = .ref a ∧ isRef = true := by
    cases v <;> cases isRef <;> simp [Value.slotItem, Value.item, Value.isReference]
  simp only [items, List.mem_map, hslot, Prod.exists]
  constructor
  · rintro ⟨slot, _, hmem, rfl, href⟩
    exact ⟨slot, hmem, href⟩
  · exact fun ⟨slot, hmem, href⟩ => ⟨slot, _, hmem, rfl, href⟩

theorem Thread.mention_items {x : Thread} {kept : List StackFrame} :
    .mention a ∈ x.items policy kept ↔
      x.status = .blocked (.object a) ∨ ∃ f ∈ kept, .ref a ∈ f.locals := by
  have hstatus : .mention a ∈ x.status.items ↔ x.status = .blocked (.object a) := by
    unfold ThreadStatus.items
    split <;> simp_all [eq_comm]
  have hframe (f : StackFrame) : .mention a ∈ f.items policy ↔ .ref a ∈ f.locals := by
    rw [StackFrame.items, List.mem_append, or_iff_right not_mention_words]
    simp [Value.item_eq_mention]
  simp [items, hstatus, hframe]

theorem StaticRecord.mention_items {r : StaticRecord} : .mention a ∈ r.items mask ↔
    ∃ slot, (slot, .ref a) ∈ mask.statics.emitted r.fields ∧ mask.statics.isRef slot = true := by
  rw [items, List.mem_append, or_iff_right not_mention_words, FieldMask.mention_items]

/-- The objects that a payload mentions are those of its reference slots, its elements and its
members. -/
theorem Payload.mention_items {o : Payload} {order : List Handle → List Handle}
    (horder : ∀ members, (order members).Perm members) : .mention a ∈ o.items mask order ↔
      match o with
      | .fields values => ∃ slot, (slot, .ref a) ∈ mask.fields.emitted values ∧
          mask.fields.isRef slot = true
      | .ints _ => False
      | .refs elements => some a ∈ elements
      | .set members => a ∈ members.members
      | .bag members => a ∈ members.distinct := by
  cases o with
  | fields values => exact FieldMask.mention_items
  | ints elements => simp [items]
  | refs elements =>
    have helement (e : Option Handle) : (e.elim .null .ref : Value).item = .mention a ↔ e = some a := by
      cases e <;> simp [Value.item_eq_mention]
    simp [items, helement]
  | set members => simp [items, (horder _).mem_iff]
  | bag members => simp [items, (horder _).mem_iff]

end Mentions

theorem Masks.ofClass_eq_ok {masks : Masks} {id : ClassId} {mask : ClassMask} :
    masks.ofClass id = .ok mask ↔ masks.classes[id]? = some mask := by
  unfold ofClass
  cases masks.classes[id]? <;> simp

theorem insertByRank_perm (entry : List Nat × Handle) (entries : List (List Nat × Handle)) :
    (insertByRank entry entries).Perm (entry :: entries) := by
  induction entries with
  | nil => exact .refl _
  | cons first rest ih =>
    unfold insertByRank
    split
    · exact .refl _
    · exact (ih.cons first).trans (.swap entry first rest)

theorem foldr_insertByRank_perm (entries : List (List Nat × Handle)) :
    (entries.foldr insertByRank []).Perm entries := by
  induction entries with
  | nil => exact .nil
  | cons entry rest ih => exact (insertByRank_perm entry _).trans (ih.cons entry)

theorem sortByRank_perm (rank : Handle → List Nat) (members : List Handle) :
    (sortByRank rank members).Perm members := by
  unfold sortByRank
  refine ((foldr_insertByRank_perm _).map _).trans ?_
  rw [List.map_map]
  exact List.Perm.of_eq (List.map_id _)

theorem orderMembers_perm (c : KeyContext) (collection : Handle) (members : List Handle) :
    (c.orderMembers collection members).Perm members :=
  sortByRank_perm _ members

theorem number?_eq_none : number? found a = none ↔ a ∉ found := by
  simp [number?]

theorem number?_append_of_mem (ha : a ∈ found) (rest : List Handle) :
    number? (found ++ rest) a = number? found a := by
  obtain ⟨i, hi⟩ : ∃ i, found.idxOf? a = some i := Option.isSome_iff_exists.1 (by simpa using ha)
  have happend : (found ++ rest).idxOf? a = some i := by
    rw [List.idxOf?, List.findIdx?_append, ← List.idxOf?, hi]
    rfl
  rw [number?, number?, hi, happend]

theorem number?_concat (ha : a ∉ found) : number? (found ++ [a]) a = some (found.length + 1) := by
  have hnone : found.idxOf? a = none := List.idxOf?_eq_none_iff.2 ha
  rw [number?, List.idxOf?, List.findIdx?_append, ← List.idxOf?, hnone]
  simp

theorem Heap.mem_discover {heap : Heap} :
    k ∈ heap.discover found targets ↔ k ∈ found ∨ k ∈ targets ∧ heap.isLive k = true := by
  induction targets generalizing found with
  | nil => simp [discover]
  | cons h targets ih =>
    rw [discover_cons, ih]
    split <;> grind

theorem Heap.discover_append (heap : Heap) (found targets more : List Handle) :
    heap.discover found (targets ++ more) = heap.discover (heap.discover found targets) more :=
  List.foldl_append

section Discovery

variable {heap : Heap} {found : List Handle} {item : Item}

/-- What was written stays right when more is met. -/
theorem Item.code_discover (hitem : ∀ a, item = .mention a → a ∈ found ∨ heap.isLive a = false)
    (more : List Handle) : item.code (heap.discover found more) = item.code found := by
  cases item with
  | word n => rfl
  | mention a =>
    simp only [code]
    by_cases ha : a ∈ found
    · obtain ⟨rest, hrest⟩ := heap.isPrefix_discover found more
      rw [← hrest, number?_append_of_mem ha]
    · have hdead := (hitem a rfl).resolve_left ha
      rw [number?_eq_none.2 ha, number?_eq_none.2 (by simp [Heap.mem_discover, ha, hdead])]

namespace Walk

theorem write_eq (item : Item) (found : List Handle) : write heap true item found =
    .ok (item.code (heap.discover found (mentions [item])), heap.discover found (mentions [item])) := by
  cases item with
  | word n => rfl
  | mention a =>
    have hmet : heap.discover found (mentions [.mention a]) =
        if a ∈ found || !heap.isLive a then found else found ++ [a] := rfl
    rw [hmet, write, reference, bind_run (x := get) (a := found) rfl]
    cases hn : number? found a with
    | some n =>
      have ha : a ∈ found := not_not.1 fun ha => by simp [number?_eq_none.2 ha] at hn
      simp only [ha, decide_true, Bool.true_or, if_true, Item.code, hn]
      rfl
    | none =>
      have ha := number?_eq_none.1 hn
      by_cases hlive : heap.isLive a
      · simp only [ha, hlive, decide_false, Bool.not_true, Bool.or_self, Bool.false_eq_true, if_false,
          Item.code, number?_concat ha]
        rfl
      · simp only [ha, hlive, Bool.not_false, Bool.or_true, if_true, Item.code, hn]
        rfl

/-- A script is written in terms of the objects that are met in the end. -/
theorem script_eq (items : List Item) (found : List Handle) : script heap true items found =
    .ok (items.map (Item.code (heap.discover found (mentions items))),
      heap.discover found (mentions items)) := by
  induction items generalizing found with
  | nil => rfl
  | cons item items ih =>
    have hmentions : mentions (item :: items) = mentions [item] ++ mentions items :=
      List.filterMap_append (l := [item])
    have hitem (a : Handle) (ha : item = .mention a) :
        a ∈ heap.discover found (mentions [item]) ∨ heap.isLive a = false := by
      subst ha
      rw [Heap.mem_discover]
      cases hlive : heap.isLive a <;> simp [mentions, Item.handle?]
    have hcode := Item.code_discover hitem (mentions items)
    rw [script, List.mapM_cons, ← script, bind_run (write_eq item found), bind_run (ih _), hmentions,
      Heap.discover_append, List.map_cons, hcode]
    rfl

theorem script_result {items : List Item} (h : script heap true items found = .ok (words, next)) :
    next = heap.discover found (mentions items) ∧ words = items.map (Item.code next) := by
  obtain ⟨hwords, hnext⟩ := Prod.mk.inj (Except.ok.inj ((script_eq items found).symm.trans h))
  exact ⟨hnext.symm, hwords.symm.trans (hnext ▸ rfl)⟩

end Walk

end Discovery

structure Heap.Met (heap : Heap) (K : Handle → Prop) (found : List Handle) : Prop where
  nodup : found.Nodup
  within : ∀ a ∈ found, K a
  live : ∀ a ∈ found, heap.isLive a = true

def Heap.Expands (heap : Heap) (masks : Masks) (a : Handle) (items : List Item) : Prop :=
  ∃ o mask order, heap.get? a = some o ∧ masks.ofClass o.owner = .ok mask ∧
    (∀ members : List Handle, (order members).Perm members) ∧ items = o.items mask order

def State.opening (s : State) (policy : SerializerPolicy) (masks : Masks) : List Item :=
  .word s.threads.length ::
      s.threads.flatMap (fun x => x.items policy (x.frames.reverse.filter masks.keeps)) ++
    .word s.statics.length ::
      s.statics.flatMap fun r => masks.classes[r.owner]?.elim [] r.items

section Drain

variable {heap : Heap} {masks : Masks} {K : Handle → Prop} {found targets : List Handle}
  {done : Nat} {r : List Nat × List Handle}

theorem Heap.Met.nil : heap.Met K [] := ⟨List.nodup_nil, by simp, by simp⟩

theorem Heap.Met.length_le (h : heap.Met K found) : found.length ≤ heap.cells.length :=
  Heap.length_le_of_live h.nodup h.live

theorem Heap.Met.discover (h : heap.Met K found) (htargets : ∀ a ∈ targets, K a) :
    heap.Met K (heap.discover found targets) where
  nodup := Heap.discover_nodup h.nodup targets
  within a ha := (Heap.mem_discover.1 ha).elim (h.within a) fun ha => htargets a ha.1
  live a ha := (Heap.mem_discover.1 ha).elim (h.live a) (·.2)

theorem State.mention_opening {s : State} :
    .mention a ∈ s.opening policy masks ↔
      (∃ x ∈ s.threads, .mention a ∈ x.items policy (x.frames.reverse.filter masks.keeps)) ∨
      ∃ r ∈ s.statics, ∃ mask, masks.ofClass r.owner = .ok mask ∧ .mention a ∈ r.items mask := by
  have hstatic (r : StaticRecord) : .mention a ∈ masks.classes[r.owner]?.elim [] r.items ↔
      ∃ mask, masks.ofClass r.owner = .ok mask ∧ .mention a ∈ r.items mask := by
    simp only [Masks.ofClass_eq_ok]
    cases masks.classes[r.owner]? <;> simp
  simp [opening, hstatic]

namespace Walk

theorem expand_end (heap : Heap) (fuel : Nat) (h : found[done]? = none) :
    expand masks heap fuel done found = .ok ([], found) := by
  cases fuel with
  | zero => rfl
  | succ fuel =>
    rw [expand, bind_run (x := get) (a := found) rfl]
    simp only [h]
    rfl

theorem expand_next (heap : Heap) (fuel : Nat) {o : Object} (hk : found[done]? = some k)
    (ho : heap.get? k = some o) :
    expand masks heap (fuel + 1) done found = (objectWords masks heap k o >>= fun words =>
      expand masks heap fuel (done + 1) >>= fun rest => pure (words ++ rest)) found := by
  rw [expand, bind_run (x := get) (a := found) rfl]
  simp only [hk, ho]

theorem lookup_eq_ok {α β : Type} {x : Except MaskError α} {f : α → Walk β} {r : β × List Handle}
    (h : (liftM x >>= f) found = .ok r) : ∃ a, x = .ok a ∧ liftM x >>= f = f a := by
  cases x with
  | ok a => exact ⟨a, rfl, rfl⟩
  | error e => cases h

theorem objectWords_script {o : Object} (ho : heap.get? a = some o)
    (h : objectWords masks heap a o found = .ok r) :
    ∃ items, heap.Expands masks a items ∧
      objectWords masks heap a o found = script heap true items found := by
  rw [objectWords, objectWordsBy_eq] at h ⊢
  obtain ⟨mask, hmask, hlookup⟩ := lookup_eq_ok h
  rw [hlookup]
  exact ⟨_, ⟨o, mask, _, ho, hmask, orderMembers_perm _ a, rfl⟩, rfl⟩

/-- Of the objects met so far, those from position `done` on are expanded one after the other, and so
are the objects that they lead to. -/
theorem expand_script
    (hclosed : ∀ a items b, K a → heap.Expands masks a items → .mention b ∈ items → K b)
    {fuel : Nat} (hfuel : heap.cells.length ≤ done + fuel) (hfound : heap.Met K found)
    (h : expand masks heap fuel done found = .ok r) : ∃ objects : List (List Item),
      expand masks heap fuel done found = script heap true objects.flatten found ∧
      heap.Met K (heap.discover found (mentions objects.flatten)) ∧
      List.Forall₂ (heap.Expands masks)
        ((heap.discover found (mentions objects.flatten)).drop done) objects := by
  have hstop {found : List Handle} {done : Nat} (hle : found.length ≤ done) :
      List.Forall₂ (heap.Expands masks) (found.drop done) [] := by
    rw [List.drop_eq_nil_of_le hle]
    exact .nil
  induction fuel generalizing done found r with
  | zero => exact ⟨[], rfl, hfound, hstop (hfound.length_le.trans hfuel)⟩
  | succ fuel ih =>
    cases hdone : found[done]? with
    | none => exact ⟨[], expand_end heap _ hdone, hfound, hstop (List.getElem?_eq_none_iff.1 hdone)⟩
    | some a =>
      have ha := List.mem_of_getElem? hdone
      obtain ⟨o, ho⟩ := Heap.isLive_iff.1 (hfound.live a ha)
      rw [expand_next heap fuel hdone ho] at h ⊢
      obtain ⟨first, next, hfirst, h⟩ := run_bind_eq_ok.1 h
      obtain ⟨rest, last, hrest, -⟩ := run_bind_eq_ok.1 h
      obtain ⟨items, hitems, hscript⟩ := objectWords_script ho hfirst
      obtain ⟨rfl, -⟩ := script_result (hscript.symm.trans hfirst)
      obtain ⟨objects, hexpand, hmet, hobjects⟩ := ih (by omega)
        (hfound.discover fun b hb => hclosed a items b (hfound.within a ha) hitems (mem_mentions.1 hb))
        hrest
      have hmentions : heap.discover found (mentions (items :: objects).flatten) =
          heap.discover (heap.discover found (mentions items)) (mentions objects.flatten) := by
        rw [List.flatten_cons, mentions, List.filterMap_append, Heap.discover_append]
        rfl
      refine ⟨items :: objects, ?_, hmentions ▸ hmet, ?_⟩
      · rw [List.flatten_cons, script_append, bind_run hfirst, bind_run (hscript.symm.trans hfirst),
          bind_run hrest, bind_run (hexpand.symm.trans hrest)]
      · have hpre := (heap.isPrefix_discover found (mentions items)).trans
          (heap.isPrefix_discover _ (mentions objects.flatten))
        obtain ⟨hlt, hget⟩ := List.getElem?_eq_some_iff.1
          ((Heap.getElem?_of_isPrefix hpre (List.getElem?_eq_some_iff.1 hdone).1).trans hdone)
        rw [hmentions, List.drop_eq_getElem_cons hlt, hget]
        exact .cons hitems hobjects

theorem each_eq_script {α : Type} {f : α → Walk (List Nat)} {items : α → List Item}
    (h : ∀ a found r, f a found = .ok r → f a = script heap true (items a)) {l : List α}
    (hr : each f l found = .ok r) : each f l = script heap true (l.flatMap items) := by
  induction l generalizing found r with
  | nil => rfl
  | cons a l ih =>
    rw [each_cons] at hr ⊢
    obtain ⟨first, next, hfirst, hr⟩ := run_bind_eq_ok.1 hr
    obtain ⟨rest, last, hrest, -⟩ := run_bind_eq_ok.1 hr
    rw [h a _ _ hfirst, ih hrest, List.flatMap_cons, script_append]

variable {s : State} {policy : SerializerPolicy}

/-- The whole walk writes one script: the threads, the statics, and then every object that it has
met, in the order in which they were met. -/
theorem threads_script {threads : List Thread}
    (h : each (threadWords policy masks heap) threads found = .ok r) :
    each (threadWords policy masks heap) threads = script heap true
      (threads.flatMap fun x => x.items policy (x.frames.reverse.filter masks.keeps)) := by
  refine each_eq_script (fun x _ _ hx => ?_) h
  rw [threadWords_eq] at hx ⊢
  obtain ⟨kept, hkept, hlookup⟩ := lookup_eq_ok hx
  rw [hlookup, unfiltered_eq_filter hkept]

theorem statics_script {statics : List StaticRecord}
    (h : each (staticWords masks heap true) statics found = .ok r) :
    each (staticWords masks heap true) statics = script heap true
      (statics.flatMap fun q => masks.classes[q.owner]?.elim [] q.items) := by
  refine each_eq_script (fun q _ _ hq => ?_) h
  rw [staticWords_eq] at hq ⊢
  obtain ⟨mask, hmask, hlookup⟩ := lookup_eq_ok hq
  rw [hlookup, Masks.ofClass_eq_ok.1 hmask]
  rfl

theorem stateWords_script (hkind : policy.kind = .full)
    (hopening : ∀ a, .mention a ∈ s.opening policy masks → K a)
    (hclosed : ∀ a items b, K a → s.heap.Expands masks a items → .mention b ∈ items → K b)
    (h : stateWords policy masks s [] = .ok (words, met)) :
    ∃ objects : List (List Item),
      words = (s.opening policy masks ++ objects.flatten).map (Item.code met) ∧
      met = s.heap.discover [] (mentions (s.opening policy masks ++ objects.flatten)) ∧
      s.heap.Met K met ∧ List.Forall₂ (s.heap.Expands masks) met objects := by
  obtain ⟨threads, found, hthreads, h⟩ := run_bind_eq_ok.1 h
  simp only [hkind] at h
  obtain ⟨statics, found', hstatics, h⟩ := run_bind_eq_ok.1 h
  obtain ⟨rest, _, hrest, h⟩ := run_bind_eq_ok.1 h
  cases h
  rw [threads_script hthreads] at hthreads
  rw [statics_script hstatics] at hstatics
  have hopened : script s.heap true (s.opening policy masks) [] =
      .ok (s.threads.length :: threads ++ s.statics.length :: statics, found') := by
    simp only [State.opening, List.cons_append, script_cons_word, script_append, bind_assoc, pure_bind]
    rw [bind_run hthreads, bind_run hstatics]
    rfl
  have hmet : s.heap.Met K found' := by
    obtain ⟨rfl, -⟩ := script_result hopened
    exact Heap.Met.nil.discover fun a ha => hopening a (mem_mentions.1 ha)
  obtain ⟨objects, hexpand, hmet, hobjects⟩ := expand_script hclosed (by omega) hmet hrest
  rw [hexpand] at hrest
  have hwhole : script s.heap true (s.opening policy masks ++ objects.flatten) [] =
      .ok (s.threads.length :: threads ++ s.statics.length :: statics ++ rest, met) := by
    rw [script_append, bind_run hopened, bind_run hrest]
    rfl
  obtain ⟨hdiscover, hwords⟩ := script_result hwhole
  rw [← (script_result hrest).1] at hmet hobjects
  refine ⟨objects, ?_, hdiscover, hmet, hobjects⟩
  rw [← hwords]
  simp only [List.append_assoc, List.cons_append, List.nil_append]

end Walk

end Drain

end Interleave
