import Interleave.Proofs.Fingerprint.Hidden

set_option autoImplicit false

namespace Interleave

/-- References are held only in slots that the masks call reference slots. -/
structure State.Confines (s : State) (masks : Masks) : Prop where
  objects : ∀ a o values mask, s.heap.get? a = some o → o.payload = .fields values →
    masks.ofClass o.owner = .ok mask →
    ∀ slot b, (slot, .ref b) ∈ mask.fields.emitted values → mask.fields.isRef slot = true
  statics : ∀ r ∈ s.statics, ∀ mask, masks.ofClass r.owner = .ok mask →
    ∀ slot b, (slot, .ref b) ∈ mask.statics.emitted r.fields → mask.statics.isRef slot = true

/-- What is reached through slots that are not filtered: from the locals of frames whose methods are
not filtered, from the objects that threads wait for, and from the statics. -/
inductive State.Visible (s : State) (masks : Masks) : Handle → Prop where
  | ofLocal {x : Thread} {f : StackFrame} {a : Handle} (hx : x ∈ s.threads) (hf : f ∈ x.frames)
      (hkept : masks.isFilteredMethod f.method = .ok false) (ha : .ref a ∈ f.locals) :
      Visible s masks a
  | awaited {x : Thread} {a : Handle} (hx : x ∈ s.threads)
      (ha : x.status = .blocked (.object a)) : Visible s masks a
  | ofStatic {r : StaticRecord} {a : Handle} (hr : r ∈ s.statics) (ha : r.Shows masks a) :
      Visible s masks a
  | next {b a : Handle} {o : Object} (hb : Visible s masks b) (ho : s.heap.get? b = some o)
      (ha : a ∈ o.payload.shown masks o.owner) : Visible s masks a

namespace State

variable {s : State} {masks : Masks} {policy : SerializerPolicy} {a b : Handle} {items : List Item}

theorem visible_of_opening (ha : .mention a ∈ s.opening policy masks) : s.Visible masks a := by
  obtain ⟨x, hx, ha⟩ | ⟨r, hr, mask, hmask, ha⟩ := mention_opening.1 ha
  · obtain ha | ⟨f, hf, ha⟩ := Thread.mention_items.1 ha
    · exact .awaited hx ha
    · obtain ⟨hf, hkept⟩ := List.mem_filter.1 hf
      exact .ofLocal hx (List.mem_reverse.1 hf) (Masks.keeps_iff.1 hkept) ha
  · obtain ⟨slot, ha, _⟩ := StaticRecord.mention_items.1 ha
    exact .ofStatic hr ⟨mask, slot, hmask, ha⟩

theorem visible_of_expansion (hb : s.Visible masks b) (h : s.heap.Expands masks b items)
    (ha : .mention a ∈ items) : s.Visible masks a := by
  obtain ⟨o, mask, order, ho, hmask, horder, rfl⟩ := h
  exact .next hb ho (Object.shown_of_mention hmask horder ha)

namespace Confines

variable (h : s.Confines masks)

include h

theorem mention_expansion {o : Object} (ho : s.heap.get? b = some o)
    (ha : a ∈ o.payload.shown masks o.owner) (hitems : s.heap.Expands masks b items) :
    .mention a ∈ items := by
  obtain ⟨q, mask, order, hq, hmask, horder, rfl⟩ := hitems
  cases hq.symm.trans ho
  rw [Object.items, List.mem_append, or_iff_right not_mention_words, Payload.mention_items horder]
  have hrefs := fun values hvalues => h.objects b o values mask ho hvalues hmask
  obtain ⟨owner, monitor, payload⟩ := o
  cases payload with
  | fields values =>
    rw [Payload.shown, State.mem_handles, Masks.visible, Masks.ofClass_eq_ok.1 hmask] at ha
    obtain ⟨⟨slot, v⟩, hslot, rfl⟩ := List.mem_map.1 ha
    exact ⟨slot, hslot, hrefs values rfl slot a hslot⟩
  | ints elements => cases ha
  | refs elements => simpa [Payload.shown] using ha
  | set members => exact ha
  | bag members => exact ha

/-- A live object that can be seen is mentioned, once all the objects that are met are expanded. -/
theorem mentioned {objects : List (List Item)} {met : List Handle}
    (hmet : met = s.heap.discover [] (mentions (s.opening policy masks ++ objects.flatten)))
    (hobjects : List.Forall₂ (s.heap.Expands masks) met objects) (ha : s.Visible masks a)
    (hlive : s.heap.isLive a = true) : a ∈ met := by
  have hmem {k : Handle} (hk : .mention k ∈ s.opening policy masks ++ objects.flatten)
      (hlive : s.heap.isLive k = true) : k ∈ met :=
    hmet ▸ Heap.mem_discover.2 (.inr ⟨mem_mentions.2 hk, hlive⟩)
  induction ha with
  | @ofLocal x f a hx hf hkept ha =>
    have hitem : .mention a ∈ x.items policy (x.frames.reverse.filter masks.keeps) :=
      Thread.mention_items.2 (.inr ⟨f, List.mem_filter.2
        ⟨List.mem_reverse.2 hf, Masks.keeps_iff.2 hkept⟩, ha⟩)
    exact hmem (List.mem_append_left _ (mention_opening.2 (.inl ⟨x, hx, hitem⟩))) hlive
  | @awaited x a hx ha =>
    have hitem : .mention a ∈ x.items policy (x.frames.reverse.filter masks.keeps) :=
      Thread.mention_items.2 (.inl ha)
    exact hmem (List.mem_append_left _ (mention_opening.2 (.inl ⟨x, hx, hitem⟩))) hlive
  | @ofStatic r a hr ha =>
    obtain ⟨mask, slot, hmask, ha⟩ := ha
    have hitem := StaticRecord.mention_items.2 ⟨slot, ha, h.statics r hr mask hmask slot a ha⟩
    exact hmem (List.mem_append_left _ (mention_opening.2 (.inr ⟨r, hr, mask, hmask, hitem⟩))) hlive
  | @next b a o hb ho ha ih =>
    obtain ⟨items, hitems, hexpands⟩ := forall₂_exists hobjects (ih (Heap.isLive_iff.2 ⟨o, ho⟩))
    have hitem := h.mention_expansion ho ha hexpands
    exact hmem (List.mem_append_right _ (List.mem_flatten.2 ⟨items, hitems, hitem⟩)) hlive

end Confines

end State

theorem Filter.isRef_fieldMask (filter : Filter) (owner : String) {values : List Value}
    {fields : List FieldDecl} (h : Fits values fields) {slot : Nat} {b : Handle}
    (hslot : (slot, .ref b) ∈ (filter.fieldMask owner fields).emitted values) :
    (filter.fieldMask owner fields).isRef slot = true := by
  have hrel := forall₂_getElem? h slot
  rw [(FieldMask.mem_emitted.1 hslot).2] at hrel
  cases hfield : fields[slot]? with
  | none => rw [hfield] at hrel; cases hrel
  | some field =>
    rw [hfield, Option.rel_some_some] at hrel
    have htype : field.type = .ref := by
      cases htype : field.type with
      | int => rw [htype] at hrel; cases hrel
      | ref => rfl
    simp [FieldMask.isRef, Filter.fieldMask, hfield, htype]

theorem Program.Typed.confines {p : Program} {filter : Filter} {masks : Masks} {s : State}
    (h : p.Typed s) (hmasks : Masks.ofProgram p filter = .ok masks) : s.Confines masks := by
  obtain rfl := Masks.ofProgram_eq hmasks
  constructor
  · intro a o values mask ho hvalues hmask slot b hb
    obtain ⟨decl, hdecl, htyped⟩ := h.objects a o ho
    rw [hvalues] at htyped
    cases htyped with
    | fields _ hfits =>
      obtain rfl : _ = mask := by simpa [hdecl] using Masks.ofClass_eq_ok.1 hmask
      exact filter.isRef_fieldMask decl.name hfits hb
  · intro r hr mask hmask slot b hb
    obtain ⟨decl, hdecl, hfits⟩ := h.statics r hr
    obtain rfl : _ = mask := by simpa [hdecl] using Masks.ofClass_eq_ok.1 hmask
    exact filter.isRef_fieldMask decl.name hfits hb

theorem number?_eq_some_iff {met : List Handle} (hnodup : met.Nodup) {a : Handle} {n : Nat} :
    number? met a = some n ↔ 0 < n ∧ met[n - 1]? = some a := by
  refine ⟨Walk.getElem?_of_number, fun ⟨hpos, hget⟩ => ?_⟩
  cases hk : number? met a with
  | none => exact absurd (List.mem_of_getElem? hget) (number?_eq_none.1 hk)
  | some k =>
    obtain ⟨hk, hget'⟩ := Walk.getElem?_of_number hk
    have heq := (List.getElem?_inj (List.getElem?_eq_some_iff.1 hget').1 hnodup).1
      (hget'.trans hget.symm)
    exact congrArg some (by omega)

/-- The full fingerprint is one script, whose objects are numbered in the order in which it mentions
them first: it opens with the threads and the statics, and goes on with the class, the monitor and
the payload of every numbered object, once each and in the order of the numbers. The numbered
objects are the live ones that can be seen. -/
theorem traversal_exact {s : State} {masks : Masks} {policy : SerializerPolicy} {f : Fingerprint}
    (hkind : policy.kind = .full) (hs : s.Confines masks)
    (hf : s.fingerprint policy masks = .ok f) :
    ∃ (met : List Handle) (objects : List (List Item)),
      (Walk.stateWords policy masks s).run [] = .ok (f.words, met) ∧
      f.words = (s.opening policy masks ++ objects.flatten).map (Item.code met) ∧
      met = s.heap.discover [] (mentions (s.opening policy masks ++ objects.flatten)) ∧
      (∀ a, a ∈ met ↔ s.heap.isLive a = true ∧ s.Visible masks a) ∧
      (∀ a n, number? met a = some n ↔ 0 < n ∧ met[n - 1]? = some a) ∧
      List.Forall₂ (s.heap.Expands masks) met objects := by
  obtain ⟨⟨words, met⟩, hwords, hf⟩ := bind_eq_ok.1 hf
  cases hf
  obtain ⟨objects, hcode, hdiscover, hmet, hobjects⟩ := Walk.stateWords_script hkind
    (fun _ => State.visible_of_opening) (fun _ _ _ => State.visible_of_expansion) hwords
  refine ⟨met, objects, hwords, hcode, hdiscover, fun a => ?_,
    fun a n => number?_eq_some_iff hmet.nodup, hobjects⟩
  constructor
  · exact fun ha => ⟨hmet.live a ha, hmet.within a ha⟩
  · exact fun ⟨hlive, ha⟩ => hs.mentioned hdiscover hobjects ha hlive

/-- The walk from the clerk's set comes to an entry and from there to its note. -/
theorem ledger_traversal : ∃ masks f met,
    Masks.ofProgram ledger ⟨[], []⟩ = .ok masks ∧
    (ledgerState 4 (.ref 3) [⟨1, 0, [.ref 3]⟩]).Confines masks ∧
    (ledgerState 4 (.ref 3) [⟨1, 0, [.ref 3]⟩]).fingerprint ⟨.full, true⟩ masks = .ok f ∧
    (Walk.stateWords ⟨.full, true⟩ masks (ledgerState 4 (.ref 3) [⟨1, 0, [.ref 3]⟩])).run [] =
      .ok (f.words, met) ∧ 3 ∈ met := by
  obtain ⟨masks, hmasks⟩ : ∃ masks, Masks.ofProgram ledger ⟨[], []⟩ = .ok masks :=
    Masks.ofProgram_ok (by decide +kernel)
  have hconfines := ledger_typed.confines hmasks
  obtain ⟨f, hf⟩ := fingerprint_ok (Masks.ofProgram_cover hmasks) ⟨.full, true⟩ ledger_typed
  obtain ⟨met, objects, hwalk, -, -, hmet, -⟩ := traversal_exact rfl hconfines hf
  refine ⟨masks, f, met, hmasks, hconfines, hf, hwalk, (hmet 3).2 ⟨rfl, ?_⟩⟩
  obtain rfl := Masks.ofProgram_eq hmasks
  refine .next (b := 1) (.next (b := 0) (.ofLocal (List.mem_singleton_self _)
    (.tail _ (List.mem_singleton_self _)) rfl (List.mem_singleton_self _)) rfl ?_) rfl ?_
  · decide
  · decide +kernel

end Interleave
