import Interleave.Proofs.Fingerprint.Script

set_option autoImplicit false

namespace Interleave

structure Masks.Cover (masks : Masks) (p : Program) : Prop where
  classes : masks.classes.length = p.classes.length
  methods : masks.filteredMethods.length = p.methods.length

section Masks

variable {p : Program} {masks : Masks} {filter : Filter} {e : MaskError}

theorem Masks.ofProgram_ok (h : filter.firstUnknown? p = none) :
    ∃ masks, Masks.ofProgram p filter = .ok masks := by
  unfold Masks.ofProgram
  rw [h]
  exact ⟨_, rfl⟩

theorem Masks.ofProgram_eq (h : Masks.ofProgram p filter = .ok masks) :
    masks = ⟨p.classes.map fun decl =>
      ⟨filter.fieldMask decl.name decl.fields, filter.fieldMask decl.name decl.statics⟩,
    p.methods.map fun m => m.filtered || filter.methods.contains m.name⟩ := by
  unfold Masks.ofProgram at h
  split at h
  · cases h
  · exact (Except.ok.inj h).symm

theorem Masks.ofProgram_cover (h : Masks.ofProgram p filter = .ok masks) : masks.Cover p := by
  rw [Masks.ofProgram_eq h]
  exact ⟨List.length_map _, List.length_map _⟩

theorem Masks.Cover.ofClass (h : masks.Cover p) {id : ClassId} {decl : ClassDecl}
    (hdecl : p.classes[id]? = some decl) : masks.ofClass id ≠ .error e := by
  have hlt : id < masks.classes.length := by
    rw [h.classes]
    exact (List.getElem?_eq_some_iff.1 hdecl).1
  unfold Masks.ofClass
  rw [List.getElem?_eq_getElem hlt]
  simp

theorem Masks.Cover.isFilteredMethod (h : masks.Cover p) {id : MethodId} {m : MethodDecl}
    (hm : p.methods[id]? = some m) : masks.isFilteredMethod id ≠ .error e := by
  have hlt : id < masks.filteredMethods.length := by
    rw [h.methods]
    exact (List.getElem?_eq_some_iff.1 hm).1
  unfold Masks.isFilteredMethod
  rw [List.getElem?_eq_getElem hlt]
  simp

end Masks

def MaskError.IsMissing : MaskError → Prop
  | missingClass _ | missingMethod _ => True
  | unknownField _ | unknownMethod _ => False

variable {masks : Masks} {e : MaskError}

theorem Masks.ofClass_missing {id : ClassId} (h : masks.ofClass id = .error e) : e.IsMissing := by
  unfold Masks.ofClass at h
  split at h
  · cases h
  · cases h
    trivial

theorem Masks.isFilteredMethod_missing {id : MethodId} (h : masks.isFilteredMethod id = .error e) :
    e.IsMissing := by
  unfold Masks.isFilteredMethod at h
  split at h
  · cases h
  · cases h
    trivial

def Walk.Total {α : Type} (x : Walk α) : Prop := ∀ found, ∃ r, x found = .ok r

def Walk.Fails {α : Type} (E : MaskError → Prop) (x : Walk α) : Prop :=
  ∀ found e, x found = .error e → E e

namespace Walk

def Misses {α : Type} (x : Walk α) : Prop := ∀ found e, x found = .error e → e.IsMissing

variable {α β : Type} {E : MaskError → Prop} {x : Walk α} {f : α → Walk β} {o : Object} {s : State}

theorem Fails.total (h : Fails (fun _ => False) x) : Total x := by
  intro found
  cases hx : x found with
  | ok r => exact ⟨r, rfl⟩
  | error e => exact (h found e hx).elim

theorem Fails.pure (a : α) : Fails E (Pure.pure a : Walk α) := by
  intro found e h
  cases h

theorem Fails.get : Fails E (get : Walk (List Handle)) := by
  intro found e h
  cases h

theorem Fails.bind (hx : Fails E x) (hf : ∀ a, Fails E (f a)) : Fails E (x >>= f) := by
  intro found e h
  rcases bind_eq_error h with h | ⟨r, _, h⟩
  · exact hx found e h
  · exact hf r.1 r.2 e h

theorem Fails.lookup {x : Except MaskError α} (hx : ∀ e, x = .error e → E e)
    (hf : ∀ a, Fails E (f a)) : Fails E (liftM x >>= f) := by
  cases x with
  | error e =>
    intro found e' h
    cases h
    exact hx e rfl
  | ok a => exact hf a

theorem Fails.each {words : α → Walk (List Nat)} {items : List α}
    (h : ∀ a ∈ items, Fails E (words a)) : Fails E (each words items) := by
  have hmap : Fails E (items.mapM words) := by
    induction items with
    | nil => exact Fails.pure _
    | cons a items ih =>
      rw [List.mapM_cons]
      have hrest := ih fun b hb => h b (List.mem_cons_of_mem _ hb)
      exact (h a List.mem_cons_self).bind fun _ => hrest.bind fun _ => Fails.pure _
  exact hmap.bind fun _ => Fails.pure _

theorem script_fails (heap : Heap) (meet : Bool) (items : List Item) :
    Fails E (script heap meet items) := by
  intro found e h
  obtain ⟨r, hr⟩ := script_ok heap meet items found
  cases hr.symm.trans h

variable {masks : Masks}

theorem unfiltered_fails {frames : List StackFrame}
    (h : ∀ f ∈ frames, ∀ e, masks.isFilteredMethod f.method = .error e → E e) {e : MaskError}
    (herror : unfiltered masks frames = .error e) : E e := by
  induction frames with
  | nil => cases herror
  | cons f rest ih =>
    rw [unfiltered] at herror
    rcases bind_eq_error herror with herror | ⟨_, _, herror⟩
    · exact h f List.mem_cons_self e herror
    · rcases bind_eq_error herror with herror | ⟨_, _, herror⟩
      · exact ih (fun g hg => h g (List.mem_cons_of_mem _ hg)) herror
      · cases herror

theorem threadWords_fails (policy : SerializerPolicy) (heap : Heap) {thread : Thread}
    (h : ∀ f ∈ thread.frames, ∀ e, masks.isFilteredMethod f.method = .error e → E e) :
    Fails E (threadWords policy masks heap thread) := by
  rw [threadWords_eq]
  exact Fails.lookup (fun _ => unfiltered_fails fun f hf => h f (List.mem_reverse.1 hf))
    fun _ => script_fails heap true _

theorem staticWords_fails (heap : Heap) (meet : Bool) {record : StaticRecord}
    (h : ∀ e, masks.ofClass record.owner = .error e → E e) :
    Fails E (staticWords masks heap meet record) := by
  rw [staticWords_eq]
  exact Fails.lookup h fun _ => script_fails heap meet _

theorem objectWordsBy_fails (h : ∀ e, masks.ofClass o.owner = .error e → E e) (heap : Heap)
    (order : List Handle → List Handle → List Handle) :
    Fails E (objectWordsBy masks heap order o) := by
  rw [objectWordsBy_eq]
  exact Fails.lookup h fun _ => Fails.get.bind fun _ => script_fails heap true _

theorem objectWordsBy_total (hmask : ∃ mask, masks.ofClass o.owner = .ok mask) (heap : Heap)
    (order : List Handle → List Handle → List Handle) :
    Total (objectWordsBy masks heap order o) := by
  obtain ⟨mask, hmask⟩ := hmask
  exact (objectWordsBy_fails (by simp [hmask]) heap order).total

theorem expand_fails {heap : Heap}
    (h : ∀ k o, heap.get? k = some o → ∀ e, masks.ofClass o.owner = .error e → E e)
    (fuel done : Nat) : Fails E (expand masks heap fuel done) := by
  induction fuel generalizing done with
  | zero => exact Fails.pure _
  | succ fuel ih =>
    refine Fails.get.bind fun found => ?_
    cases found[done]? with
    | none => exact Fails.pure _
    | some k =>
      dsimp only
      cases ho : heap.get? k with
      | none => exact ih (done + 1)
      | some o =>
        refine (objectWordsBy_fails (h k o ho) heap _).bind fun _ => ?_
        exact (ih (done + 1)).bind fun _ => Fails.pure _

theorem stateWords_fails (policy : SerializerPolicy)
    (hthreads : ∀ t ∈ s.threads, ∀ f ∈ t.frames, ∀ e, masks.isFilteredMethod f.method = .error e →
    E e) (hstatics : ∀ r ∈ s.statics, ∀ e, masks.ofClass r.owner = .error e → E e)
    (hobjects : ∀ k o, s.heap.get? k = some o → ∀ e, masks.ofClass o.owner = .error e → E e) :
    Fails E (stateWords policy masks s) := by
  have hwords : ∀ meet, Fails E (each (staticWords masks s.heap meet) s.statics) := fun meet =>
    Fails.each fun r hr => staticWords_fails s.heap meet (hstatics r hr)
  have hexpand := expand_fails hobjects s.heap.cells.length 0
  refine (Fails.each fun t ht => threadWords_fails policy s.heap (hthreads t ht)).bind
    fun threads => ?_
  cases policy.kind with
  | full => exact (hwords true).bind fun _ => hexpand.bind fun _ => Fails.pure _
  | threadReachable => exact hexpand.bind fun _ => (hwords false).bind fun _ => Fails.pure _

theorem stateWords_misses (policy : SerializerPolicy) (s : State) :
    Misses (stateWords policy masks s) :=
  stateWords_fails policy (fun _ _ _ _ _ => Masks.isFilteredMethod_missing)
    (fun _ _ _ => Masks.ofClass_missing) fun _ _ _ _ => Masks.ofClass_missing

theorem stateWords_total {p : Program} (hmasks : masks.Cover p) (policy : SerializerPolicy)
    (hs : p.Typed s) : Total (stateWords policy masks s) := by
  refine (stateWords_fails policy (fun t ht f hf _ => ?_) (fun r hr _ => ?_)
    fun k o ho _ => ?_).total
  · obtain ⟨m, hm, _⟩ := hs.frames t ht f hf
    exact hmasks.isFilteredMethod hm
  · obtain ⟨decl, hdecl, _⟩ := hs.statics r hr
    exact hmasks.ofClass hdecl
  · obtain ⟨decl, hdecl, _⟩ := hs.objects k o ho
    exact hmasks.ofClass hdecl

end Walk

theorem fingerprint_ok {p : Program} (hmasks : masks.Cover p) (policy : SerializerPolicy)
    {s : State} (hs : p.Typed s) : ∃ f, s.fingerprint policy masks = .ok f := by
  obtain ⟨⟨words, found⟩, hwords⟩ := Walk.stateWords_total hmasks policy hs []
  refine ⟨⟨words⟩, bind_eq_ok.2 ⟨(words, found), hwords, rfl⟩⟩

end Interleave
