import Interleave.Proofs.Fingerprint.Seen

set_option autoImplicit false

namespace Interleave

def Filter.hidesField (filter : Filter) (owner : String) (f : FieldDecl) : Bool :=
  f.filtered || filter.fields.contains (owner ++ "." ++ f.name)

def Program.hidesSlot (p : Program) (filter : Filter) (part : ClassDecl → List FieldDecl)
    (id : ClassId) (slot : Nat) : Bool :=
  p.classes[id]?.any fun decl => (part decl)[slot]?.any (filter.hidesField decl.name)

def Program.hidesMethod (p : Program) (filter : Filter) (id : MethodId) : Bool :=
  p.methods[id]?.any fun m => m.filtered || filter.methods.contains m.name

/-- The references of an object that do not stand in filtered slots. -/
def Object.Exposes (p : Program) (filter : Filter) (o : Object) (a : Handle) : Prop :=
  match o.payload with
  | .fields values =>
    ∃ slot, p.hidesSlot filter ClassDecl.fields o.owner slot = false ∧ values[slot]? = some (.ref a)
  | .ints _ => False
  | .refs elements => some a ∈ elements
  | .set members => a ∈ members.members
  | .bag members => a ∈ members.distinct

/-- What can be reached in a state without passing through filtered frames and slots. -/
inductive State.Exposes (p : Program) (filter : Filter) (s : State) : Handle → Prop where
  | ofLocal {x : Thread} {f : StackFrame} {a : Handle} (hx : x ∈ s.threads) (hf : f ∈ x.frames)
      (hmethod : p.hidesMethod filter f.method = false) (ha : .ref a ∈ f.locals) :
      Exposes p filter s a
  | awaited {x : Thread} {a : Handle} (hx : x ∈ s.threads) (ha : x.status = .blocked (.object a)) :
      Exposes p filter s a
  | ofStatic {r : StaticRecord} {slot : Nat} {a : Handle} (hr : r ∈ s.statics)
      (hslot : p.hidesSlot filter ClassDecl.statics r.owner slot = false)
      (ha : r.fields[slot]? = some (.ref a)) : Exposes p filter s a
  | next {a b : Handle} {o : Object} (ha : Exposes p filter s a) (ho : s.heap.get? a = some o)
      (hb : o.Exposes p filter b) : Exposes p filter s b

/-- Payloads that differ in hidden slots only. -/
inductive Payload.Resembles (hidden : Nat → Bool) : Payload → Payload → Prop where
  | fields {v w : List Value} (h : ∀ slot, hidden slot = false → v[slot]? = w[slot]?) :
      Resembles hidden (.fields v) (.fields w)
  | same (o : Payload) : Resembles hidden o o

structure Object.Resembles (p : Program) (filter : Filter) (o q : Object) : Prop where
  owner : o.owner = q.owner
  monitor : o.monitor = q.monitor
  payload : o.payload.Resembles (p.hidesSlot filter ClassDecl.fields o.owner) q.payload

/-- Threads that differ in the frames of filtered methods only: in how many there are, where they
stand and what is in them. -/
structure Thread.Resembles (p : Program) (filter : Filter) (x y : Thread) : Prop where
  status : x.status = y.status
  uncaught : x.uncaught.isSome = y.uncaught.isSome
  frames : x.frames.filter (fun f => !p.hidesMethod filter f.method) =
    y.frames.filter (fun f => !p.hidesMethod filter f.method)

structure StaticRecord.Resembles (p : Program) (filter : Filter) (r q : StaticRecord) : Prop where
  owner : r.owner = q.owner
  initialized : r.initialized = q.initialized
  monitor : r.monitor = q.monitor
  fields : ∀ slot, p.hidesSlot filter ClassDecl.statics r.owner slot = false →
    r.fields[slot]? = q.fields[slot]?

/-- States that differ in filtered data only, and in what is reached through nothing else. -/
structure State.Resembles (p : Program) (filter : Filter) (s t : State) : Prop where
  threads : List.Forall₂ (Thread.Resembles p filter) s.threads t.threads
  statics : List.Forall₂ (StaticRecord.Resembles p filter) s.statics t.statics
  objects : ∀ a, s.Exposes p filter a →
    Option.Rel (Object.Resembles p filter) (s.heap.get? a) (t.heap.get? a)

theorem Filter.emits_fieldMask (filter : Filter) (owner : String) (fields : List FieldDecl)
    (slot : Nat) :
    (filter.fieldMask owner fields).emits slot = !fields[slot]?.any (filter.hidesField owner) := by
  unfold FieldMask.emits Filter.fieldMask
  rw [List.getElem?_map]
  cases fields[slot]? <;> rfl

section Masks

variable {p : Program} {filter : Filter} {masks : Masks} (h : Masks.ofProgram p filter = .ok masks)

include h

variable {id : ClassId} {o : Object} {K : Handle → Prop}

theorem Masks.emits_eq (slot : Nat) :
    masks.emits id slot = !p.hidesSlot filter ClassDecl.fields id slot := by
  unfold Masks.emits Program.hidesSlot
  rw [Masks.ofProgram_eq h, List.getElem?_map]
  cases p.classes[id]? with
  | none => rfl
  | some decl => exact filter.emits_fieldMask decl.name decl.fields slot

theorem Masks.emits_static {mask : ClassMask} (hmask : masks.ofClass id = .ok mask) (slot : Nat) :
    mask.statics.emits slot = !p.hidesSlot filter ClassDecl.statics id slot := by
  rw [Masks.ofClass_eq_ok, Masks.ofProgram_eq h, List.getElem?_map] at hmask
  obtain ⟨decl, hdecl, rfl⟩ := Option.map_eq_some_iff.1 hmask
  unfold Program.hidesSlot
  rw [hdecl]
  exact filter.emits_fieldMask decl.name decl.statics slot

theorem Masks.isFilteredMethod_iff {id : MethodId} :
    masks.isFilteredMethod id = .ok true ↔ p.hidesMethod filter id = true := by
  unfold Masks.isFilteredMethod Program.hidesMethod
  rw [Masks.ofProgram_eq h, List.getElem?_map]
  cases p.methods[id]? with
  | none => simp
  | some m => simp

theorem Walk.unfiltered_filter (frames : List StackFrame) :
    unfiltered masks (frames.filter fun f => !p.hidesMethod filter f.method) =
      unfiltered masks frames := by
  induction frames with
  | nil => rfl
  | cons f frames ih =>
    cases hmethod : p.hidesMethod filter f.method with
    | true =>
      rw [List.filter_cons_of_neg (by simp [hmethod]), ih, unfiltered,
        (Masks.isFilteredMethod_iff h).2 hmethod]
      exact (bind_pure _).symm
    | false =>
      rw [List.filter_cons_of_pos (by simp [hmethod]), unfiltered, unfiltered, ih]

theorem Object.exposes_of_shown {a : Handle} (ha : a ∈ o.payload.shown masks o.owner) :
    o.Exposes p filter a := by
  obtain ⟨owner, monitor, payload⟩ := o
  cases payload with
  | fields values =>
    obtain ⟨slot, hemits, hslot⟩ := Masks.mem_visible.1 (State.mem_handles.1 ha)
    rw [Masks.emits_eq h, Bool.not_eq_true'] at hemits
    exact ⟨slot, hemits, hslot⟩
  | ints elements => cases ha
  | refs elements =>
    obtain ⟨e, he, rfl⟩ := List.mem_filterMap.1 ha
    exact he
  | set members => exact ha
  | bag members => exact ha

theorem Object.Resembles.looksAlike {q : Object} (hoq : o.Resembles p filter q)
    (hK : ∀ a, o.Exposes p filter a → K a) : o.LooksAlike masks (Pairing.within Eq K) q := by
  obtain ⟨owner, monitor, payload⟩ := o
  obtain ⟨owner', monitor', payload'⟩ := q
  refine ⟨hoq.owner, hoq.monitor, ?_⟩
  cases hoq.payload with
  | same => exact Payload.looksAlike_self fun a ha => hK a (Object.exposes_of_shown h ha)
  | fields hslots =>
    refine .fields fun slot hemits => ?_
    rw [Masks.emits_eq h, Bool.not_eq_true'] at hemits
    rw [← hslots slot hemits]
    exact Value.rel_self fun a ha => hK a ⟨slot, hemits, ha⟩

theorem Thread.Resembles.looksAlike {x y : Thread} (hxy : x.Resembles p filter y)
    (hK : ∀ a, x.Shows masks a → K a) : x.LooksAlike masks (Pairing.within Eq K) y := by
  have hframes : Walk.unfiltered masks x.frames.reverse = Walk.unfiltered masks y.frames.reverse := by
    rw [← Walk.unfiltered_filter h x.frames.reverse, ← Walk.unfiltered_filter h y.frames.reverse,
      List.filter_reverse, List.filter_reverse, hxy.frames]
  refine ⟨?_, hxy.uncaught, ?_⟩
  · rw [← hxy.status]
    cases hstatus : x.status with
    | runnable => exact .runnable
    | terminated => exact .terminated
    | blocked lock =>
      cases lock with
      | object a => exact .blocked (.object ⟨hK a (.awaited hstatus), rfl⟩)
      | ofClass id => exact .blocked (.ofClass id)
  · rw [← hframes]
    cases hkept : Walk.unfiltered masks x.frames.reverse with
    | error e => exact .error e
    | ok kept =>
      refine .ok (List.forall₂_same.2 fun f hf => ⟨rfl, rfl, List.forall₂_same.2 fun v hv => ?_⟩)
      exact Value.matches_self fun a ha => hK a (.ofLocal hkept hf (ha ▸ hv))

theorem StaticRecord.Resembles.looksAlike {r q : StaticRecord} (hrq : r.Resembles p filter q)
    (hK : ∀ a, r.Shows masks a → K a) : r.LooksAlike masks (Pairing.within Eq K) q := by
  refine ⟨hrq.owner, hrq.initialized, hrq.monitor, fun mask hmask slot hemits => ?_⟩
  have hslot := (Masks.emits_static h hmask slot).symm.trans hemits
  rw [← hrq.fields slot (by simpa using hslot)]
  exact Value.rel_self fun a ha => hK a ⟨mask, slot, hmask, FieldMask.mem_emitted.2 ⟨hemits, ha⟩⟩

end Masks

/-- Filtered data does not show in a fingerprint, under any policy: states that differ in nothing
else have the same fingerprint or fail alike, and where one of them is typed both have it. -/
theorem fingerprint_hides {p : Program} {filter : Filter} {masks : Masks}
    (hmasks : Masks.ofProgram p filter = .ok masks) {s t : State} (h : s.Resembles p filter t)
    (policy : SerializerPolicy) :
    s.fingerprint policy masks = t.fingerprint policy masks ∧
      (p.Typed s →
        ∃ f, s.fingerprint policy masks = .ok f ∧ t.fingerprint policy masks = .ok f) := by
  have hlooks : s.LooksAlike masks (Pairing.within Eq (s.Exposes p filter)) t := by
    refine ⟨⟨Pairing.biUnique_within _, ?_⟩, ?_, ?_⟩
    · rintro a _ ⟨ha, rfl⟩
      obtain ⟨hs, ht⟩ | ⟨o, q, hs, ht, hoq⟩ := optionRel_cases (h.objects a ha)
      · rw [hs, ht]
        exact .none
      · rw [hs, ht]
        exact .some (hoq.looksAlike hmasks fun b hb => .next ha hs hb)
    · refine forall₂_keep h.threads fun x hx y _ hxy => hxy.looksAlike hmasks fun a ha => ?_
      cases ha with
      | ofLocal hkept hf ha =>
        obtain ⟨hf, hshown⟩ := Walk.mem_of_unfiltered hkept hf
        refine .ofLocal hx (List.mem_reverse.1 hf) ?_ ha
        rw [← Bool.not_eq_true, ← Masks.isFilteredMethod_iff hmasks, hshown]
        simp
      | awaited ha => exact .awaited hx ha
    · refine forall₂_keep h.statics fun r hr q _ hrq => hrq.looksAlike hmasks ?_
      rintro a ⟨mask, slot, hmask, ha⟩
      obtain ⟨hemits, ha⟩ := FieldMask.mem_emitted.1 ha
      have hslot := Masks.emits_static hmasks hmask slot
      rw [hemits, eq_comm, Bool.not_eq_true'] at hslot
      exact .ofStatic hr hslot ha
  have heq := hlooks.fingerprint_eq (fun _ _ hab => hab.2) (fun a o q ha ho hq => by
    have hoq := h.objects a ha.1
    rw [ho, hq, Option.rel_some_some] at hoq
    have hpayload := hoq.payload
    generalize o.payload = x at hpayload
    generalize q.payload = y at hpayload
    cases hpayload <;> rfl) policy
  refine ⟨heq, fun htyped => ?_⟩
  obtain ⟨f, hf⟩ := fingerprint_ok (Masks.ofProgram_cover hmasks) policy htyped
  exact ⟨f, hf, heq ▸ hf⟩

/-- A clerk with a set of entries, which have a time stamp and a note, and calls an audit. -/
def ledger : Program where
  path := "ledger"
  classes := builtinClasses ++ [⟨"Entry", .plain,
    [⟨"amount", .int, false, 0⟩, ⟨"stamp", .int, true, 0⟩, ⟨"note", .ref, false, 0⟩], []⟩]
  methods := [
    ⟨"clerk", false, ["all"], [⟨.call 1, .onLine 11 3 13⟩], ["call audit"]⟩,
    ⟨"audit", true, ["e"], [⟨.yield, .onLine 7 3 7⟩], ["yield"]⟩]
  threads := [⟨"clerk", 0⟩]
  invariants := []

def ledgerFilter : Filter := ⟨["Entry.note"], []⟩

def ledgerState (stamp : Int64) (note : Value) (audits : List StackFrame) : State where
  threads := [⟨"clerk", .runnable, audits ++ [⟨0, 0, [.ref 0]⟩], none⟩]
  statics := [⟨0, true, [], .free⟩, ⟨5, true, [], .free⟩]
  heap := ⟨[some ⟨3, .free, .set ⟨.fast, [1, 2], by decide⟩⟩,
    some ⟨5, .free, .fields [.int 7, .int stamp, note]⟩,
    some ⟨5, .free, .fields [.int 7, .int 0, .null]⟩,
    note.handle?.map fun _ => ⟨5, .free, .fields [.int 1, .int 1, .null]⟩]⟩

theorem ledger_typed : ledger.Typed (ledgerState 4 (.ref 3) [⟨1, 0, [.ref 3]⟩]) where
  names := rfl
  owners := rfl
  statics := by
    simp only [ledgerState, List.mem_cons, List.not_mem_nil, or_false, forall_eq_or_imp, forall_eq]
    exact ⟨⟨_, rfl, .nil⟩, ⟨_, rfl, .nil⟩⟩
  objects := by
    rintro a o ho
    match a, ho with
    | 0, rfl => exact ⟨_, rfl, .set rfl _⟩
    | 1, rfl | 2, rfl | 3, rfl =>
      exact ⟨_, rfl, .fields rfl (.cons rfl (.cons rfl (.cons rfl .nil)))⟩
  frames := by
    simp only [ledgerState, List.mem_cons, List.not_mem_nil, or_false, forall_eq_or_imp, forall_eq,
      List.cons_append, List.nil_append]
    exact ⟨⟨_, rfl, rfl⟩, ⟨_, rfl, rfl⟩⟩

theorem ledger_exposes {a : Handle}
    (h : (ledgerState 4 (.ref 3) [⟨1, 0, [.ref 3]⟩]).Exposes ledger ledgerFilter a) : a < 3 := by
  induction h with
  | @ofLocal x f a hx hf hmethod ha =>
    obtain rfl := List.mem_singleton.1 hx
    rcases List.mem_cons.1 hf with rfl | hf
    · cases hmethod
    · obtain rfl := List.mem_singleton.1 hf
      obtain rfl := Value.ref.inj (List.mem_singleton.1 ha)
      decide
  | @awaited x a hx ha =>
    obtain rfl := List.mem_singleton.1 hx
    cases ha
  | @ofStatic r slot a hr hslot ha =>
    rcases List.mem_cons.1 hr with rfl | hr
    · cases ha
    · obtain rfl := List.mem_singleton.1 hr
      cases ha
  | @next a b o ha ho hb ih =>
    match a, ho with
    | 0, rfl =>
      have hmembers : ∀ m ∈ [1, 2], m < 3 := by decide
      exact hmembers b hb
    | 1, rfl =>
      obtain ⟨slot, hslot, hb⟩ := hb
      match slot, hb with
      | 2, _ => exact absurd hslot (by decide +kernel)
    | 2, rfl =>
      obtain ⟨slot, hslot, hb⟩ := hb
      match slot, hb with
      | 0, hb => cases hb
      | 1, hb => cases hb
      | 2, hb => cases hb
    | 3, rfl => exact absurd ih (by decide)

theorem ledger_resembles : (ledgerState 4 (.ref 3) [⟨1, 0, [.ref 3]⟩]).Resembles ledger ledgerFilter
    (ledgerState 9 .null []) where
  threads := .cons ⟨rfl, rfl, by decide +kernel⟩ .nil
  statics := List.forall₂_same.2 fun _ _ => ⟨rfl, rfl, rfl, fun _ _ => rfl⟩
  objects := by
    intro a ha
    match a, ledger_exposes ha with
    | 0, _ => exact .some ⟨rfl, rfl, .same _⟩
    | 1, _ =>
      refine .some ⟨rfl, rfl, .fields fun slot hslot => ?_⟩
      match slot with
      | 0 => rfl
      | 1 => cases hslot
      | 2 => exact absurd hslot (by decide +kernel)
      | _ + 3 => rfl
    | 2, _ => exact .some ⟨rfl, rfl, .same _⟩

/-- An audit that runs, a stamp and a note leave every fingerprint as it is. -/
theorem ledger_hides : ∃ masks, Masks.ofProgram ledger ledgerFilter = .ok masks ∧
    ∀ policy, ∃ f,
      (ledgerState 4 (.ref 3) [⟨1, 0, [.ref 3]⟩]).fingerprint policy masks = .ok f ∧
      (ledgerState 9 .null []).fingerprint policy masks = .ok f := by
  obtain ⟨masks, hmasks⟩ : ∃ masks, Masks.ofProgram ledger ledgerFilter = .ok masks :=
    Masks.ofProgram_ok (by decide +kernel)
  exact ⟨masks, hmasks, fun policy =>
    (fingerprint_hides hmasks ledger_resembles policy).2 ledger_typed⟩

end Interleave
