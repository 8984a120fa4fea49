import Interleave.Proofs.Correspondence.Isomorphic

set_option autoImplicit false

namespace Interleave

/-- Paired handles stand for objects that agree up to the pairing, or for nothing on either side. -/
structure Heap.Mirrors (heap : Heap) (R : Pairing) (heap' : Heap) : Prop where
  oneToOne : Relator.BiUnique R
  objects : ∀ a b, R a b → Option.Rel (Object.Matches R) (heap.get? a) (heap'.get? b)

structure State.Mirrors (s : State) (R : Pairing) (t : State) : Prop where
  heap : s.heap.Mirrors R t.heap
  statics : List.Forall₂ (StaticRecord.Matches R) s.statics t.statics
  threads : List.Forall₂ (Thread.Matches R) s.threads t.threads

def Pairing.within (R : Pairing) (P : Handle → Prop) : Pairing := fun a b => P a ∧ R a b

def Cut (P : Handle → Prop) (F : Pairing → Prop) (L : Pairing) : Prop := ∃ R, F R ∧ L = R.within P

def Heap.live (heap : Heap) (R : Pairing) : Pairing := R.within fun a => heap.isLive a = true

section Heaps

variable {R S : Pairing} {heap heap' heap'' : Heap} {a b : Handle} {o : Object}

theorem Heap.Mirrors.isLive (h : heap.Mirrors R heap') (hab : R a b) :
    heap.isLive a = heap'.isLive b := by
  unfold Heap.isLive
  have hobjects := h.objects a b hab
  generalize heap.get? a = x at hobjects
  generalize heap'.get? b = y at hobjects
  cases hobjects <;> rfl

theorem Heap.Mirrors.exists_object (h : heap.Mirrors R heap') (hab : R a b)
    (ho : heap.get? a = some o) : ∃ q, heap'.get? b = some q ∧ o.Matches R q := by
  have hobjects := h.objects a b hab
  rw [ho] at hobjects
  generalize heap'.get? b = y at hobjects
  cases hobjects with
  | some hoq => exact ⟨_, rfl, hoq⟩

theorem Heap.Mirrors.comp (h : heap.Mirrors R heap') (h' : heap'.Mirrors S heap'') :
    heap.Mirrors (Relation.Comp R S) heap'' := by
  refine ⟨biUnique_comp h.oneToOne h'.oneToOne, ?_⟩
  rintro a c ⟨b, hab, hbc⟩
  have hfirst := h.objects a b hab
  have hsecond := h'.objects b c hbc
  generalize heap.get? a = x at hfirst
  generalize heap'.get? b = y at hfirst hsecond
  generalize heap''.get? c = z at hsecond
  cases hfirst with
  | none =>
    cases hsecond
    exact .none
  | some hoq =>
    cases hsecond with
    | some hqk =>
      exact .some ⟨hoq.owner.trans hqk.owner, hoq.monitor.trans hqk.monitor,
        hoq.payload.comp hqk.payload⟩

end Heaps

/-- What the roots of a state lead to, and the objects that its threads wait for. -/
inductive State.Spans (s : State) : Handle → Prop where
  | root {h : Handle} (hh : h ∈ s.roots) : Spans s h
  | awaited {thread : Thread} {h : Handle} (hthread : thread ∈ s.threads)
      (hh : thread.status = .blocked (.object h)) : Spans s h
  | next {h k : Handle} {o : Object} (hh : Spans s h) (ho : s.heap.get? h = some o)
      (hk : k ∈ o.payload.outgoing) : Spans s k

theorem ThreadStatus.Matches.awaited {R : Pairing} {x y : ThreadStatus} (h : x.Matches R y)
    {a : Handle} (ha : x = .blocked (.object a)) : ∃ b, y = .blocked (.object b) ∧ R a b := by
  subst ha
  cases h with
  | blocked hlock =>
    cases hlock with
    | object hab => exact ⟨_, rfl, hab⟩

section States

variable {R S : Pairing} {s t u : State} {a : Handle}

theorem State.Corresponds.mirrors (h : s.Corresponds R t) : s.Mirrors R t where
  heap := by
    refine ⟨h.oneToOne, fun a b hab => ?_⟩
    obtain ⟨o, q, ho, hq, hoq⟩ := h.objects a b hab
    rw [ho, hq]
    exact .some hoq
  statics := h.statics
  threads := h.threads

variable (h : s.Mirrors R t)

include h

theorem State.Mirrors.comp (h' : t.Mirrors S u) :
    s.Mirrors (Relation.Comp R S) u where
  heap := h.heap.comp h'.heap
  statics := (forall₂_comp h.statics h'.statics).imp fun _ _ ⟨_, hrq, hqk⟩ => hrq.comp hqk
  threads := (forall₂_comp h.threads h'.threads).imp fun _ _ ⟨_, htu, huv⟩ => htu.comp huv

theorem State.Mirrors.swap : t.Mirrors (Function.swap R) s where
  heap := by
    refine ⟨biUnique_swap h.heap.oneToOne, fun b a hab => ?_⟩
    have hobjects := h.heap.objects a b hab
    generalize s.heap.get? a = x at hobjects
    generalize t.heap.get? b = y at hobjects
    cases hobjects with
    | none => exact .none
    | some hoq => exact .some hoq.swap
  statics := (h.statics.imp fun _ _ hrq => hrq.swap).flip
  threads := (h.threads.imp fun _ _ htu => htu.swap).flip

omit h in
theorem State.mirrors_within_spans (hone : Relator.BiUnique (R.within s.Spans))
    (hobjects : ∀ a b, s.Spans a → R a b →
      Option.Rel (Object.Matches R) (s.heap.get? a) (t.heap.get? b))
    (hstatics : List.Forall₂ (StaticRecord.Matches R) s.statics t.statics)
    (hthreads : List.Forall₂ (Thread.Matches R) s.threads t.threads) :
    s.Mirrors (R.within s.Spans) t where
  heap := by
    refine ⟨hone, ?_⟩
    rintro a b ⟨ha, hab⟩
    have hobject := hobjects a b ha hab
    generalize ho : s.heap.get? a = x at hobject
    generalize t.heap.get? b = y at hobject
    cases hobject with
    | none => exact .none
    | some hoq =>
      refine .some ⟨hoq.owner, hoq.monitor, hoq.payload.imp fun c d hc hcd => ?_⟩
      exact ⟨.next ha ho hc, hcd⟩
  statics := by
    refine forall₂_keep hstatics fun r hr q _ hrq => ⟨hrq.owner, hrq.initialized, ?_, hrq.monitor⟩
    exact values_imp hrq.fields fun a b ha hab =>
      ⟨.root (State.mem_roots.2 (.inr ⟨r, hr, ha⟩)), hab⟩
  threads := by
    refine forall₂_keep hthreads fun a ha b _ hab => ⟨hab.name, ?_, ?_, hab.uncaught⟩
    · have hstatus := hab.status
      generalize hx : a.status = x at hstatus
      generalize b.status = y at hstatus
      cases hstatus with
      | runnable => exact .runnable
      | terminated => exact .terminated
      | blocked hlm =>
        cases hlm with
        | object hcd => exact .blocked (.object ⟨.awaited ha hx, hcd⟩)
        | ofClass id => exact .blocked (.ofClass id)
    · refine forall₂_keep hab.frames fun f hf g _ hfg => ⟨hfg.method, hfg.pc, ?_⟩
      exact values_imp hfg.locals fun c d hc hcd =>
        ⟨.root (State.mem_roots.2 (.inl ⟨a, ha, f, hf, hc⟩)), hcd⟩

theorem State.Mirrors.within_spans : s.Mirrors (R.within s.Spans) t := by
  refine State.mirrors_within_spans ⟨?_, ?_⟩ (fun a b _ => h.heap.objects a b) h.statics h.threads
  · exact fun _ _ _ hac hbc => h.heap.oneToOne.1 hac.2 hbc.2
  · exact fun _ _ _ hab hac => h.heap.oneToOne.2 hab.2 hac.2

theorem State.Mirrors.spans (ha : s.Spans a) : ∃ b, R a b ∧ t.Spans b := by
  induction ha with
  | root ha =>
    rcases State.mem_roots.1 ha with ⟨x, hx, f, hf, ha⟩ | ⟨r, hr, ha⟩
    · obtain ⟨y, hy, hxy⟩ := forall₂_exists h.threads hx
      obtain ⟨g, hg, hfg⟩ := forall₂_exists hxy.frames hf
      obtain ⟨b, hb, hab⟩ := values_exists hfg.locals ha
      exact ⟨b, hab, .root (State.mem_roots.2 (.inl ⟨y, hy, g, hg, hb⟩))⟩
    · obtain ⟨q, hq, hrq⟩ := forall₂_exists h.statics hr
      obtain ⟨b, hb, hab⟩ := values_exists hrq.fields ha
      exact ⟨b, hab, .root (State.mem_roots.2 (.inr ⟨q, hq, hb⟩))⟩
  | awaited hx ha =>
    obtain ⟨y, hy, hxy⟩ := forall₂_exists h.threads hx
    obtain ⟨b, hb, hab⟩ := hxy.status.awaited ha
    exact ⟨b, hab, .awaited hy hb⟩
  | next _ ho hk ih =>
    obtain ⟨b, hab, hb⟩ := ih
    obtain ⟨q, hq, hoq⟩ := h.heap.exists_object hab ho
    obtain ⟨c, hc, hkc⟩ := outgoing_exists hoq.payload hk
    exact ⟨c, hkc, .next hb hq hc⟩

theorem State.Mirrors.spans_right {b : Handle} (ha : s.Spans a) (hab : R a b) : t.Spans b := by
  obtain ⟨c, hac, hc⟩ := h.spans ha
  exact h.heap.oneToOne.2 hac hab ▸ hc

/-- A state that mirrors any state mirrors itself, and each handle that it spans mirrors itself. -/
theorem State.Mirrors.self : ∃ E : Pairing, s.Mirrors E s ∧ ∀ a b, E a b → a = b ∧ s.Spans a := by
  refine ⟨_, (h.comp h.swap).within_spans, ?_⟩
  rintro a b ⟨ha, c, hac, hbc⟩
  exact ⟨h.heap.oneToOne.1 hac hbc, ha⟩

end States

end Interleave
