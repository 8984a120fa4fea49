import Interleave.Proofs.Correspondence.Step

set_option autoImplicit false

namespace Interleave

variable {values v w : List Value} {o q : Payload}

namespace State

inductive Reaches (s : State) : Handle → Prop where
  | root {h : Handle} (hh : h ∈ s.roots) : Reaches s h
  | next {h k : Handle} {o : Object} (hh : Reaches s h) (ho : s.heap.get? h = some o)
      (hk : k ∈ o.payload.outgoing) : Reaches s k

variable {h : Handle} {s : State}

theorem mem_handles : h ∈ values.filterMap Value.handle? ↔ .ref h ∈ values := by
  rw [List.mem_filterMap]
  constructor
  · rintro ⟨v, hv, heq⟩
    cases v with
    | ref k =>
      obtain rfl : k = h := by simpa [Value.handle?] using heq
      exact hv
    | int _ | null => simp [Value.handle?] at heq
  · intro hv
    exact ⟨.ref h, hv, rfl⟩

theorem mem_roots :
    h ∈ s.roots ↔
      (∃ t ∈ s.threads, ∃ f ∈ t.frames, .ref h ∈ f.locals) ∨
        ∃ r ∈ s.statics, .ref h ∈ r.fields := by
  simp only [roots, List.mem_append, List.mem_flatMap, List.mem_reverse, mem_handles]

theorem Reaches.of_local {t : Thread} {f : StackFrame} (ht : t ∈ s.threads) (hf : f ∈ t.frames)
    (hh : .ref h ∈ f.locals) : s.Reaches h :=
  .root (mem_roots.2 (.inl ⟨t, ht, f, hf, hh⟩))

theorem Reaches.of_static {r : StaticRecord} (hr : r ∈ s.statics) (hh : .ref h ∈ r.fields) :
    s.Reaches h :=
  .root (mem_roots.2 (.inr ⟨r, hr, hh⟩))

end State

section Corresponding

variable {R : Pairing} {a : Handle} {α β : Type} {r : α → β → Prop} {l : List α} {m : List β}

theorem forall₂_exists (h : List.Forall₂ r l m) {a : α} (ha : a ∈ l) : ∃ b ∈ m, r a b := by
  induction h with
  | nil => cases ha
  | cons hab _ ih =>
    rcases List.mem_cons.1 ha with rfl | ha
    · exact ⟨_, List.mem_cons_self, hab⟩
    · obtain ⟨b, hb, hab⟩ := ih ha
      exact ⟨b, List.mem_cons_of_mem _ hb, hab⟩

theorem forall₂_keep {q : α → β → Prop} (h : List.Forall₂ r l m)
    (hkept : ∀ a ∈ l, ∀ b ∈ m, r a b → q a b) : List.Forall₂ q l m := by
  induction h with
  | nil => exact .nil
  | cons hab _ ih =>
    refine .cons (hkept _ List.mem_cons_self _ List.mem_cons_self hab) (ih fun a ha b hb => ?_)
    exact hkept a (List.mem_cons_of_mem _ ha) b (List.mem_cons_of_mem _ hb)

theorem map_eq_of_forall₂ {γ : Type} (h : List.Forall₂ r l m) {f : α → γ} {g : β → γ}
    (hfg : ∀ a b, r a b → f a = g b) : l.map f = m.map g := by
  induction h with
  | nil => rfl
  | cons hab _ ih => rw [List.map_cons, List.map_cons, hfg _ _ hab, ih]

theorem values_exists (h : List.Forall₂ (Value.Matches R) v w) (ha : .ref a ∈ v) :
    ∃ b, .ref b ∈ w ∧ R a b := by
  obtain ⟨x, hx, hax⟩ := forall₂_exists h ha
  cases hax with
  | ref hab => exact ⟨_, hx, hab⟩

theorem IdBag.Tidy.mem_toList {b : IdBag Handle} (h : b.Tidy) {k : Handle} :
    k ∈ b.toList ↔ k ∈ b.distinct := by
  simp only [IdBag.toList, IdBag.distinct, List.mem_flatMap, List.mem_map]
  constructor
  · rintro ⟨e, he, hk⟩
    exact ⟨e, he, (List.eq_of_mem_replicate hk).symm⟩
  · rintro ⟨e, he, rfl⟩
    exact ⟨e, he, List.mem_replicate.2 ⟨(h.positive e he).ne.symm, rfl⟩⟩

theorem outgoing_exists (h : o.Matches R q) (ha : a ∈ o.outgoing) : ∃ b ∈ q.outgoing, R a b := by
  cases h with
  | fields hvw =>
    obtain ⟨b, hb, hab⟩ := values_exists hvw (State.mem_handles.1 ha)
    exact ⟨b, State.mem_handles.2 hb, hab⟩
  | ints elements => simp [Payload.outgoing] at ha
  | refs hef =>
    obtain ⟨x, hx, rfl⟩ := List.mem_filterMap.1 ha
    obtain ⟨y, hy, hxy⟩ := forall₂_exists hef hx
    cases hxy with
    | some hab => exact ⟨_, List.mem_filterMap.2 ⟨_, hy, rfl⟩, hab⟩
  | set hmn =>
    obtain ⟨b, hb, hab⟩ := Multiset.exists_mem_of_rel_of_mem hmn (Multiset.mem_coe.2 ha)
    exact ⟨b, Multiset.mem_coe.1 hb, hab⟩
  | @bag b c hbc =>
    obtain ⟨e, he, rfl⟩ := List.mem_map.1 (hbc.left.mem_toList.1 ha)
    obtain ⟨f, hf, hef, _⟩ :=
      Multiset.exists_mem_of_rel_of_mem hbc.entries (Multiset.mem_coe.2 he)
    refine ⟨f.1, hbc.right.mem_toList.2 (List.mem_map.2 ⟨f, Multiset.mem_coe.1 hf, rfl⟩), hef⟩

variable {s t : State}

theorem State.Corresponds.reaches (h : s.Corresponds R t) (ha : s.Reaches a) :
    ∃ b, R a b ∧ t.Reaches b := by
  induction ha with
  | root hroot =>
    rcases State.mem_roots.1 hroot with ⟨x, hx, f, hf, hloc⟩ | ⟨r, hr, hfield⟩
    · obtain ⟨y, hy, hxy⟩ := forall₂_exists h.threads hx
      obtain ⟨g, hg, hfg⟩ := forall₂_exists hxy.frames hf
      obtain ⟨b, hb, hab⟩ := values_exists hfg.locals hloc
      exact ⟨b, hab, .of_local hy hg hb⟩
    · obtain ⟨q, hq, hrq⟩ := forall₂_exists h.statics hr
      obtain ⟨b, hb, hab⟩ := values_exists hrq.fields hfield
      exact ⟨b, hab, .of_static hq hb⟩
  | next _ ho hk ih =>
    obtain ⟨b, hab, hb⟩ := ih
    obtain ⟨o', q, ho', hq, hoq⟩ := h.objects _ b hab
    cases ho.symm.trans ho'
    obtain ⟨c, hc, hkc⟩ := outgoing_exists hoq.payload hk
    exact ⟨c, hkc, .next hb hq hc⟩

theorem State.Corresponds.reaches_right (h : s.Corresponds R t) {b : Handle} (hab : R a b)
    (ha : s.Reaches a) : t.Reaches b := by
  obtain ⟨c, hac, hc⟩ := h.reaches ha
  rwa [h.oneToOne.2 hab hac]

end Corresponding

section Restriction

variable {R S : Pairing}

theorem values_imp (h : List.Forall₂ (Value.Matches R) v w)
    (hRS : ∀ a b, .ref a ∈ v → R a b → S a b) : List.Forall₂ (Value.Matches S) v w := by
  refine forall₂_keep h fun x hx y _ hxy => ?_
  cases hxy with
  | int v => exact .int v
  | null => exact .null
  | ref hab => exact .ref (hRS _ _ hx hab)

theorem refs_imp {e f : List (Option Handle)} (h : List.Forall₂ (Option.Rel R) e f)
    (hRS : ∀ a b, some a ∈ e → R a b → S a b) : List.Forall₂ (Option.Rel S) e f := by
  refine forall₂_keep h fun x hx y _ hxy => ?_
  cases hxy with
  | none => exact .none
  | some hab => exact .some (hRS _ _ hx hab)

theorem Payload.Matches.imp (h : o.Matches R q) (hRS : ∀ a b, a ∈ o.outgoing → R a b → S a b) :
    o.Matches S q := by
  cases h with
  | fields hvw => exact .fields (values_imp hvw fun a b ha => hRS a b (State.mem_handles.2 ha))
  | ints elements => exact .ints elements
  | refs hef =>
    exact .refs (refs_imp hef fun a b ha => hRS a b (List.mem_filterMap.2 ⟨some a, ha, rfl⟩))
  | set hmn => exact .set (Multiset.Rel.mono hmn fun a ha b _ => hRS a b (Multiset.mem_coe.1 ha))
  | bag hbc =>
    refine .bag ⟨hbc.left, hbc.right, hbc.entries.mono fun e he f _ hef => ⟨?_, hef.2⟩⟩
    exact hRS _ _ (hbc.left.mem_toList.2 (List.mem_map_of_mem (Multiset.mem_coe.1 he))) hef.1

variable {s t : State}

def State.cut (s : State) (R : Pairing) : Pairing := fun a b => s.Reaches a ∧ R a b

theorem cut_oneToOne (hR : Relator.BiUnique R) : Relator.BiUnique (s.cut R) :=
  ⟨fun _ _ _ hac hbc => hR.1 hac.2 hbc.2, fun _ _ _ hab hac => hR.2 hab.2 hac.2⟩

theorem State.SameMemory.cut (h : s.SameMemory R t) : s.SameMemory (s.cut R) t where
  oneToOne := cut_oneToOne h.oneToOne
  statics := by
    refine forall₂_keep h.statics fun r hr q _ hrq => ⟨hrq.owner, hrq.initialized, ?_, hrq.monitor⟩
    exact values_imp hrq.fields fun a b ha hab => ⟨.of_static hr ha, hab⟩
  objects := by
    rintro a b ⟨ha, hab⟩
    obtain ⟨o, q, ho, hq, hoq⟩ := h.objects a b hab
    refine ⟨o, q, ho, hq, hoq.owner, hoq.monitor, hoq.payload.imp fun c d hc hcd => ?_⟩
    exact ⟨.next ha ho hc, hcd⟩

theorem frames_cut {thread : Thread} (hthread : thread ∈ s.threads) {frames : List StackFrame}
    (h : List.Forall₂ (StackFrame.Matches R) thread.frames frames) :
    List.Forall₂ (StackFrame.Matches (s.cut R)) thread.frames frames := by
  refine forall₂_keep h fun f hf g _ hfg => ⟨hfg.method, hfg.pc, ?_⟩
  exact values_imp hfg.locals fun a b ha hab => ⟨.of_local hthread hf ha, hab⟩

end Restriction

end Interleave
