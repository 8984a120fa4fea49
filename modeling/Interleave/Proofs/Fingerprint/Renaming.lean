import Mathlib.Data.List.Pairwise
import Interleave.Proofs.Fingerprint.Exact
import Interleave.Proofs.Fingerprint.Ties

set_option autoImplicit false

namespace Interleave

def Payload.seen (masks : Masks) (owner : ClassId) : Payload → Payload
  | .fields values => .fields (masks.visible owner values)
  | payload => payload

/-- Plain fields or integers, where no reference is seen but `null`. -/
def Object.IsFlat (masks : Masks) (o : Object) : Prop :=
  match o.payload with
  | .fields values => ∀ v ∈ masks.visible o.owner values, v.handle? = none
  | .ints _ => True
  | .refs _ | .set _ | .bag _ => False

/-- Objects that differ in class, monitor or in what is seen of their content. -/
def Object.Differs (masks : Masks) (o q : Object) : Prop :=
  o.owner ≠ q.owner ∨ o.monitor ≠ q.monitor ∨
    o.payload.seen masks o.owner ≠ q.payload.seen masks q.owner

def Value.flatWords : Value → List Nat
  | .int v => [intWord v]
  | .null => [0, 0]
  | .ref _ => []

def Object.flatWords (masks : Masks) (o : Object) : List Nat :=
  o.owner :: o.monitor.words ++ match o.payload with
    | .fields values => (masks.visible o.owner values).flatMap Value.flatWords
    | .ints elements => elements.length :: elements.map intWord
    | .refs _ | .set _ | .bag _ => []

variable {masks : Masks} {o q : Object} {m collection a : Handle}

theorem Object.IsFlat.shown (h : o.IsFlat masks) : o.payload.shown masks o.owner = [] := by
  obtain ⟨owner, monitor, payload⟩ := o
  cases payload with
  | fields => exact List.filterMap_eq_nil_iff.2 h
  | ints => rfl
  | refs | set | bag => exact h.elim

theorem Object.IsFlat.listing (h : o.IsFlat masks) : o.payload.listing = [] := by
  refine List.eq_nil_iff_forall_not_mem.2 fun m hm => ?_
  have hshown : m ∈ o.payload.shown masks o.owner := Payload.shown_of_listing hm
  rw [h.shown] at hshown
  cases hshown

theorem Object.Differs.symm (h : o.Differs masks q) : q.Differs masks o :=
  h.imp Ne.symm (Or.imp Ne.symm Ne.symm)

theorem Object.not_differs_self (masks : Masks) (o : Object) : ¬ o.Differs masks o := by
  simp [Object.Differs]

theorem flatWords_injective {v w : List Value}
    (h : List.Forall₂ (fun a b : Value => ∃ type, a.fits type = true ∧ b.fits type = true) v w)
    (hv : ∀ a ∈ v, a.handle? = none) (hw : ∀ b ∈ w, b.handle? = none)
    (hwords : v.flatMap Value.flatWords = w.flatMap Value.flatWords) : v = w := by
  induction h with
  | nil => rfl
  | @cons a b v w hab _ ih =>
    obtain ⟨type, ha, hb⟩ := hab
    rw [List.forall_mem_cons] at hv hw
    rw [List.flatMap_cons, List.flatMap_cons] at hwords
    have hhead : a = b ∧ v.flatMap Value.flatWords = w.flatMap Value.flatWords := by
      cases a with
      | int x =>
        cases type with
        | int =>
          cases b with
          | int y =>
            obtain ⟨hword, hrest⟩ := List.cons.inj hwords
            exact ⟨congrArg Value.int (intWord_injective hword), hrest⟩
          | null | ref => cases hb
        | ref => cases ha
      | null =>
        cases type with
        | int => cases ha
        | ref =>
          cases b with
          | int => cases hb
          | null => exact ⟨rfl, (List.cons.inj (List.cons.inj hwords).2).2⟩
          | ref => cases hw.1
      | ref => cases hv.1
    rw [hhead.1, ih hv.2 hw.2 hhead.2]

theorem Object.flatWords_differ {p : Program} (ho : o.Typed p) (hq : q.Typed p)
    (hoflat : o.IsFlat masks) (hqflat : q.IsFlat masks) (h : o.flatWords masks = q.flatWords masks) :
    ¬ o.Differs masks q := by
  obtain ⟨owner, monitor, payload⟩ := o
  obtain ⟨owner', monitor', payload'⟩ := q
  obtain ⟨decl, hdecl, htyped⟩ := ho
  obtain ⟨decl', hdecl', htyped'⟩ := hq
  obtain ⟨rfl, hrest⟩ := List.cons.inj h
  obtain ⟨rfl, hcontent⟩ := Monitor.words_injective hrest
  cases hdecl.symm.trans hdecl'
  suffices hseen : payload.seen masks owner = payload'.seen masks owner by
    rintro (hne | hne | hne)
    · exact hne rfl
    · exact hne rfl
    · exact hne hseen
  -- Objects of one class have content of one kind.
  cases htyped with
  | @fields values hkind hfits =>
    cases htyped' with
    | @fields values' _ hfits' =>
      have hshapes : List.Forall₂ (fun a b : Value => ∃ type, a.fits type = true ∧ b.fits type = true)
          values values' :=
        (forall₂_comp hfits hfits'.flip).imp fun a b ⟨f, ha, hb⟩ => ⟨f.type, ha, hb⟩
      exact congrArg Payload.fields (flatWords_injective
        (Masks.visible_forall₂ fun slot _ => forall₂_getElem? hshapes slot) hoflat hqflat hcontent)
    | ints hkind' => cases hkind.symm.trans hkind'
    | refs | set | bag => exact hqflat.elim
  | ints hkind elements =>
    cases htyped' with
    | fields hkind' => cases hkind.symm.trans hkind'
    | ints _ elements' =>
      have hwords := (List.cons.inj hcontent).2
      exact congrArg Payload.ints (List.map_injective_iff.2 intWord_injective hwords)
    | refs | set | bag => exact hqflat.elim
  | refs | set | bag => exact hoflat.elim

namespace KeyContext

variable {o : Object}

theorem each_flat (c : KeyContext) {values : List Value} (h : ∀ v ∈ values, v.handle? = none)
    (found : List Handle) :
    (each c.value values).run found = (values.flatMap Value.flatWords, found) := by
  have hmap : (values.mapM c.value).run found = (values.map Value.flatWords, found) := by
    induction values with
    | nil => rfl
    | cons v values ih =>
      rw [List.forall_mem_cons] at h
      have hv : (c.value v).run found = (v.flatWords, found) := by
        cases v with
        | int | null => rfl
        | ref => cases h.1
      rw [List.mapM_cons, StateT.run_bind, hv]
      change (values.mapM c.value >>= fun rest => pure (v.flatWords :: rest)).run found = _
      rw [StateT.run_bind, ih h.2]
      rfl
  unfold each
  change (((values.mapM c.value).run found).1.flatten, ((values.mapM c.value).run found).2) = _
  rw [hmap]
  rfl

theorem object_flat (c : KeyContext) (h : o.IsFlat c.masks)
    (order : List Handle → List Handle → List Handle) (found : List Handle) :
    (c.object order o).run found = (o.flatWords c.masks, found) := by
  obtain ⟨owner, monitor, payload⟩ := o
  cases payload with
  | fields values =>
    change (owner :: monitor.words ++ ((each c.value (c.masks.visible owner values)).run found).1,
      ((each c.value (c.masks.visible owner values)).run found).2) = _
    rw [each_flat c h]
    rfl
  | ints elements => rfl
  | refs | set | bag => exact h.elim

theorem memberKey_flat (c : KeyContext) (collection : Handle) (ho : c.heap.get? m = some o)
    (hn : m ∉ c.numbered) (h : o.IsFlat c.masks) :
    c.memberKey [] collection m = [1, 1] ++ o.flatWords c.masks := by
  have hlength : ([] : List Handle).length < c.heap.cells.length :=
    Nat.zero_lt_of_lt (Heap.lt_of_get? ho)
  have hfirst : (c.reference m).run [] = ([1, 1], [m]) := by
    have hlive : c.heap.isLive m = true := Heap.isLive_iff.2 ⟨o, ho⟩
    have hnone : Interleave.number? c.numbered m = none := by simpa [Interleave.number?] using hn
    unfold reference
    rw [hnone]
    change StateT.run (if c.heap.isLive m then do set [m]; pure [1, 1] else pure [3, 0] : KeyWalk) [] = _
    rw [if_pos hlive]
    rfl
  have hrest : (c.expand (c.arranged [collection]) c.heap.cells.length 0).run [m] =
      (o.flatWords c.masks, [m]) := by
    obtain ⟨n, hlength⟩ := Nat.exists_eq_add_one.2 hlength
    have hnext := expand_next c (c.arranged [collection]) n (show [m][0]? = some m from rfl) ho
    rw [bind_run (congrArg Except.ok (object_flat c h _ [m])),
      bind_run (expand_end c _ n (show [m][1]? = none from rfl)), List.append_nil] at hnext
    rw [hlength]
    exact Except.ok.inj hnext
  unfold memberKey
  rw [if_neg List.not_mem_nil]
  refine (key_succ c hlength m).trans ?_
  change ((c.reference m).run []).1 ++ ((c.expand (c.arranged [collection]) c.heap.cells.length 0).run
    ((c.reference m).run []).2).1 = _
  rw [hfirst, hrest]

theorem Orders.flat {c : KeyContext}
    (h : ∀ o, c.heap.get? collection = some o →
      ∀ m ∈ o.payload.listing, ∃ q, c.heap.get? m = some q ∧ q.IsFlat c.masks)
    {opened found : List Handle} (horders : c.Orders collection opened found a) :
    (opened = [] ∧ found = [] ∧ a = collection) ∨ ∃ q, c.heap.get? a = some q ∧ q.IsFlat c.masks := by
  induction horders with
  | outer => exact .inl ⟨rfl, rfl, rfl⟩
  | @inner opened found next a b m o done horders hnew ho hm _ _ hmeets hb ih =>
    obtain ⟨q, hq, hflat⟩ : ∃ q, c.heap.get? m = some q ∧ q.IsFlat c.masks := by
      rcases ih with ⟨_, _, rfl⟩ | ⟨q, hq, hflat⟩
      · exact h o ho m hm
      · cases ho.symm.trans hq
        rw [hflat.listing] at hm
        cases hm
    have hnext : ∀ x ∈ next, x = m := by
      refine hmeets.mem (K := (· = m)) ?_ rfl
      rintro x p rfl hp y hy
      cases hq.symm.trans hp
      rw [hflat.shown] at hy
      cases hy
    obtain rfl := hnext b (List.mem_of_getElem? hb)
    exact .inr ⟨q, hq, hflat⟩

end KeyContext

/-- A renaming of the handles of one state gives the other one. What is not spanned may be
anything. -/
structure State.RenamesTo (s : State) (ρ : Handle → Handle) (t : State) : Prop where
  injective : Set.InjOn ρ {a | s.Spans a}
  objects : ∀ a, s.Spans a → Option.Rel (Object.Matches (ρ · = ·)) (s.heap.get? a) (t.heap.get? (ρ a))
  statics : List.Forall₂ (StaticRecord.Matches (ρ · = ·)) s.statics t.statics
  threads : List.Forall₂ (Thread.Matches (ρ · = ·)) s.threads t.threads

def Heap.Differ (heap : Heap) (masks : Masks) (a b : Handle) : Prop :=
  ∀ o q, heap.get? a = some o → heap.get? b = some q → o.Differs masks q

instance (heap : Heap) (masks : Masks) : Std.Symm (heap.Differ masks) where
  symm _ _ h o q ho hq := (h q o hq ho).symm

/-- The members of each collection are typed, show no reference, and differ from each other. -/
def State.TellsApart (s : State) (p : Program) (masks : Masks) : Prop :=
  ∀ a o, s.Spans a → s.heap.get? a = some o →
    (∀ m ∈ o.payload.listing, ∃ q, s.heap.get? m = some q ∧ q.Typed p ∧ q.IsFlat masks) ∧
    o.payload.listing.Pairwise (s.heap.Differ masks)

section States

variable {s t : State} {ρ : Handle → Handle} {p : Program} {masks : Masks}

theorem State.RenamesTo.mirrors (h : s.RenamesTo ρ t) :
    s.Mirrors (Pairing.within (ρ · = ·) s.Spans) t := by
  refine State.mirrors_within_spans ⟨?_, ?_⟩ ?_ h.statics h.threads
  · exact fun a b c hac hbc => h.injective hac.1 hbc.1 (hac.2.trans hbc.2.symm)
  · exact fun a b c hab hac => hab.2.symm.trans hac.2
  · rintro a _ ha rfl
    exact h.objects a ha

theorem State.TellsApart.unambiguous {R : Pairing} (hs : s.TellsApart p masks) (h : s.Mirrors R t)
    (policy : SerializerPolicy) : s.Unambiguous policy masks := by
  intro done numbered collection hmeets hcollection opened found a o horders ho
  have hspans : s.Spans collection :=
    (hmeets.mem h collection (List.mem_of_getElem? hcollection)).2
  have hmembers : ∀ q, s.heap.get? collection = some q → ∀ m ∈ q.payload.listing,
      ∃ q, s.heap.get? m = some q ∧ q.IsFlat masks := by
    intro q hq m hm
    obtain ⟨k, hk, _, hflat⟩ := (hs collection q hspans hq).1 m hm
    exact ⟨k, hk, hflat⟩
  rcases horders.flat hmembers with ⟨rfl, rfl, rfl⟩ | ⟨q, hq, hflat⟩
  · obtain ⟨hflat, hpairs⟩ := hs a o hspans ho
    refine ⟨hpairs.imp_of_mem fun {m m'} hm _ hdiffer heq => ?_, fun m hm m' hm' hne hrank => ?_⟩
    · subst heq
      obtain ⟨k, hk, _⟩ := hflat m hm
      exact Object.not_differs_self masks k (hdiffer k k hk hk)
    · obtain ⟨⟨hn, _⟩, ⟨hn', _⟩, hkey⟩ := KeyContext.tie_of_rank_eq hne hrank
      obtain ⟨k, hk, hktyped, hkflat⟩ := hflat m hm
      obtain ⟨k', hk', hktyped', hkflat'⟩ := hflat m' hm'
      have hdiffer := hpairs.forall hm hm' hne k k' hk hk'
      rw [KeyContext.memberKey_flat _ a hk hn hkflat,
        KeyContext.memberKey_flat _ a hk' hn' hkflat'] at hkey
      exact absurd hdiffer (Object.flatWords_differ hktyped hktyped' hkflat hkflat'
        (List.append_cancel_left hkey))
  · cases ho.symm.trans hq
    rw [hflat.listing]
    exact ⟨List.nodup_nil, nofun⟩

theorem fingerprint_renaming_invariant (h : s.RenamesTo ρ t) (hs : s.TellsApart p masks)
    (policy : SerializerPolicy) : s.fingerprint policy masks = t.fingerprint policy masks :=
  fingerprint_mirrors (fun _ hS => hS) h.mirrors ((hs.unambiguous h.mirrors policy).orderedAlike t)

end States

def gathered : State where
  threads := []
  statics := [⟨0, true, [.ref 0], .free⟩]
  heap := ⟨[some ⟨setClass, .free, .set ⟨.canonical, [1, 2, 3], by decide⟩⟩,
    some ⟨intArrayClass, .free, .ints [1]⟩, some ⟨intArrayClass, .free, .ints [2]⟩,
    some ⟨5, .free, .fields [.null]⟩]⟩

def scattered : State where
  threads := []
  statics := [⟨0, true, [.ref 4], .free⟩]
  heap := ⟨[some ⟨5, .free, .fields [.ref 4]⟩, some ⟨5, .free, .fields [.null]⟩,
    some ⟨intArrayClass, .free, .ints [2]⟩, some ⟨intArrayClass, .free, .ints [1]⟩,
    some ⟨setClass, .free, .set ⟨.canonical, [1, 2, 3], by decide⟩⟩]⟩

theorem gathered_spans (h : gathered.Spans a) : a < 4 := by
  induction h with
  | root hh => revert hh; decide +revert
  | awaited hthread => cases hthread
  | @next h k o _ ho hk ih =>
    match h, ho with
    | 0, rfl | 1, rfl | 2, rfl | 3, rfl => revert hk; decide +revert

theorem gathered_renamesTo : gathered.RenamesTo (4 - ·) scattered where
  injective a ha b hb hab := by
    have hreverse : ∀ m n : Nat, m < 4 → n < 4 → 4 - m = 4 - n → m = n := by omega
    exact hreverse a b (gathered_spans ha) (gathered_spans hb) hab
  objects a ha := by
    match a, gathered_spans ha with
    | 0, _ =>
      have hmembers : Multiset.Rel (fun a b : Handle => 4 - a = b) (1 ::ₘ 2 ::ₘ 3 ::ₘ 0)
          (3 ::ₘ 2 ::ₘ 1 ::ₘ 0) := .cons rfl (.cons rfl (.cons rfl .zero))
      have hreversed : (3 ::ₘ 2 ::ₘ 1 ::ₘ 0 : Multiset Handle) = ([1, 2, 3] : List Handle) :=
        Multiset.coe_eq_coe.2 (by decide)
      rw [hreversed] at hmembers
      exact .some ⟨rfl, rfl, .set hmembers⟩
    | 1, _ | 2, _ => exact .some ⟨rfl, rfl, .ints _⟩
    | 3, _ => exact .some ⟨rfl, rfl, .fields (.cons .null .nil)⟩
  statics := .cons ⟨rfl, rfl, .cons (.ref rfl) .nil, rfl⟩ .nil
  threads := .nil

theorem gathered_tellsApart (masks : Masks) : gathered.TellsApart twins masks := by
  intro a o ha ho
  match a, gathered_spans ha with
  | 0, _ =>
    cases ho
    refine ⟨fun m hm => ?_, ?_⟩
    · have hints : ∀ elements, (⟨intArrayClass, .free, .ints elements⟩ : Object).Typed twins :=
        fun elements => ⟨_, rfl, .ints rfl elements⟩
      rcases List.mem_cons.1 hm with rfl | hm
      · exact ⟨_, rfl, hints [1], trivial⟩
      rcases List.mem_cons.1 hm with rfl | hm
      · exact ⟨_, rfl, hints [2], trivial⟩
      obtain rfl := List.mem_singleton.1 hm
      refine ⟨_, rfl, ⟨_, rfl, .fields rfl (.cons rfl .nil)⟩, fun v hv => ?_⟩
      obtain ⟨_, _, hslot⟩ := Masks.mem_visible.1 hv
      rw [List.mem_singleton.1 (List.mem_of_getElem? hslot)]
      rfl
    · have hdiffer : ∀ {m m' : Handle} {o q : Object}, gathered.heap.get? m = some o →
          gathered.heap.get? m' = some q → o.Differs masks q → gathered.heap.Differ masks m m' := by
        intro m m' o q ho hq hoq o' q' ho' hq'
        rwa [Option.some.inj (ho'.symm.trans ho), Option.some.inj (hq'.symm.trans hq)]
      have harrays : Payload.ints [1] ≠ Payload.ints [2] :=
        fun h => absurd (Payload.ints.inj h) (by decide)
      refine List.pairwise_cons.2 ⟨List.forall_mem_cons.2 ⟨?_, List.forall_mem_singleton.2 ?_⟩,
        List.pairwise_pair.2 ?_⟩
      · exact hdiffer rfl rfl (.inr (.inr harrays))
      · exact hdiffer rfl rfl (.inl (by decide))
      · exact hdiffer rfl rfl (.inl (by decide))
  | 1, _ | 2, _ | 3, _ =>
    cases ho
    exact ⟨nofun, .nil⟩

def openMasks : Masks := ⟨List.replicate 6 ⟨⟨[], [true]⟩, ⟨[], [true]⟩⟩, []⟩

theorem gathered_renaming_invariant : gathered.RenamesTo (4 - ·) scattered ∧
    gathered.TellsApart twins openMasks ∧
    gathered.fingerprint ⟨.full, true⟩ openMasks = scattered.fingerprint ⟨.full, true⟩ openMasks :=
  ⟨gathered_renamesTo, gathered_tellsApart openMasks,
    fingerprint_renaming_invariant gathered_renamesTo (gathered_tellsApart openMasks) ⟨.full, true⟩⟩

end Interleave
