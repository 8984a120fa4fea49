import Interleave.Proofs.Explore.Genuine
import Interleave.Proofs.Fingerprint.Invariance

set_option autoImplicit false

namespace Interleave

variable {masks : Masks} {owner : ClassId} {o : Payload} {a : Handle} {rank : Handle → List Nat}
  {members found : List Handle} {K : Handle → Prop} {heap : Heap}

def Payload.shown (masks : Masks) (owner : ClassId) : Payload → List Handle
  | .fields values => (masks.visible owner values).filterMap Value.handle?
  | .ints _ => []
  | .refs elements => elements.filterMap id
  | .set members => members.members
  | .bag members => members.distinct

theorem Payload.shown_of_listing (h : a ∈ o.listing) : a ∈ o.shown masks owner := by
  cases o with
  | fields | ints | refs => cases h
  | set | bag => exact h

theorem Object.shown_of_mention {mask : ClassMask} {o : Object} {order : List Handle → List Handle}
    (hmask : masks.ofClass o.owner = .ok mask) (horder : ∀ members, (order members).Perm members)
    (ha : .mention a ∈ o.items mask order) : a ∈ o.payload.shown masks o.owner := by
  rw [Object.items, List.mem_append, or_iff_right not_mention_words,
    Payload.mention_items horder] at ha
  obtain ⟨owner, monitor, payload⟩ := o
  cases payload with
  | fields values =>
    obtain ⟨slot, hslot, _⟩ := ha
    refine State.mem_handles.2 ?_
    rw [Masks.visible, Masks.ofClass_eq_ok.1 hmask]
    exact List.mem_map.2 ⟨_, hslot, rfl⟩
  | ints elements => exact ha.elim
  | refs elements => exact List.mem_filterMap.2 ⟨_, ha, rfl⟩
  | set members => exact ha
  | bag members => exact ha

inductive Thread.Shows (masks : Masks) (x : Thread) : Handle → Prop where
  | ofLocal {frames : List StackFrame} {f : StackFrame} {h : Handle}
      (hframes : Walk.unfiltered masks x.frames.reverse = .ok frames) (hf : f ∈ frames)
      (hh : .ref h ∈ f.locals) : Shows masks x h
  | awaited {h : Handle} (hh : x.status = .blocked (.object h)) : Shows masks x h

def StaticRecord.Shows (masks : Masks) (r : StaticRecord) (h : Handle) : Prop :=
  ∃ mask slot, masks.ofClass r.owner = .ok mask ∧ (slot, .ref h) ∈ mask.statics.emitted r.fields

theorem Walk.mem_of_unfiltered {frames kept : List StackFrame} {f : StackFrame}
    (h : unfiltered masks frames = .ok kept) (hf : f ∈ kept) :
    f ∈ frames ∧ masks.isFilteredMethod f.method = .ok false := by
  rw [unfiltered_eq_filter h, List.mem_filter, Masks.keeps_iff] at hf
  exact hf

theorem Heap.Met.cons (h : heap.Met K found) (ha : K a) (hlive : heap.isLive a = true)
    (hnew : a ∉ found) : heap.Met K (a :: found) where
  nodup := List.nodup_cons.2 ⟨hnew, h.nodup⟩
  within := List.forall_mem_cons.2 ⟨ha, h.within⟩
  live := List.forall_mem_cons.2 ⟨hlive, h.live⟩

theorem Value.matches_self {v : Value} (h : ∀ a, v = .ref a → K a) :
    v.Matches (Pairing.within Eq K) v := by
  cases v with
  | int v => exact .int v
  | null => exact .null
  | ref a => exact .ref ⟨h a rfl, rfl⟩

theorem Value.rel_self {x : Option Value} (h : ∀ a, x = some (.ref a) → K a) :
    Option.Rel (Value.Matches (Pairing.within Eq K)) x x := by
  cases x with
  | none => exact .none
  | some v => exact .some (Value.matches_self fun a ha => h a (ha ▸ rfl))

theorem Payload.looksAlike_self (h : ∀ a ∈ o.shown masks owner, K a) :
    o.LooksAlike masks owner (Pairing.within Eq K) o := by
  cases o with
  | fields values =>
    refine .fields fun slot hemits => Value.rel_self fun a ha => h a (State.mem_handles.2 ?_)
    exact Masks.mem_visible.2 ⟨slot, hemits, ha⟩
  | ints elements => exact .ints elements
  | refs elements =>
    refine .refs (List.forall₂_same.2 fun e he => ?_)
    cases e with
    | none => exact .none
    | some a => exact .some ⟨h a (List.mem_filterMap.2 ⟨_, he, rfl⟩), rfl⟩
  | set members => exact .set (Multiset.rel_refl_of_refl_on fun a ha => ⟨h a ha, rfl⟩)
  | bag members =>
    refine .bag (Multiset.rel_refl_of_refl_on fun a ha => ⟨h a ha, rfl⟩) ?_ rfl
    rintro x _ ⟨_, rfl⟩
    rfl

theorem Pairing.biUnique_within (K : Handle → Prop) : Relator.BiUnique (Pairing.within Eq K) :=
  ⟨fun _ _ _ hac hbc => hac.2.trans hbc.2.symm, fun _ _ _ hab hac => hab.2.symm.trans hac.2⟩

theorem Heap.looksAlike_self (hclosed : ∀ a o, K a → heap.get? a = some o →
    ∀ b ∈ o.payload.shown masks o.owner, K b) :
    heap.LooksAlike masks (Pairing.within Eq K) heap := by
  refine ⟨Pairing.biUnique_within K, ?_⟩
  rintro a _ ⟨ha, rfl⟩
  cases ho : heap.get? a with
  | none => exact .none
  | some o => exact .some ⟨rfl, rfl, Payload.looksAlike_self (hclosed a o ha ho)⟩

theorem metAlike_self (h : heap.Met K found) :
    MetAlike (heap.live (Pairing.within Eq K)) found found :=
  ⟨List.forall₂_same.2 fun a ha => ⟨h.live a ha, h.within a ha, rfl⟩, h.nodup⟩

theorem MetAlike.met {found' : List Handle}
    (h : MetAlike (heap.live (Pairing.within Eq K)) found found') : heap.Met K found := by
  refine ⟨h.nodup, fun a ha => ?_, fun a ha => ?_⟩
  · obtain ⟨_, _, _, ha, _⟩ := forall₂_exists h.pairs ha
    exact ha
  · obtain ⟨_, _, hlive, _⟩ := forall₂_exists h.pairs ha
    exact hlive

namespace Walk

section Keys

variable {α β : Type} {F : Pairing → Prop} {R : Pairing} {x y : StateM (List Handle) α}
  {found found' : List Handle}

def ofKey (x : StateM (List Handle) α) : Walk α := fun found => .ok (x.run found)

theorem ofKey_bind (x : StateM (List Handle) α) (f : α → StateM (List Handle) β) :
    ofKey (x >>= f) = ofKey x >>= fun a => ofKey (f a) := rfl

theorem ofKey_get (f : List Handle → StateM (List Handle) β) (found : List Handle) :
    ofKey (get >>= f) found = ofKey (f found) found := rfl

theorem ofKey_each (words : α → KeyWalk) (items : List α) :
    ofKey (KeyContext.each words items) = Walk.each (fun a => ofKey (words a)) items := by
  have hmap : ofKey (items.mapM words) = items.mapM fun a => ofKey (words a) := by
    induction items with
    | nil => rfl
    | cons a items ih =>
      rw [List.mapM_cons, List.mapM_cons, ← ih]
      rfl
  unfold Walk.each
  rw [← hmap]
  rfl

theorem Alike.key_each {f : α → KeyWalk} {g : β → KeyWalk} {q : α → β → Prop} {items : List α}
    {items' : List β} (hitems : List.Forall₂ q items items')
    (h : ∀ a b, q a b → Alike F (ofKey (f a)) (ofKey (g b))) :
    Alike F (ofKey (KeyContext.each f items)) (ofKey (KeyContext.each g items')) := by
  rw [ofKey_each, ofKey_each]
  exact Alike.each hitems h

theorem Alike.key_map (h : Alike F (ofKey x) (ofKey y)) (k : α → β) :
    Alike F (ofKey (x >>= fun a => Pure.pure (k a))) (ofKey (y >>= fun a => Pure.pure (k a))) :=
  h.bind fun a => Alike.pure (k a)

theorem Agrees.key_eq (h : Agrees F (ofKey x found) (ofKey y found')) :
    (x.run found).1 = (y.run found').1 := by
  unfold ofKey at h
  generalize x.run found = r at h
  generalize y.run found' = r' at h
  cases h
  rfl

theorem Agrees.key_met (h : Agrees (· = R) (ofKey x found) (ofKey y found')) :
    MetAlike R (x.run found).2 (y.run found').2 := by
  unfold ofKey at h
  generalize x.run found = r at h
  generalize y.run found' = r' at h
  cases h with
  | ok hR h => exact hR ▸ h

end Keys

end Walk

theorem mem_sortByRank {m : Handle} : m ∈ sortByRank rank members ↔ m ∈ members :=
  (sortByRank_perm rank members).mem_iff

theorem sortByRank_congr {rank' : Handle → List Nat} (h : ∀ m ∈ members, rank m = rank' m) :
    sortByRank rank members = sortByRank rank' members := by
  have hranked : (members.map fun m => (rank m, m)) = members.map fun m => (rank' m, m) :=
    List.map_congr_left fun m hm => by rw [h m hm]
  rw [sortByRank, sortByRank, hranked]

namespace KeyContext

open Walk (ofKey)

def memberKey (c : KeyContext) (opened : List Handle) (collection member : Handle) : List Nat :=
  if collection ∈ opened then shallowKey c.heap c.masks member
  else c.key (c.heap.cells.length + 1 - opened.length) (collection :: opened) member

def memberRank (c : KeyContext) (opened : List Handle) (collection : Handle) (found : List Handle) :
    Handle → List Nat :=
  c.rank found (c.memberKey opened collection)

def arranged (c : KeyContext) (opened : List Handle) (collection : Handle)
    (found members : List Handle) : List Handle :=
  sortByRank (c.memberRank opened collection found) members

variable {R : Pairing} {c c' : KeyContext} {done : Nat} {found found' : List Handle} {a b : Handle}

theorem key_succ (c : KeyContext) {opened : List Handle} {a : Handle}
    (hlength : opened.length < c.heap.cells.length) (root : Handle) :
    c.key (c.heap.cells.length + 1 - opened.length) (a :: opened) root =
      ((do
        let first ← c.reference root
        return first ++ (← c.expand (c.arranged (a :: opened)) c.heap.cells.length 0) : KeyWalk).run
        []).1 := by
  obtain ⟨depth, hdepth⟩ : ∃ depth, c.heap.cells.length + 1 - opened.length = depth + 1 :=
    ⟨c.heap.cells.length - opened.length, by omega⟩
  have hinner : c.heap.cells.length + 1 - (a :: opened).length = depth := by
    rw [List.length_cons]
    omega
  rw [hdepth, key, ← hinner]
  rfl

theorem expand_end (c : KeyContext) (order : Handle → List Handle → List Handle → List Handle)
    (fuel : Nat) (h : found[done]? = none) :
    ofKey (c.expand order fuel done) found = .ok ([], found) := by
  cases fuel with
  | zero => rfl
  | succ fuel =>
    rw [expand, Walk.ofKey_get]
    simp only [h]
    rfl

theorem expand_next (c : KeyContext) (order : Handle → List Handle → List Handle → List Handle)
    (fuel : Nat) {k : Handle} {o : Object} (hk : found[done]? = some k)
    (ho : c.heap.get? k = some o) :
    ofKey (c.expand order (fuel + 1) done) found = (ofKey (c.object (order k) o) >>= fun words =>
      ofKey (c.expand order fuel (done + 1)) >>= fun rest => pure (words ++ rest)) found := by
  rw [expand, Walk.ofKey_get]
  simp only [hk, ho]
  rfl

structure LooksAlike (c : KeyContext) (R : Pairing) (c' : KeyContext) : Prop where
  heap : c.heap.LooksAlike c.masks R c'.heap
  masks : c.masks = c'.masks
  numbered : ∀ a b, R a b → Interleave.number? c.numbered a = Interleave.number? c'.numbered b

section Parts

variable (h : c.LooksAlike R c')

include h

theorem shallowKey_eq (hab : R a b) :
    shallowKey c.heap c.masks a = shallowKey c'.heap c'.masks b := by
  obtain ⟨ho, hq⟩ | ⟨o, q, ho, hq, howner, _, hpayload⟩ := optionRel_cases (h.heap.objects a b hab)
  · rw [shallowKey, shallowKey, ho, hq]
  rw [shallowKey, shallowKey, ho, hq, ← h.masks]
  obtain ⟨owner, monitor, payload⟩ := o
  obtain ⟨owner', monitor', payload'⟩ := q
  obtain rfl : owner = owner' := howner
  dsimp only
  congr 1
  cases hpayload with
  | fields hslots =>
    refine map_eq_of_forall₂ (Masks.visible_forall₂ hslots) fun v w hvw => ?_
    cases hvw <;> rfl
  | ints elements => rfl
  | refs helements =>
    dsimp only
    rw [helements.length_eq]
    refine congrArg _ (map_eq_of_forall₂ helements fun e f hef => ?_)
    cases hef <;> rfl
  | set hmembers => exact congrArg (fun n => [n]) hmembers.size
  | bag _ _ hsize => exact congrArg (fun n => [n]) hsize

theorem reference_alike (hab : R a b) :
    Walk.Alike (· = c.heap.live R) (ofKey (c.reference a)) (ofKey (c'.reference b)) := by
  unfold reference
  rw [← h.numbered a b hab, ← h.heap.isLive hab]
  cases Interleave.number? c.numbered a with
  | some n => exact Walk.Alike.pure _
  | none =>
    rintro _ found found' rfl hmet
    rw [Walk.ofKey_get, Walk.ofKey_get,
      ← Walk.number?_eq h.heap.oneToOne (hmet.pairs.imp fun _ _ hcd => hcd.2) hab]
    cases hfound : Interleave.number? found a with
    | some n => exact Walk.Alike.pure _ _ _ _ rfl hmet
    | none =>
      dsimp only
      split
      · next hlive =>
        have hnew := hmet.append ⟨hlive, hab⟩ (number?_eq_none.1 hfound)
        rw [hmet.pairs.length_eq]
        exact .ok rfl hnew
      · exact Walk.Alike.pure _ _ _ _ rfl hmet

theorem value_alike {v w : Value} (hvw : v.Matches R w) :
    Walk.Alike (· = c.heap.live R) (ofKey (c.value v)) (ofKey (c'.value w)) := by
  cases hvw with
  | int v => exact Walk.Alike.pure _
  | null => exact Walk.Alike.pure _
  | ref hab => exact reference_alike h hab

theorem object_alike {o q : Object} (hoq : o.LooksAlike c.masks R q)
    (order order' : List Handle → List Handle → List Handle)
    (hmet : MetAlike (c.heap.live R) found found')
    (hsorted : List.Forall₂ R (order found o.payload.listing) (order' found' q.payload.listing)) :
    Walk.Agrees (· = c.heap.live R) (ofKey (c.object order o) found)
      (ofKey (c'.object order' q) found') := by
  obtain ⟨owner, monitor, payload⟩ := o
  obtain ⟨owner', monitor', payload'⟩ := q
  obtain rfl : owner = owner' := hoq.owner
  obtain rfl : monitor = monitor' := hoq.monitor
  cases hoq.payload with
  | fields hslots =>
    dsimp only [object]
    rw [← h.masks]
    refine Walk.Alike.key_map (Walk.Alike.key_each (Masks.visible_forall₂ hslots) fun v w hvw => ?_)
      _ _ _ _ rfl hmet
    exact value_alike h hvw
  | ints elements => exact Walk.Alike.pure _ _ _ _ rfl hmet
  | refs helements =>
    dsimp only [object]
    rw [helements.length_eq]
    refine Walk.Alike.key_map (Walk.Alike.key_each helements fun e f hef => ?_) _ _ _ _ rfl hmet
    cases hef with
    | none => exact Walk.Alike.pure _
    | some hab => exact reference_alike h hab
  | set hmembers =>
    dsimp only [object, Payload.listing] at hsorted ⊢
    rw [Walk.ofKey_get, Walk.ofKey_get, hsorted.length_eq]
    refine Walk.Alike.key_map (Walk.Alike.key_each hsorted fun a b hab => ?_) _ _ _ _ rfl hmet
    exact reference_alike h hab
  | bag _ hcount =>
    dsimp only [object, Payload.listing] at hsorted ⊢
    rw [Walk.ofKey_get, Walk.ofKey_get, hsorted.length_eq]
    refine Walk.Alike.key_map (Walk.Alike.key_each hsorted fun a b hab => ?_) _ _ _ _ rfl hmet
    rw [hcount a b hab]
    exact (reference_alike h hab).key_map _

end Parts

section Closed

variable {K : Handle → Prop}

theorem looksAlike_self (hclosed : ∀ a o, K a → c.heap.get? a = some o →
    ∀ b ∈ o.payload.shown c.masks o.owner, K b) : c.LooksAlike (Pairing.within Eq K) c := by
  refine ⟨Heap.looksAlike_self hclosed, rfl, ?_⟩
  rintro a _ ⟨_, rfl⟩
  rfl

variable (hclosed : ∀ a o, K a → c.heap.get? a = some o →
  ∀ b ∈ o.payload.shown c.masks o.owner, K b)

include hclosed

theorem reference_met (hfound : c.heap.Met K found) (ha : K a) :
    c.heap.Met K ((c.reference a).run found).2 :=
  (reference_alike (looksAlike_self hclosed) ⟨ha, rfl⟩ _ _ _ rfl (metAlike_self hfound)).key_met.met

theorem object_met (opened : List Handle) (collection : Handle) {o : Object} (ha : K a)
    (ho : c.heap.get? a = some o) (hfound : c.heap.Met K found) :
    c.heap.Met K ((c.object (c.arranged opened collection) o).run found).2 := by
  have hshown := hclosed a o ha ho
  have hsame : List.Forall₂ (Pairing.within Eq K)
      (c.arranged opened collection found o.payload.listing)
      (c.arranged opened collection found o.payload.listing) := List.forall₂_same.2 fun m hm =>
    ⟨hshown m (Payload.shown_of_listing (mem_sortByRank.1 hm)), rfl⟩
  exact (object_alike (looksAlike_self hclosed) ⟨rfl, rfl, Payload.looksAlike_self hshown⟩ _ _
    (metAlike_self hfound) hsame).key_met.met

end Closed

/-- How far the walk inside a key has come when it gets to an object: the position of the object
and what was met so far. -/
inductive Meets (c : KeyContext) (opened : List Handle) (root : Handle) :
    Nat → List Handle → Prop where
  | root : Meets c opened root 0 ((c.reference root).run []).2
  | object {done : Nat} {a : Handle} {o : Object} {found : List Handle}
      (h : Meets c opened root done found) (ha : found[done]? = some a) (ho : c.heap.get? a = some o) :
      Meets c opened root (done + 1) ((c.object (c.arranged opened a) o).run found).2

/-- The collections whose members are put into order so that those of one can be: itself, and those
that are met inside the keys of members. Each comes with the collections that are opened and with
what is numbered locally. -/
inductive Orders (c : KeyContext) (collection : Handle) :
    List Handle → List Handle → Handle → Prop where
  | outer : Orders c collection [] [] collection
  | inner {opened found next : List Handle} {a b m : Handle} {o : Object} {done : Nat}
      (h : Orders c collection opened found a) (hnew : a ∉ opened) (ho : c.heap.get? a = some o)
      (hm : m ∈ o.payload.listing) (hnumbered : m ∉ c.numbered) (hfound : m ∉ found)
      (hmeets : c.Meets (a :: opened) m done next) (hb : next[done]? = some b) :
      Orders c collection (a :: opened) next b

section Keys

variable {F : Pairing → Prop} {opened opened' : List Handle} {m m' collection : Handle} {o q : Object}

theorem expand_alike (h : ∀ R, F R → c.LooksAlike R c') {root : Handle}
    (horder : ∀ R a b o q, F R → R a b → c.heap.get? a = some o → c'.heap.get? b = some q →
      ∀ done found found', c.Meets opened root done found → found[done]? = some a →
        MetAlike (c.heap.live R) found found' →
        ∃ S, F S ∧ S a b ∧ MetAlike (c.heap.live S) found found' ∧
          List.Forall₂ S (c.arranged opened a found o.payload.listing)
            (c'.arranged opened' b found' q.payload.listing))
    (hR : F R) {fuel fuel' : Nat} (hmeets : c.Meets opened root done found)
    (hmet : MetAlike (c.heap.live R) found found') (hfuel : c.heap.cells.length ≤ done + fuel)
    (hfuel' : c'.heap.cells.length ≤ done + fuel') :
    Walk.Agrees (Cut (c.heap.isLive · = true) F)
      (ofKey (c.expand (c.arranged opened) fuel done) found)
      (ofKey (c'.expand (c'.arranged opened') fuel' done) found') := by
  induction fuel generalizing R fuel' done found found' with
  | zero =>
    have hbound := hmet.length_le (h R hR).heap
    have hend' : found'[done]? = none :=
      List.getElem?_eq_none (by have := hmet.pairs.length_eq; omega)
    rw [expand_end _ _ fuel' hend']
    exact .ok ⟨R, hR, rfl⟩ hmet
  | succ fuel ih =>
    obtain ⟨hnone, hnone'⟩ | ⟨a, b, ha, hb, hlive, hab⟩ :=
      optionRel_cases (forall₂_getElem? hmet.pairs done)
    · rw [expand_end _ _ _ hnone, expand_end _ _ _ hnone']
      exact .ok ⟨R, hR, rfl⟩ hmet
    · obtain ⟨o, ho⟩ := Heap.isLive_iff.1 hlive
      obtain ⟨q, hq, _⟩ := (h R hR).heap.exists_object hab ho
      have hlt : done < found'.length := (List.getElem?_eq_some_iff.1 hb).1
      obtain ⟨fuel', rfl⟩ : ∃ n, fuel' = n + 1 :=
        Nat.exists_eq_add_one.2 (by have := hmet.length_le (h R hR).heap; omega)
      rw [expand_next _ _ _ ha ho, expand_next _ _ _ hb hq]
      obtain ⟨S, hS, hSab, hmetS, hsorted⟩ :=
        horder R a b o q hR hab ho hq done found found' hmeets ha hmet
      have hoq := (h S hS).heap.object hSab ho hq
      refine Walk.Agrees.bind (Walk.Agrees.cut
        (object_alike (h S hS) hoq _ _ hmetS hsorted) hS) ?_
      rintro words _ next next' hwords ⟨S, hS, rfl⟩ hmet
      obtain rfl : _ = next := congrArg Prod.snd (Except.ok.inj hwords)
      have hrest := ih hS (.object hmeets ha ho) hmet (by omega)
        (show c'.heap.cells.length ≤ done + 1 + fuel' by omega)
      exact hrest.bind fun rest T _ _ _ hT hmet => Walk.Alike.pure (words ++ rest) T _ _ hT hmet

structure Aligned (R : Pairing) (c c' : KeyContext) (opened opened' found found' : List Handle) :
    Prop where
  numbered : List.Forall₂ R c.numbered c'.numbered
  opened : List.Forall₂ R opened opened'
  found : MetAlike (c.heap.live R) found found'

theorem forall₂_mem_iff (hR : Relator.BiUnique R) {l l' : List Handle} (h : List.Forall₂ R l l')
    (hab : R a b) : a ∈ l ↔ b ∈ l' := by
  refine ⟨fun ha => ?_, fun hb => ?_⟩
  · obtain ⟨c, hc, hac⟩ := forall₂_exists h ha
    exact hR.2 hab hac ▸ hc
  · obtain ⟨c, hc, hcb⟩ := forall₂_exists h.flip hb
    exact hR.1 hab hcb ▸ hc

theorem Aligned.keep {S : Pairing} (h : Aligned R c c' opened opened' found found')
    (hkept : ∀ a, a ∈ c.numbered ∨ a ∈ opened ∨ a ∈ found → ∀ b, R a b → S a b) :
    Aligned S c c' opened opened' found found' where
  numbered := forall₂_keep h.numbered fun a ha b _ => hkept a (.inl ha) b
  opened := forall₂_keep h.opened fun a ha b _ => hkept a (.inr (.inl ha)) b
  found := h.found.imp fun a b ha hab => ⟨hab.1, hkept a (.inr (.inr ha)) b hab.2⟩

theorem Aligned.looksAlike (haligned : Aligned R c c' opened opened' found found')
    (h : c.heap.LooksAlike c.masks R c'.heap) (hmasks : c.masks = c'.masks) : c.LooksAlike R c' :=
  ⟨h, hmasks, fun _ _ hab => Walk.number?_eq h.oneToOne haligned.numbered hab⟩

theorem memberRank_eq (hR : Relator.BiUnique R) (h : Aligned R c c' opened opened' found found')
    (hm : R m m')
    (hkey : m ∉ c.numbered → m ∉ found → c.memberKey opened a m = c'.memberKey opened' b m') :
    c.memberRank opened a found m = c'.memberRank opened' b found' m' := by
  unfold memberRank rank
  rw [← Walk.number?_eq hR h.numbered hm,
    ← Walk.number?_eq hR (h.found.pairs.imp fun _ _ hab => hab.2) hm]
  cases hn : Interleave.number? c.numbered m with
  | some n => rfl
  | none =>
    cases hl : Interleave.number? found m with
    | some n => rfl
    | none => exact congrArg _ (hkey (number?_eq_none.1 hn) (number?_eq_none.1 hl))

/-- Members whose ranks agree can be put into the same order; with another one of the pairings,
perhaps, but not for what has a number or is opened. -/
def Sorts (F : Pairing → Prop) (c c' : KeyContext) (collection : Handle) : Prop :=
  ∀ R a b o q opened opened' found found', F R → R a b → c.heap.get? a = some o →
    c'.heap.get? b = some q → c.Orders collection opened found a →
    (∀ m ∈ o.payload.listing, ∀ m', R m m' →
      c.memberRank opened a found m = c'.memberRank opened' b found' m') →
    ∃ S, F S ∧ (∀ x, x ∈ c.numbered ∨ x ∈ opened ∨ x ∈ found → ∀ y, R x y → S x y) ∧
      List.Forall₂ S (c.arranged opened a found o.payload.listing)
        (c'.arranged opened' b found' q.payload.listing)

variable (h : ∀ R, F R → c.heap.LooksAlike c.masks R c'.heap) (hmasks : c.masks = c'.masks)
  (hsorts : Sorts F c c' collection)

include h hmasks hsorts

theorem memberKey_eq (horders : c.Orders collection opened found a) (ho : c.heap.get? a = some o)
    (hm : m ∈ o.payload.listing) (hn : m ∉ c.numbered) (hl : m ∉ found) (hR : F R) (hab : R a b)
    (hmm' : R m m') (haligned : Aligned R c c' opened opened' found found') (hnodup : opened.Nodup)
    (hlive : ∀ x ∈ opened, c.heap.isLive x = true) :
    c.memberKey opened a m = c'.memberKey opened' b m' := by
  -- Each collection is opened at most once on the way down, so fewer and fewer are left.
  induction hleft : c.heap.cells.length - opened.length using Nat.strong_induction_on
    generalizing opened opened' found found' a b m m' o R with
  | _ left ih =>
  have hc := haligned.looksAlike (h R hR) hmasks
  have hmem : a ∈ opened ↔ b ∈ opened' := forall₂_mem_iff (h R hR).oneToOne haligned.opened hab
  by_cases ha : a ∈ opened
  · unfold memberKey
    rw [if_pos ha, if_pos (hmem.1 ha)]
    exact shallowKey_eq hc hmm'
  have hopened : MetAlike (c.heap.live R) (a :: opened) (b :: opened') := by
    refine ⟨.cons ⟨Heap.isLive_iff.2 ⟨o, ho⟩, hab⟩ ?_, List.nodup_cons.2 ⟨ha, hnodup⟩⟩
    exact forall₂_keep haligned.opened fun x hx y _ hxy => ⟨hlive x hx, hxy⟩
  obtain ⟨hlength, hlength'⟩ := hopened.length_le (h R hR)
  rw [List.length_cons] at hlength hlength'
  unfold memberKey
  rw [if_neg ha, if_neg (mt hmem.2 ha), key_succ c hlength, key_succ c' hlength']
  -- Inside the key, what is opened must keep its partners as well.
  let G (S : Pairing) : Prop := F S ∧ Aligned S c c' (a :: opened) (b :: opened') [] []
  have hG : G R := ⟨hR, haligned.numbered, .cons hab haligned.opened, .nil, List.nodup_nil⟩
  refine Walk.Agrees.key_eq (F := Cut (c.heap.isLive · = true) G) ?_
  rw [Walk.ofKey_bind, Walk.ofKey_bind]
  refine Walk.Agrees.bind (Walk.Agrees.cut
    (reference_alike hc hmm' _ [] [] rfl ⟨.nil, List.nodup_nil⟩) hG) ?_
  rintro first _ next next' hrun ⟨S, hS, rfl⟩ hmet
  obtain rfl : _ = next := congrArg Prod.snd (Except.ok.inj hrun)
  rw [Walk.ofKey_bind, Walk.ofKey_bind]
  refine Walk.Agrees.bind (expand_alike (fun S hS => hS.2.looksAlike (h S hS.1) hmasks) ?_ hS .root
    hmet (Nat.le_add_left _ _) (Nat.le_add_left _ _))
    fun rest T _ _ _ hT hmet => Walk.Alike.pure (first ++ rest) T _ _ hT hmet
  rintro S d e p q ⟨hS, hpaired⟩ hde hp hq done inside inside' hmeets hd hmet
  have hinner : c.Orders collection (a :: opened) inside d :=
    .inner horders ha ho hm hn hl hmeets hd
  have haligned : Aligned S c c' (a :: opened) (b :: opened') inside inside' :=
    { hpaired with found := hmet }
  obtain ⟨T, hT, hkept, hsorted⟩ := hsorts S d e p q _ (b :: opened') _ inside' hS hde hp hq hinner
    fun k hk k' hkk' => memberRank_eq (h S hS).oneToOne haligned hkk' fun hkn hkl => by
      refine ih _ ?_ hinner hp hk hkn hkl hS hde hkk' haligned hopened.nodup ?_ rfl
      · rw [List.length_cons]
        omega
      · intro x hx
        obtain ⟨y, _, hxlive, _⟩ := forall₂_exists hopened.pairs hx
        exact hxlive
  have hkept' := haligned.keep hkept
  exact ⟨T, ⟨hT, { hkept' with found := ⟨.nil, List.nodup_nil⟩ }⟩,
    hkept d (.inr (.inr (List.mem_of_getElem? hd))) e hde, hkept'.found, hsorted⟩

end Keys

end KeyContext

section States

variable {F : Pairing → Prop} {s t : State} {policy : SerializerPolicy}

theorem orderedAlike_of_sorts (h : ∀ R, F R → s.heap.LooksAlike masks R t.heap)
    (hsorts : ∀ done found found' a, s.Meets policy masks done found → found[done]? = some a →
      KeyContext.Sorts F ⟨s.heap, masks, found⟩ ⟨t.heap, masks, found'⟩ a) :
    OrderedAlike policy masks F s t := by
  intro R a b o q hR hab ho hq done found found' hmeets ha hmet
  have haligned : KeyContext.Aligned R ⟨s.heap, masks, found⟩ ⟨t.heap, masks, found'⟩ [] [] [] [] :=
    ⟨hmet.pairs.imp fun _ _ hab => hab.2, .nil, .nil, List.nodup_nil⟩
  have hsort := hsorts done found found' a hmeets ha
  obtain ⟨S, hS, hkept, hsorted⟩ := hsort R a b o q [] [] [] [] hR hab ho hq .outer
    fun m hm m' hmm' => KeyContext.memberRank_eq (h R hR).oneToOne haligned hmm' fun hn hl =>
      KeyContext.memberKey_eq h rfl hsort .outer ho hm hn hl hR hab hmm' haligned List.nodup_nil nofun
  refine ⟨S, hS, hkept a (.inl (List.mem_of_getElem? ha)) b hab, ?_, hsorted⟩
  exact hmet.imp fun x y hx hxy => ⟨hxy.1, hkept x (.inl hx) y hxy.2⟩

theorem orderedAlike_of_same {R : Pairing} (h : s.heap.LooksAlike masks R t.heap)
    (hid : ∀ a b, R a b → a = b)
    (hlisting : ∀ a o q, R a a → s.heap.get? a = some o → t.heap.get? a = some q →
      o.payload.listing = q.payload.listing) : OrderedAlike policy masks (· = R) s t := by
  refine orderedAlike_of_sorts (fun S hS => hS ▸ h) fun _ found found' collection _ _ => ?_
  rintro R a b o q opened opened' inside inside' rfl hab ho hq _ hranks
  obtain rfl := hid a b hab
  have hself : ∀ m ∈ o.payload.listing, R m m := by
    intro m hm
    obtain ⟨m', _, hmm'⟩ := Multiset.exists_mem_of_rel_of_mem (h.object hab ho hq).payload.listing
      (Multiset.mem_coe.2 hm)
    exact hid m m' hmm' ▸ hmm'
  refine ⟨R, rfl, fun _ _ _ hxy => hxy, ?_⟩
  rw [← hlisting a o q hab ho hq, KeyContext.arranged, KeyContext.arranged,
    ← sortByRank_congr fun m hm => hranks m hm m (hself m hm)]
  exact List.forall₂_same.2 fun m hm => hself m (mem_sortByRank.1 hm)

theorem State.LooksAlike.fingerprint_eq {R : Pairing} (h : s.LooksAlike masks R t)
    (hid : ∀ a b, R a b → a = b)
    (hlisting : ∀ a o q, R a a → s.heap.get? a = some o → t.heap.get? a = some q →
      o.payload.listing = q.payload.listing) (policy : SerializerPolicy) :
    s.fingerprint policy masks = t.fingerprint policy masks :=
  fingerprint_eq_of_agrees (Walk.stateWords_alike (F := (· = R)) (fun _ hS => hS ▸ h)
    (orderedAlike_of_same h.heap hid hlisting) rfl)

end States

/-- Collecting garbage does not show, however collections are ordered: what is left is as it was and
has its handle, and a walk gets to nothing else. -/
theorem State.Residue.fingerprint_eq {r s : State} (h : r.Residue s) (policy : SerializerPolicy)
    (masks : Masks) : r.fingerprint policy masks = s.fingerprint policy masks := by
  obtain ⟨R, hcorr, hsame⟩ := h.pairing
  refine (hcorr.mirrors.looksAlike masks).fingerprint_eq (fun a b hab => (hsame a b hab).1) ?_ policy
  intro a o q ha ho hq
  rw [← (hsame a a ha).2, ho] at hq
  rw [Option.some.inj hq]

end Interleave
