import Interleave.Proofs.Fingerprint.Seen

set_option autoImplicit false

/-! The order in which a collection lists its members shows in a fingerprint only through ties:
members with equal keys are left in that order. Where members that tie can be exchanged, it does not
show at all. -/

namespace Interleave

variable {s : State} {a b : List Nat} {R : Pairing} {F : Pairing → Prop} {found : List Handle}
  {policy : SerializerPolicy} {masks : Masks}

theorem wordsLe_cons {m n : Nat} :
    wordsLe (m :: a) (n :: b) = true ↔ m < n ∨ m = n ∧ wordsLe a b = true := by
  simp [wordsLe]

theorem wordsLe_total (a b : List Nat) : wordsLe a b = true ∨ wordsLe b a = true := by
  induction a generalizing b with
  | nil => exact .inl rfl
  | cons m a ih =>
    cases b with
    | nil => exact .inr rfl
    | cons n b =>
      rw [wordsLe_cons, wordsLe_cons]
      rcases Nat.lt_trichotomy m n with hlt | rfl | hlt
      · exact .inl (.inl hlt)
      · exact (ih b).imp (fun h => .inr ⟨rfl, h⟩) fun h => .inr ⟨rfl, h⟩
      · exact .inr (.inl hlt)

theorem wordsLe_trans {c : List Nat} (hab : wordsLe a b = true) (hbc : wordsLe b c = true) :
    wordsLe a c = true := by
  induction a generalizing b c with
  | nil => rfl
  | cons k a ih =>
    match b, c with
    | [], _ => cases hab
    | _ :: _, [] => cases hbc
    | m :: b, n :: c =>
      rw [wordsLe_cons] at hab hbc ⊢
      rcases hab with hab | ⟨rfl, hab⟩
      · exact .inl (by omega)
      · exact hbc.imp_right fun ⟨heq, hbc⟩ => ⟨heq, ih hab hbc⟩

theorem wordsLe_antisymm (hab : wordsLe a b = true) (hba : wordsLe b a = true) : a = b := by
  induction a generalizing b with
  | nil =>
    cases b with
    | nil => rfl
    | cons n b => cases hba
  | cons m a ih =>
    cases b with
    | nil => cases hab
    | cons n b =>
      rw [wordsLe_cons] at hab hba
      rcases hab with hlt | ⟨rfl, hab⟩
      · omega
      · rw [ih hab (hba.resolve_left (Nat.lt_irrefl m)).2]

theorem insertByRank_sorted (entry : List Nat × Handle) {entries : List (List Nat × Handle)}
    (h : entries.Pairwise fun x y => wordsLe x.1 y.1 = true) :
    (insertByRank entry entries).Pairwise fun x y => wordsLe x.1 y.1 = true := by
  induction h with
  | nil => exact List.pairwise_singleton _ _
  | @cons first rest hfirst hrest ih =>
    unfold insertByRank
    split
    · next hle =>
      refine .cons (fun x hx => ?_) (.cons hfirst hrest)
      rcases List.mem_cons.1 hx with rfl | hx
      · exact hle
      · exact wordsLe_trans hle (hfirst x hx)
    · next hnle =>
      refine .cons (fun x hx => ?_) ih
      rcases List.mem_cons.1 ((insertByRank_perm entry rest).mem_iff.1 hx) with rfl | hx
      · exact (wordsLe_total _ _).resolve_left hnle
      · exact hfirst x hx

theorem sortByRank_sorted (rank : Handle → List Nat) (members : List Handle) :
    ((sortByRank rank members).map rank).Pairwise (wordsLe · · = true) := by
  have hsorted : ∀ entries : List (List Nat × Handle),
      (entries.foldr insertByRank []).Pairwise fun x y => wordsLe x.1 y.1 = true := by
    intro entries
    induction entries with
    | nil => exact .nil
    | cons entry _ ih => exact insertByRank_sorted entry ih
  have hranks : (sortByRank rank members).map rank =
      ((members.map fun m => (rank m, m)).foldr insertByRank []).map (·.1) := by
    rw [sortByRank, List.map_map]
    refine List.map_congr_left fun x hx => ?_
    obtain ⟨m, _, rfl⟩ := List.mem_map.1 ((foldr_insertByRank_perm _).mem_iff.1 hx)
    rfl
  rw [hranks]
  exact (hsorted _).map _ fun _ _ h => h

theorem sortByRank_ranks {rank rank' : Handle → List Nat} {l l' : List Handle}
    (h : (l : Multiset Handle).Rel R l') (hrank : ∀ a ∈ l, ∀ b, R a b → rank a = rank' b) :
    (sortByRank rank l).map rank = (sortByRank rank' l').map rank' := by
  have hranks : (l.map rank).Perm (l'.map rank') := by
    refine Multiset.coe_eq_coe.1 (Multiset.rel_eq.1 ?_)
    rw [← Multiset.map_coe, ← Multiset.map_coe, Multiset.rel_map]
    exact h.mono fun a ha b _ hab => hrank a ha b hab
  refine List.Perm.eq_of_pairwise (fun _ _ _ _ => wordsLe_antisymm) (sortByRank_sorted rank l)
    (sortByRank_sorted rank' l') ?_
  exact (((sortByRank_perm rank l).map rank).trans hranks).trans
    ((sortByRank_perm rank' l').map rank').symm

/-- Whatever pairing of a family is given, there is one in which two handles have exchanged their
partners and others have kept theirs. -/
def Exchanges (F : Pairing → Prop) (keep : Handle → Prop) (m m' : Handle) : Prop :=
  ∀ R, F R → ∃ S, F S ∧ (∀ b, R m' b → S m b) ∧ (∀ b, R m b → S m' b) ∧
    ∀ x, keep x → ∀ b, R x b → S x b

section Exchanges

variable {F : Pairing → Prop} {keep keep' : Handle → Prop} {m m' : Handle}
  {rank rank' : Handle → List Nat} {l l' : List Handle} {R : Pairing}

theorem Exchanges.mono (h : Exchanges F keep m m') (hkeep : ∀ x, keep' x → keep x) :
    Exchanges F keep' m m' := by
  intro R hR
  obtain ⟨S, hS, hleft, hright, hkept⟩ := h R hR
  exact ⟨S, hS, hleft, hright, fun x hx => hkept x (hkeep x hx)⟩

variable (hF : ∀ R, F R → Relator.BiUnique R)

include hF

/-- The first member can be given the partner of its position: it has it, or it exchanges partners with
the member that has it, since the two tie. -/
theorem exists_first_pairing {a b : Handle} (hR : F R) (hab : rank a = rank' b)
    (h : Multiset.Rel R (a ::ₘ (l : Multiset Handle)) (b ::ₘ (l' : Multiset Handle))) (ha : a ∉ l)
    (hnodup : l.Nodup) (hrank : ∀ x ∈ a :: l, ∀ y, R x y → rank x = rank' y)
    (hties : ∀ m ∈ a :: l, ∀ m' ∈ a :: l, m ≠ m' → rank m = rank m' →
      Exchanges F (fun x => keep x ∨ x ∈ a :: l ∧ x ≠ m ∧ x ≠ m') m m') :
    ∃ S, F S ∧ S a b ∧ (l : Multiset Handle).Rel S l' ∧
      (∀ x ∈ l, ∀ y, S x y → rank x = rank' y) ∧ ∀ x, keep x → ∀ y, R x y → S x y := by
  obtain ⟨x, rest, hxb, hrel, hsplit⟩ := Multiset.rel_cons_right.1 h
  rcases Multiset.cons_eq_cons.1 hsplit with ⟨rfl, rfl⟩ | ⟨hne, cs, hl, rfl⟩
  · exact ⟨R, hR, hxb, hrel, fun c hc => hrank c (List.mem_cons_of_mem a hc), fun _ _ _ hxy => hxy⟩
  have hx : x ∈ l := Multiset.mem_coe.1 (hl ▸ Multiset.mem_cons_self x cs)
  have htie : rank a = rank x := hab.trans (hrank x (List.mem_cons_of_mem a hx) b hxb).symm
  obtain ⟨S, hS, hSa, hSx, hkept⟩ :=
    hties a List.mem_cons_self x (List.mem_cons_of_mem a hx) hne htie R hR
  obtain ⟨c, l'', hac, hcs, hl'⟩ := Multiset.rel_cons_left.1 hrel
  have hother : ∀ y ∈ l, y ≠ x → ∀ d, R y d → S y d := by
    intro y hy hyx d hyd
    have hya : y ≠ a := fun heq => ha (heq ▸ hy)
    exact hkept y (.inr ⟨List.mem_cons_of_mem a hy, hya, hyx⟩) d hyd
  refine ⟨S, hS, hSa b hxb, ?_, ?_, fun y hy d hyd => hkept y (.inl hy) d hyd⟩
  · rw [hl, hl']
    refine .cons (hSx c hac) (hcs.mono fun y hy d _ hyd => ?_)
    have hfresh : (x ::ₘ cs).Nodup := hl ▸ Multiset.coe_nodup.2 hnodup
    refine hother y (Multiset.mem_coe.1 (hl ▸ Multiset.mem_cons_of_mem hy)) ?_ d hyd
    exact ne_of_mem_of_not_mem hy (Multiset.nodup_cons.1 hfresh).1
  · -- a member has kept its partner, or it has taken over that of the first one
    intro y hy d hyd
    by_cases hyx : y = x
    · subst hyx
      rw [(hF S hS).2 hyd (hSx c hac), ← htie]
      exact hrank a List.mem_cons_self c hac
    · have hy' := List.mem_cons_of_mem a hy
      obtain ⟨e, _, hye⟩ := Multiset.exists_mem_of_rel_of_mem h (Multiset.mem_coe.2 hy')
      rw [(hF S hS).2 hyd (hother y hy hyx e hye)]
      exact hrank y hy' e hye

/-- Lists with the same ranks, position by position, of members that are paired in some order: where
members of one rank can be exchanged, the members can be paired position by position. -/
theorem exists_pairing (hR : F R) (hranks : List.Forall₂ (fun a b => rank a = rank' b) l l')
    (h : (l : Multiset Handle).Rel R l') (hnodup : l.Nodup)
    (hrank : ∀ a ∈ l, ∀ b, R a b → rank a = rank' b)
    (hties : ∀ m ∈ l, ∀ m' ∈ l, m ≠ m' → rank m = rank m' →
      Exchanges F (fun x => keep x ∨ x ∈ l ∧ x ≠ m ∧ x ≠ m') m m') :
    ∃ S, F S ∧ List.Forall₂ S l l' ∧ ∀ x, keep x → ∀ b, R x b → S x b := by
  induction hranks generalizing R keep with
  | nil => exact ⟨R, hR, .nil, fun _ _ _ hab => hab⟩
  | @cons a b l l' hab hrest ih =>
    obtain ⟨ha, hnodup⟩ := List.nodup_cons.1 hnodup
    obtain ⟨S, hS, hSab, hrel, hSrank, hkept⟩ :=
      exists_first_pairing hF hR hab h ha hnodup hrank hties
    -- while the others are exchanged, the first member keeps its partner
    have hrestTies : ∀ m ∈ l, ∀ m' ∈ l, m ≠ m' → rank m = rank m' →
        Exchanges F (fun x => (keep x ∨ x = a) ∨ x ∈ l ∧ x ≠ m ∧ x ≠ m') m m' := by
      intro m hm m' hm' hne hrank
      have htie := hties m (List.mem_cons_of_mem a hm) m' (List.mem_cons_of_mem a hm') hne hrank
      refine htie.mono ?_
      rintro x ((hx | rfl) | ⟨hx, hxm⟩)
      · exact .inl hx
      · exact .inr ⟨List.mem_cons_self, ne_of_mem_of_not_mem hm ha |>.symm,
          ne_of_mem_of_not_mem hm' ha |>.symm⟩
      · exact .inr ⟨List.mem_cons_of_mem a hx, hxm⟩
    obtain ⟨T, hT, hpairs, hkeptT⟩ := ih hS hrel hnodup hSrank hrestTies
    exact ⟨T, hT, .cons (hkeptT a (.inr rfl) b hSab) hpairs,
      fun x hx y hxy => hkeptT x (.inl hx) y (hkept x hx y hxy)⟩

theorem exists_sorted_pairing (hR : F R) (h : (l : Multiset Handle).Rel R l') (hnodup : l.Nodup)
    (hrank : ∀ a ∈ l, ∀ b, R a b → rank a = rank' b)
    (hties : ∀ m ∈ l, ∀ m' ∈ l, m ≠ m' → rank m = rank m' →
      Exchanges F (fun x => keep x ∨ x ∈ l ∧ x ≠ m ∧ x ≠ m') m m') :
    ∃ S, F S ∧ List.Forall₂ S (sortByRank rank l) (sortByRank rank' l') ∧
      ∀ x, keep x → ∀ b, R x b → S x b := by
  have hperm := sortByRank_perm rank l
  have hranks : List.Forall₂ (fun a b => rank a = rank' b) (sortByRank rank l)
      (sortByRank rank' l') := by
    have heq := List.forall₂_eq_eq_eq.symm ▸ sortByRank_ranks h hrank
    exact List.forall₂_map_right_iff.1 (List.forall₂_map_left_iff.1 heq)
  refine exists_pairing hF hR hranks ?_ (hperm.nodup_iff.2 hnodup) ?_ ?_
  · rw [Multiset.coe_eq_coe.2 hperm, Multiset.coe_eq_coe.2 (sortByRank_perm rank' l')]
    exact h
  · exact fun a ha => hrank a (hperm.mem_iff.1 ha)
  · intro m hm m' hm' hne htie
    refine (hties m (hperm.mem_iff.1 hm) m' (hperm.mem_iff.1 hm') hne htie).mono ?_
    exact fun x hx => hx.imp_right fun ⟨hxl, hxm⟩ => ⟨hperm.mem_iff.1 hxl, hxm⟩

end Exchanges

namespace KeyContext

variable {found : List Handle}

theorem number?_injective {a b : Handle} {n : Nat} (ha : Interleave.number? found a = some n)
    (hb : Interleave.number? found b = some n) : a = b := by
  have hat := (Walk.getElem?_of_number ha).2
  rw [(Walk.getElem?_of_number hb).2] at hat
  exact (Option.some.inj hat).symm

theorem tie_of_rank_eq {c : KeyContext} {key : Handle → List Nat} {m m' : Handle} (hne : m ≠ m')
    (h : c.rank found key m = c.rank found key m') :
    (m ∉ c.numbered ∧ m ∉ found) ∧ (m' ∉ c.numbered ∧ m' ∉ found) ∧ key m = key m' := by
  have hnumber : ∀ {l : List Handle} {n : Nat}, Interleave.number? l m = some n →
      Interleave.number? l m' ≠ some n := fun hn hn' => hne (number?_injective hn hn')
  unfold rank at h
  grind [number?_eq_none]

section Closed

variable {c : KeyContext} {K : Handle → Prop} {opened found : List Handle}

variable (hclosed : ∀ a o, K a → c.heap.get? a = some o → ∀ b ∈ o.payload.shown c.masks o.owner, K
  b)

include hclosed

theorem Meets.mem {root : Handle} (hroot : K root) {done : Nat}
    (h : c.Meets opened root done found) : ∀ a ∈ found, K a := by
  have hmet : c.heap.Met K found := by
    induction h with
    | root => exact reference_met hclosed .nil hroot
    | object _ ha ho ih =>
      exact object_met hclosed _ _
        (ih.within _ (List.mem_of_getElem? ha)) ho ih
  exact hmet.within

/-- Where references lead nowhere else, nothing else is opened or numbered; and what is opened has
members. -/
theorem Orders.mem {collection : Handle} (hcollection : K collection) {a : Handle}
    (h : c.Orders collection opened found a) :
    K a ∧ (∀ x ∈ found, K x) ∧
      ∀ x ∈ opened, K x ∧ ∃ o, c.heap.get? x = some o ∧ o.payload.listing ≠ [] := by
  induction h with
  | outer => exact ⟨hcollection, nofun, nofun⟩
  | @inner opened found next a b m o done h hnew ho hm hnumbered hfound hmeets hb ih =>
    obtain ⟨ha, _, hopened⟩ := ih
    have hnext := hmeets.mem hclosed (hclosed a o ha ho m (Payload.shown_of_listing hm))
    refine ⟨hnext b (List.mem_of_getElem? hb), hnext, fun x hx => ?_⟩
    rcases List.mem_cons.1 hx with rfl | hx
    · exact ⟨ha, o, ho, List.ne_nil_of_mem hm⟩
    · exact hopened x hx

end Closed

/-- Each collection that is put into order lists its members once, and members of one rank can be
exchanged while all that has a number, is opened or is another member stays as it is. -/
def Resolves (c : KeyContext) (exchange : (Handle → Prop) → Handle → Handle → Prop)
    (collection : Handle) : Prop :=
  ∀ opened found a o, c.Orders collection opened found a → c.heap.get? a = some o →
    o.payload.listing.Nodup ∧
    ∀ m ∈ o.payload.listing, ∀ m' ∈ o.payload.listing, m ≠ m' →
      c.memberRank opened a found m = c.memberRank opened a found m' →
      exchange (fun x => (x ∈ c.numbered ∨ x ∈ opened ∨ x ∈ found) ∨
        x ∈ o.payload.listing ∧ x ≠ m ∧ x ≠ m') m m'

theorem Resolves.sorts {c c' : KeyContext} {collection : Handle}
    (h : ∀ R, F R → c.heap.LooksAlike c.masks R c'.heap)
    (hresolves : c.Resolves (Exchanges F) collection) : Sorts F c c' collection := by
  intro R a b o q opened opened' found found' hR hab ho hq horders hranks
  obtain ⟨hnodup, hties⟩ := hresolves opened found a o horders ho
  have hlisting := ((h R hR).object hab ho hq).payload.listing
  obtain ⟨S, hS, hsorted, hkept⟩ := exists_sorted_pairing (fun S hS => (h S hS).oneToOne) hR hlisting
    hnodup hranks hties
  exact ⟨S, hS, hkept, hsorted⟩

end KeyContext

theorem State.Meets.mem {t : State} (h : s.Mirrors R t) {done : Nat}
    (hmeets : s.Meets policy masks done found) :
    ∀ a ∈ found, s.heap.isLive a = true ∧ s.Spans a := by
  -- The walk is in step with itself.
  obtain ⟨E, hE, hself⟩ := h.self
  have hlooks : ∀ S, S = E → s.LooksAlike masks S s := fun S hS => hS ▸ hE.looksAlike masks
  have horder : OrderedAlike policy masks (· = E) s s :=
    orderedAlike_of_same (hlooks E rfl).heap (fun a b hab => (hself a b hab).1) fun _ _ _ _ ho hq => by
      rw [Option.some.inj (ho.symm.trans hq)]
  have hthreads := Walk.allThreads_alike hlooks policy _ [] [] ⟨E, rfl, rfl⟩ ⟨.nil, List.nodup_nil⟩
  have hmet : MetAlike (s.heap.live E) found found := by
    induction hmeets with
    | full _ hfirst hsecond =>
      rw [hfirst] at hthreads
      have hstatics := Walk.allStatics_alike hlooks true _ _ _ ⟨E, rfl, rfl⟩ hthreads.met
      rw [hsecond] at hstatics
      exact hstatics.met
    | threads _ hfirst =>
      rw [hfirst] at hthreads
      exact hthreads.met
    | @object done words a o found found' hmeets ha ho hwords ih =>
      obtain ⟨b, hb, hlive, hab⟩ := forall₂_exists ih.pairs (List.mem_of_getElem? ha)
      obtain ⟨rfl, _⟩ := hself a b hab
      have hobject := Walk.objectWords_alike hlooks horder rfl hab ho ho hmeets ha ih
      rw [hwords] at hobject
      exact hobject.met
  intro a ha
  obtain ⟨b, _, hlive, hab⟩ := forall₂_exists hmet.pairs ha
  exact ⟨hlive, (hself a b hab).2⟩

/-- A state is the same with two objects exchanged, and with others where they were. -/
def State.Exchangeable (s : State) (fixed : Handle → Prop) (m m' : Handle) : Prop :=
  ∃ R, s.Mirrors R s ∧ R m m' ∧ R m' m ∧ ∀ x, fixed x → R x x

/-- Whenever members of a collection tie in the walk over a state, they are exchangeable. -/
def State.Unambiguous (s : State) (policy : SerializerPolicy) (masks : Masks) : Prop :=
  ∀ done numbered collection, s.Meets policy masks done numbered →
    numbered[done]? = some collection →
    KeyContext.Resolves ⟨s.heap, masks, numbered⟩ s.Exchangeable collection

theorem State.Exchangeable.exchanges {fixed : Handle → Prop} {m m' : Handle}
    (h : s.Exchangeable fixed m m') (t : State) : Exchanges (s.Mirrors · t) fixed m m' := by
  obtain ⟨S, hS, hm, hm', hfixed⟩ := h
  intro R hR
  exact ⟨Relation.Comp S R, hS.comp hR, fun b hb => ⟨m', hm, hb⟩, fun b hb => ⟨m, hm', hb⟩,
    fun x hx b hb => ⟨x, hfixed x hx, hb⟩⟩

theorem State.Unambiguous.orderedAlike (hs : s.Unambiguous policy masks) (t : State) :
    OrderedAlike policy masks (s.Mirrors · t) s t := by
  have hlooks : ∀ R, s.Mirrors R t → s.heap.LooksAlike masks R t.heap := fun _ hR =>
    (hR.looksAlike masks).heap
  refine orderedAlike_of_sorts hlooks fun done found found' a hmeets ha =>
    KeyContext.Resolves.sorts hlooks fun opened inside c p horders hp => ?_
  obtain ⟨hnodup, hties⟩ := hs done found a hmeets ha opened inside c p horders hp
  exact ⟨hnodup, fun m hm m' hm' hne hrank => (hties m hm m' hm' hne hrank).exchanges t⟩

/-- The order in which collections list their members does not show in a fingerprint, and neither do
handles and garbage, where members that tie are exchangeable. -/
theorem fingerprint_order_independent {R : Pairing} {s t : State} {policy : SerializerPolicy}
    {masks : Masks} (h : s.Mirrors R t) (hs : s.Unambiguous policy masks) :
    s.fingerprint policy masks = t.fingerprint policy masks :=
  fingerprint_mirrors (fun _ hS => hS) h (hs.orderedAlike t)

/-- A set of two nodes that lead to one box. -/
def pooled (listing : List Handle) (held : Handle) : State where
  threads := []
  statics := [⟨0, true, [.ref 0, .ref 3], .free⟩]
  heap := ⟨[some ⟨1, .free, .set ⟨.fast, listing, by simp⟩⟩, some ⟨2, .free, .fields [.ref 3]⟩,
    some ⟨2, .free, .fields [.ref 3]⟩, some ⟨2, .free, .fields [.ref held]⟩]⟩

def pooledMasks : Masks where
  classes := [⟨⟨[], []⟩, ⟨[], [true, true]⟩⟩, ⟨⟨[], []⟩, ⟨[], []⟩⟩, ⟨⟨[], [true]⟩, ⟨[], []⟩⟩]
  filteredMethods := []

theorem pooled_mirrors (held : Handle) : (pooled [1, 2] held).Mirrors Eq (pooled [2, 1] held) where
  heap := by
    refine ⟨⟨fun _ _ _ hac hbc => hac.trans hbc.symm, fun _ _ _ hab hac => hab.symm.trans hac⟩, ?_⟩
    rintro a _ rfl
    match a with
    | 0 => exact .some ⟨rfl, rfl, .set (Multiset.rel_eq.2 (Multiset.coe_eq_coe.2 (.swap 2 1 [])))⟩
    | 1 | 2 | 3 => exact .some ⟨rfl, rfl, .fields (values_refl _)⟩
    | _ + 4 => exact .none
  statics := .cons ⟨rfl, rfl, values_refl _, rfl⟩ .nil
  threads := .nil

theorem pooled_exchanged :
    (pooled [1, 2] 0).Mirrors (fun a b => Equiv.swap 1 2 a = b) (pooled [1, 2] 0) where
  heap := by
    refine ⟨⟨fun a b c hac hbc => ?_, fun a b c hab hac => hab.symm.trans hac⟩, ?_⟩
    · exact (Equiv.swap 1 2).injective (hac.trans hbc.symm)
    rintro a _ rfl
    match a with
    | 0 =>
      have hmembers : Multiset.Rel (fun a b => Equiv.swap 1 2 a = b) ((1 : Handle) ::ₘ 2 ::ₘ 0)
          (2 ::ₘ 1 ::ₘ 0) := .cons rfl (.cons rfl .zero)
      rw [Multiset.cons_swap 2 1 0] at hmembers
      exact .some ⟨rfl, rfl, .set hmembers⟩
    | 1 | 2 | 3 => exact .some ⟨rfl, rfl, .fields (.cons (.ref (by decide)) .nil)⟩
    | n + 4 =>
      rw [Equiv.swap_apply_of_ne_of_ne (by simp) (by simp)]
      exact .none
  statics := .cons ⟨rfl, rfl, .cons (.ref (by decide)) (.cons (.ref (by decide)) .nil), rfl⟩ .nil
  threads := .nil

theorem pooled_listing {a : Handle} {o : Object} (ho : (pooled [1, 2] 0).heap.get? a = some o)
    (h : o.payload.listing ≠ []) : a = 0 ∧ o.payload.listing = [1, 2] := by
  match a, ho with
  | 0, rfl => exact ⟨rfl, rfl⟩
  | 1, rfl | 2, rfl | 3, rfl => exact absurd rfl h

theorem pooled_unambiguous : (pooled [1, 2] 0).Unambiguous ⟨.full, true⟩ pooledMasks := by
  intro done numbered collection _ _ opened found a o horders ho
  by_cases hnone : o.payload.listing = []
  · rw [hnone]
    exact ⟨List.nodup_nil, nofun⟩
  obtain ⟨rfl, hlisting⟩ := pooled_listing ho hnone
  rw [hlisting]
  refine ⟨by decide, fun m hm m' hm' hne hrank => ?_⟩
  obtain ⟨⟨hmn, hmf⟩, ⟨hmn', hmf'⟩, _⟩ := KeyContext.tie_of_rank_eq hne hrank
  have hswap : Equiv.swap 1 2 = Equiv.swap m m' := by
    simp at hm hm'
    rcases hm with rfl | rfl <;> rcases hm' with rfl | rfl
    · exact absurd rfl hne
    · rfl
    · exact Equiv.swap_comm 1 2
    · exact absurd rfl hne
  refine ⟨_, hswap ▸ pooled_exchanged, Equiv.swap_apply_left m m', Equiv.swap_apply_right m m', ?_⟩
  intro x hx
  have hxm : x ≠ m ∧ x ≠ m' := by
    rcases hx with (hx | hx | hx) | ⟨_, hx⟩
    · exact ⟨ne_of_mem_of_not_mem hx hmn, ne_of_mem_of_not_mem hx hmn'⟩
    · obtain ⟨_, q, hq, hmembers⟩ := (horders.mem (K := fun _ => True) (by simp) trivial).2.2 x hx
      rw [(pooled_listing hq hmembers).1]
      exact ⟨fun h => absurd (h ▸ hm) (by decide), fun h => absurd (h ▸ hm') (by decide)⟩
    · exact ⟨ne_of_mem_of_not_mem hx hmf, ne_of_mem_of_not_mem hx hmf'⟩
    · exact hx
  exact Equiv.swap_apply_of_ne_of_ne hxm.1 hxm.2

theorem pooled_order_independent :
    (pooled [1, 2] 0).fingerprint ⟨.full, true⟩ pooledMasks =
      (pooled [2, 1] 0).fingerprint ⟨.full, true⟩ pooledMasks :=
  fingerprint_order_independent (pooled_mirrors 0) pooled_unambiguous

/-- When the box points to one of the nodes, they tie all the same. -/
theorem pooled_order_shows : (pooled [1, 2] 1).Mirrors Eq (pooled [2, 1] 1) ∧
    (pooled [1, 2] 1).fingerprint ⟨.full, true⟩ pooledMasks ≠
      (pooled [2, 1] 1).fingerprint ⟨.full, true⟩ pooledMasks := by
  refine ⟨pooled_mirrors 1, ?_⟩
  have hfirst : (pooled [1, 2] 1).fingerprint ⟨.full, true⟩ pooledMasks =
      .ok ⟨[0, 1, 0, 1, 0, 0, 1, 2, 1, 0, 0, 2, 3, 4, 2, 0, 0, 3, 2, 0, 0, 2, 2, 0, 0, 2]⟩ := rfl
  have hsecond : (pooled [2, 1] 1).fingerprint ⟨.full, true⟩ pooledMasks =
      .ok ⟨[0, 1, 0, 1, 0, 0, 1, 2, 1, 0, 0, 2, 3, 4, 2, 0, 0, 4, 2, 0, 0, 2, 2, 0, 0, 2]⟩ := rfl
  rw [hfirst, hsecond]
  decide

end Interleave
