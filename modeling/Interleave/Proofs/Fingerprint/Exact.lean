import Interleave.Proofs.Fingerprint.Code
import Interleave.Proofs.Machine.Execution
import Interleave.Proofs.Program.Denotation

set_option autoImplicit false

namespace Interleave

def Paired (met met' : List Handle) : Pairing := fun a b =>
  ∃ i : Nat, met[i]? = some a ∧ met'[i]? = some b

variable {x y u u' : List Nat} {met met' : List Handle} {α β : Type} {r : α → β → Prop} {l : List α}
  {m : List β} {b : IdBag Handle} {n : Nat} {v w : List Value} {c : α → List Nat → Prop}
  {d : β → List Nat → Prop} {p : Program}

theorem paired_oneToOne (hmet : met.Nodup) (hmet' : met'.Nodup) :
    Relator.BiUnique (Paired met met') := by
  have hinj : ∀ {l : List Handle} {i j : Nat} {a : Handle}, l.Nodup → l[i]? = some a →
      l[j]? = some a → i = j := by
    intro l i j a hl hi hj
    obtain ⟨hlt, _⟩ := List.getElem?_eq_some_iff.1 hi
    exact (List.getElem?_inj hlt hl).1 (hi.trans hj.symm)
  constructor
  · rintro a b c ⟨i, ha, hc⟩ ⟨j, hb, hc'⟩
    obtain rfl := hinj hmet' hc hc'
    exact Option.some.inj (ha.symm.trans hb)
  · rintro a b c ⟨i, ha, hb⟩ ⟨j, ha', hc⟩
    obtain rfl := hinj hmet ha ha'
    exact Option.some.inj (hb.symm.trans hc)

theorem NumberCode.paired {a b : Handle} (ha : NumberCode met a n) (hb : NumberCode met' b n) :
    Paired met met' a b :=
  ⟨n - 1, ha.2, hb.2⟩

theorem intWord_injective : Function.Injective intWord := by
  intro v w h
  have hword : v.toUInt64 = w.toUInt64 := UInt64.toNat_inj.1 h
  cases v
  cases w
  exact congrArg Int64.ofUInt64 hword

section Values

variable {met met' : List Handle} {v w : List Value}

theorem ValueCode.matches {v w : Value} {n : Nat} (hkind : v.isReference = w.isReference)
    (hv : ValueCode met v n) (hw : ValueCode met' w n) : v.Matches (Paired met met') w := by
  cases v with
  | int v =>
    cases w with
    | int w =>
      obtain rfl := intWord_injective (hv.symm.trans hw)
      exact .int v
    | ref | null => cases hkind
  | null =>
    cases w with
    | int => cases hkind
    | null => exact .null
    | ref h =>
      have hn : n = 0 := hv
      exact absurd hw.1 (by omega)
  | ref h =>
    cases w with
    | int => cases hkind
    | null =>
      have hn : n = 0 := hw
      exact absurd hv.1 (by omega)
    | ref k => exact .ref (NumberCode.paired hv hw)

theorem values_decode {m n x y : List Nat} (hkind : v.map (·.isReference) = w.map (·.isReference))
    (hv : List.Forall₂ (ValueCode met) v m) (hw : List.Forall₂ (ValueCode met') w n)
    (h : m ++ x = n ++ y) : List.Forall₂ (Value.Matches (Paired met met')) v w ∧ x = y := by
  induction hv generalizing w n with
  | nil =>
    obtain rfl := List.map_eq_nil_iff.1 hkind.symm
    cases hw
    exact ⟨.nil, h⟩
  | cons ha _ ih =>
    cases hw with
    | nil => cases hkind
    | cons hb hrest =>
      obtain ⟨hhead, htail⟩ := List.cons.inj hkind
      obtain ⟨rfl, hwords⟩ := List.cons.inj h
      obtain ⟨hmatch, hxy⟩ := ih htail hrest hwords
      exact ⟨.cons (ha.matches hhead hb) hmatch, hxy⟩

theorem Fits.isReference {fields : List FieldDecl} (hv : Fits v fields) (hw : Fits w fields) :
    v.map (·.isReference) = w.map (·.isReference) := by
  have hone : ∀ {v : Value} {type : FieldType}, v.fits type = true →
      v.isReference = decide (type = .ref) := by
    intro v type hfits
    cases v <;> cases type <;> first | rfl | cases hfits
  unfold Fits at hv hw
  induction hv generalizing w with
  | nil =>
    cases hw
    rfl
  | cons ha _ ih =>
    cases hw with
    | cons hb hrest => rw [List.map_cons, List.map_cons, hone ha, hone hb, ih hrest]

end Values

theorem bits_injective (hlen : v.length = w.length)
    (h : v.foldr (fun v word => 2 * word + if v.isReference then 1 else 0) 0 =
      w.foldr (fun v word => 2 * word + if v.isReference then 1 else 0) 0) :
    v.map (·.isReference) = w.map (·.isReference) := by
  induction v generalizing w with
  | nil =>
    obtain rfl := List.length_eq_zero_iff.1 hlen.symm
    rfl
  | cons a v ih =>
    cases w with
    | nil => cases hlen
    | cons b w =>
      simp only [List.foldr_cons] at h
      have hbit : a.isReference = b.isReference := by
        cases ha : a.isReference <;> cases hb : b.isReference <;> simp [ha, hb] at h ⊢ <;> omega
      rw [List.map_cons, List.map_cons, hbit, ih (by simpa using hlen) (by rw [hbit] at h; omega)]

@[simp] theorem referenceBits_nil : Walk.referenceBits [] = [] := by
  rw [Walk.referenceBits]
  rfl

theorem referenceBits_cons (a : Value) (v : List Value) :
    Walk.referenceBits (a :: v) =
      ((a :: v).take 64).foldr (fun v word => 2 * word + if v.isReference then 1 else 0) 0
        :: Walk.referenceBits ((a :: v).drop 64) := by
  rw [Walk.referenceBits]
  rfl

theorem referenceBits_decode (hlen : v.length = w.length)
    (h : Walk.referenceBits v ++ x = Walk.referenceBits w ++ y) :
    v.map (·.isReference) = w.map (·.isReference) ∧ x = y := by
  induction hn : v.length using Nat.strongRecOn generalizing v w with
  | ind n ih =>
    cases v with
    | nil =>
      obtain rfl := List.length_eq_zero_iff.1 hlen.symm
      rw [referenceBits_nil] at h
      exact ⟨rfl, h⟩
    | cons a v =>
      cases w with
      | nil => cases hlen
      | cons b w =>
        rw [referenceBits_cons, referenceBits_cons] at h
        obtain ⟨hword, hrest⟩ := List.cons.inj h
        have htake : ((a :: v).take 64).length = ((b :: w).take 64).length := by
          rw [List.length_take, List.length_take, hlen]
        have hdrop : ((a :: v).drop 64).length = ((b :: w).drop 64).length := by
          rw [List.length_drop, List.length_drop, hlen]
        have hless : ((a :: v).drop 64).length < n := by
          rw [List.length_drop, hn, ← hn, List.length_cons]
          omega
        obtain ⟨hlast, hxy⟩ := ih _ hless hdrop hrest rfl
        refine ⟨?_, hxy⟩
        rw [← List.take_append_drop 64 (a :: v), ← List.take_append_drop 64 (b :: w),
          List.map_append, List.map_append, bits_injective htake hword, hlast]

/-- Parts that fill the rest of the words need not be counted, as long as none is empty. -/
theorem EachCode.decode_all
    (hone : ∀ a ∈ l, ∀ b ∈ m, ∀ u u' x y, c a u → d b u' → u ++ x = u' ++ y → r a b ∧ x = y)
    (hc : ∀ a, ¬ c a []) (hd : ∀ b, ¬ d b []) (hl : EachCode c l u) (hm : EachCode d m u) :
    List.Forall₂ r l m := by
  induction hl generalizing m with
  | nil =>
    cases m with
    | nil => exact .nil
    | cons b m =>
      generalize hu : ([] : List Nat) = u at hm
      cases hm with
      | cons hb _ =>
        obtain ⟨rfl, _⟩ := List.append_eq_nil_iff.1 hu.symm
        exact absurd hb (hd b)
  | @cons a l u v ha hl ih =>
    generalize hu : u ++ v = w at hm
    cases hm with
    | nil =>
      obtain ⟨rfl, _⟩ := List.append_eq_nil_iff.1 hu
      exact absurd ha (hc a)
    | cons hb hrest =>
      obtain ⟨hab, rfl⟩ := hone _ List.mem_cons_self _ List.mem_cons_self _ _ _ _ ha hb hu
      exact .cons hab (ih (fun a ha b hb =>
        hone a (List.mem_cons_of_mem _ ha) b (List.mem_cons_of_mem _ hb)) hrest)

structure Thread.Similar (R : Pairing) (a b : Thread) : Prop where
  isAlive : a.isAlive = b.isAlive
  frames : List.Forall₂ (StackFrame.Matches R) a.frames b.frames
  uncaught : a.uncaught.isSome = b.uncaught.isSome

theorem Monitor.words_injective {m n : Monitor} (h : m.words ++ x = n.words ++ y) : m = n ∧ x = y := by
  obtain ⟨owner, count⟩ := m
  obtain ⟨owner', count'⟩ := n
  cases owner <;> cases owner' <;> simp_all [Monitor.words]

theorem rel_of_forall₂ (h : List.Forall₂ r l m) : Multiset.Rel r (l : Multiset α) (m : Multiset β) := by
  induction h with
  | nil => exact .zero
  | cons hab _ ih => exact .cons hab ih

theorem rel_of_perm {l' : List α} {m' : List β} (h : List.Forall₂ r l m) (hl : l.Perm l')
    (hm : m.Perm m') : Multiset.Rel r (l' : Multiset α) (m' : Multiset β) := by
  rw [← Multiset.coe_eq_coe.2 hl, ← Multiset.coe_eq_coe.2 hm]
  exact rel_of_forall₂ h

theorem IdBag.Tidy.entries_eq (h : b.Tidy) :
    b.entries = b.distinct.map fun k => (k, b.count k) := by
  unfold IdBag.distinct
  rw [List.map_map]
  refine (List.map_id _).symm.trans (List.map_congr_left fun e he => ?_)
  simp only [id_eq, Function.comp_apply]
  rw [IdBag.count_of_mem h (k := e.1) (n := e.2) he]

theorem elements_paired {e f : Option Handle} (he : ValueCode met (e.elim .null .ref) n)
    (hf : ValueCode met' (f.elim .null .ref) n) : Option.Rel (Paired met met') e f := by
  have hmatch := ValueCode.matches (by cases e <;> cases f <;> rfl) he hf
  cases e with
  | none =>
    cases f with
    | none => exact .none
    | some b => cases hmatch
  | some a =>
    cases f with
    | none => cases hmatch
    | some b =>
      cases hmatch with
      | ref hab => exact .some hab

section Decoding

variable (h : u ++ x = u' ++ y)

include h

theorem FrameCode.decode {f g : StackFrame} (hf : FrameCode met f u) (hg : FrameCode met' g u') :
    f.Matches (Paired met met') g ∧ x = y := by
  obtain ⟨v, hv, rfl⟩ := hf
  obtain ⟨w, hw, rfl⟩ := hg
  simp only [List.cons_append, List.append_assoc, List.cons.injEq] at h
  obtain ⟨hmethod, hpc, hlen, h⟩ := h
  obtain ⟨hkind, h⟩ := referenceBits_decode hlen h
  obtain ⟨hlocals, hxy⟩ := values_decode hkind hv hw h
  exact ⟨⟨hmethod, hpc, hlocals⟩, hxy⟩

theorem EachCode.decode (hlen : l.length = m.length)
    (hone : ∀ a ∈ l, ∀ b ∈ m, ∀ u u' x y, c a u → d b u' → u ++ x = u' ++ y → r a b ∧ x = y)
    (hl : EachCode c l u) (hm : EachCode d m u') : List.Forall₂ r l m ∧ x = y := by
  induction hl generalizing m u' with
  | nil =>
    obtain rfl := List.length_eq_zero_iff.1 hlen.symm
    cases hm
    exact ⟨.nil, h⟩
  | cons ha _ ih =>
    cases hm with
    | nil => cases hlen
    | cons hb hrest =>
      rw [List.append_assoc, List.append_assoc] at h
      obtain ⟨hab, h⟩ := hone _ List.mem_cons_self _ List.mem_cons_self _ _ _ _ ha hb h
      obtain ⟨hall, hxy⟩ := ih h (Nat.succ.inj hlen)
        (fun a ha b hb => hone a (List.mem_cons_of_mem _ ha) b (List.mem_cons_of_mem _ hb)) hrest
      exact ⟨.cons hab hall, hxy⟩

theorem StatusCode.decode {a b : ThreadStatus} (ha : StatusCode met a u) (hb : StatusCode met' b u') :
    (a = .terminated ↔ b = .terminated) ∧ x = y := by
  cases ha <;> cases hb <;> simp_all

theorem ThreadCode.decode {a b : Thread} (ha : ThreadCode met a u) (hb : ThreadCode met' b u') :
    a.Similar (Paired met met') b ∧ x = y := by
  obtain ⟨v, w, hstatus, hframes, rfl⟩ := ha
  obtain ⟨v', w', hstatus', hframes', rfl⟩ := hb
  simp only [List.append_assoc, List.cons_append] at h
  obtain ⟨hterm, h⟩ := hstatus.decode h hstatus'
  obtain ⟨huncaught, h⟩ := List.cons.inj h
  obtain ⟨hlen, h⟩ := List.cons.inj h
  obtain ⟨hall, hxy⟩ := EachCode.decode (r := StackFrame.Matches (Paired met met')) h
    (by simpa using hlen) (fun _ _ _ _ _ _ _ _ hf hg heq => hf.decode heq hg) hframes hframes'
  refine ⟨⟨?_, ?_, ?_⟩, hxy⟩
  · simp [Thread.isAlive, hterm]
  · simpa using List.forall₂_reverse_iff.1 hall
  · cases ha : a.uncaught.isSome <;> cases hb : b.uncaught.isSome <;> simp [ha, hb] at huncaught ⊢

theorem StaticCode.decode {r q : StaticRecord} (hr : r.Typed p) (hq : q.Typed p)
    (hcode : StaticCode met r u) (hcode' : StaticCode met' q u') :
    r.Matches (Paired met met') q ∧ x = y := by
  obtain ⟨v, hv, rfl⟩ := hcode
  obtain ⟨w, hw, rfl⟩ := hcode'
  obtain ⟨decl, hdecl, hfits⟩ := hr
  obtain ⟨decl', hdecl', hfits'⟩ := hq
  simp only [List.cons_append, List.append_assoc] at h
  obtain ⟨howner, h⟩ := List.cons.inj h
  obtain ⟨hinit, h⟩ := List.cons.inj h
  obtain ⟨hmonitor, h⟩ := Monitor.words_injective h
  rw [howner] at hdecl
  cases hdecl.symm.trans hdecl'
  obtain ⟨hfields, hxy⟩ := values_decode (hfits.isReference hfits') hv hw h
  refine ⟨⟨howner, ?_, hfields, hmonitor⟩, hxy⟩
  cases hr : r.initialized <;> cases hq : q.initialized <;> simp [hr, hq] at hinit ⊢

theorem forall₂_decode {c : α → Nat → Prop} {d : β → Nat → Prop}
    (hone : ∀ a b n, c a n → d b n → r a b) (hlen : l.length = m.length) (hl : List.Forall₂ c l u)
    (hm : List.Forall₂ d m u') : List.Forall₂ r l m ∧ x = y := by
  obtain ⟨rfl, hxy⟩ := List.append_inj h (hl.length_eq.symm.trans (hlen.trans hm.length_eq))
  refine ⟨(forall₂_comp hl hm.flip).imp ?_, hxy⟩
  rintro a b ⟨n, ha, hb⟩
  exact hone a b n ha hb

theorem EntryCode.decode {c : IdBag Handle} {k l : Handle} (hu : EntryCode met b k u)
    (hu' : EntryCode met' c l u') :
    (Paired met met' k l ∧ b.count k = c.count l) ∧ x = y := by
  obtain ⟨n, hn, rfl⟩ := hu
  obtain ⟨n', hn', rfl⟩ := hu'
  obtain ⟨rfl, hrest⟩ := List.cons.inj h
  obtain ⟨hcount, hxy⟩ := List.cons.inj hrest
  exact ⟨⟨hn.paired hn', hcount⟩, hxy⟩

theorem PayloadCode.decode {decl : ClassDecl} {o q : Payload} (ho : o.Typed decl)
    (hq : q.Typed decl) (htidy : ∀ b, o = .bag b → b.Tidy) (htidy' : ∀ b, q = .bag b → b.Tidy)
    (hcode : PayloadCode met o u) (hcode' : PayloadCode met' q u') :
    o.Matches (Paired met met') q ∧ x = y := by
  -- the class decides which kind of payload both objects have
  cases ho with
  | fields hkind hfits =>
    cases hq with
    | fields _ hfits' =>
      cases hcode with
      | fields hv =>
        cases hcode' with
        | fields hw =>
          obtain ⟨hvalues, hxy⟩ := values_decode (hfits.isReference hfits') hv hw h
          exact ⟨.fields hvalues, hxy⟩
    | ints hkind' | refs hkind' | set hkind' | bag hkind' => cases hkind.symm.trans hkind'
  | ints hkind elements =>
    cases hq with
    | ints _ elements' =>
      cases hcode
      cases hcode'
      obtain ⟨hlen, h⟩ := List.cons.inj h
      obtain ⟨hwords, hxy⟩ := List.append_inj h (by simpa using hlen)
      obtain rfl := List.map_injective_iff.2 intWord_injective hwords
      exact ⟨.ints elements, hxy⟩
    | fields hkind' | refs hkind' | set hkind' | bag hkind' => cases hkind.symm.trans hkind'
  | refs hkind elements =>
    cases hq with
    | refs _ elements' =>
      cases hcode with
      | refs hv =>
        cases hcode' with
        | refs hw =>
          obtain ⟨hlen, h⟩ := List.cons.inj h
          obtain ⟨hrefs, hxy⟩ := forall₂_decode (d := fun f => ValueCode met' (f.elim .null .ref)) h
            (fun _ _ _ => elements_paired) hlen hv hw
          exact ⟨.refs hrefs, hxy⟩
    | fields hkind' | ints hkind' | set hkind' | bag hkind' => cases hkind.symm.trans hkind'
  | set hkind members =>
    cases hq with
    | set _ members' =>
      cases hcode with
      | set hperm hv =>
        cases hcode' with
        | set hperm' hw =>
          obtain ⟨hlen, h⟩ := List.cons.inj h
          obtain ⟨hpairs, hxy⟩ := forall₂_decode h (fun _ _ _ ha hb => ha.paired hb) hlen hv hw
          exact ⟨.set (rel_of_perm hpairs hperm hperm'), hxy⟩
    | fields hkind' | ints hkind' | refs hkind' | bag hkind' => cases hkind.symm.trans hkind'
  | bag hkind members =>
    cases hq with
    | bag _ members' =>
      cases hcode with
      | bag hperm hv =>
        cases hcode' with
        | bag hperm' hw =>
          obtain ⟨hlen, h⟩ := List.cons.inj h
          obtain ⟨hpairs, hxy⟩ := EachCode.decode h hlen
            (fun _ _ _ _ _ _ _ _ hk hl h => hk.decode h hl) hv hw
          refine ⟨.bag ⟨htidy _ rfl, htidy' _ rfl, ?_⟩, hxy⟩
          rw [(htidy _ rfl).entries_eq, (htidy' _ rfl).entries_eq]
          exact Multiset.rel_map.2 (rel_of_perm hpairs hperm hperm')
    | fields hkind' | ints hkind' | refs hkind' | set hkind' => cases hkind.symm.trans hkind'

theorem ObjectCode.decode {o q : Object} (ho : o.Typed p) (hq : q.Typed p)
    (htidy : ∀ b, o.payload = .bag b → b.Tidy) (htidy' : ∀ b, q.payload = .bag b → b.Tidy)
    (hcode : ObjectCode met o u) (hcode' : ObjectCode met' q u') :
    o.Matches (Paired met met') q ∧ x = y := by
  obtain ⟨v, hv, rfl⟩ := hcode
  obtain ⟨w, hw, rfl⟩ := hcode'
  obtain ⟨decl, hdecl, hpayload⟩ := ho
  obtain ⟨decl', hdecl', hpayload'⟩ := hq
  simp only [List.cons_append, List.append_assoc] at h
  obtain ⟨howner, h⟩ := List.cons.inj h
  obtain ⟨hmonitor, h⟩ := Monitor.words_injective h
  rw [howner] at hdecl
  cases hdecl.symm.trans hdecl'
  obtain ⟨hmatch, hxy⟩ := hv.decode h hpayload hpayload' htidy htidy' hw
  exact ⟨⟨howner, hmonitor, hmatch⟩, hxy⟩

end Decoding

section States

variable {p : Program} {s t : State} {met met' : List Handle} {words : List Nat} {masks : Masks}
  {policy : SerializerPolicy}

theorem objects_decode (hs : p.WellFormed s) (ht : p.WellFormed t) (hmet : s.Met met)
    (hmet' : t.Met met')
    (h : EachCode (fun h w => ∃ o, s.heap.get? h = some o ∧ ObjectCode met o w) met words)
    (h' : EachCode (fun h w => ∃ o, t.heap.get? h = some o ∧ ObjectCode met' o w) met' words) :
    ∀ a b, Paired met met' a b →
      ∃ o q, s.heap.get? a = some o ∧ t.heap.get? b = some q ∧ o.Matches (Paired met met') q := by
  have hall := EachCode.decode_all (r := fun a b => ∃ o q, s.heap.get? a = some o ∧
    t.heap.get? b = some q ∧ o.Matches (Paired met met') q) ?_ ?_ ?_ h h'
  · rintro a b ⟨i, ha, hb⟩
    have hat := forall₂_getElem? hall i
    rw [ha, hb] at hat
    cases hat with
    | some hab => exact hab
  · rintro a ha b hb u u' x y ⟨o, ho, hcode⟩ ⟨q, hq, hcode'⟩ heq
    obtain ⟨hmatch, hxy⟩ := hcode.decode heq (hs.objects a o ho) (ht.objects b q hq)
      (fun _ => Walk.reached_tidy hs (hmet.reached a ha) ho)
      (fun _ => Walk.reached_tidy ht (hmet'.reached b hb) hq) hcode'
    exact ⟨⟨o, q, ho, hq, hmatch⟩, hxy⟩
  · rintro a ⟨o, _, v, _, hnil⟩
    cases hnil
  · rintro b ⟨o, _, v, _, hnil⟩
    cases hnil

theorem alike_of_similar {R : Pairing} (hnames : s.threads.map (·.name) = t.threads.map (·.name))
    (h : List.Forall₂ (Thread.Similar R) s.threads t.threads) :
    List.Forall₂ (Thread.Alike R) s.threads t.threads := by
  revert hnames
  generalize s.threads = l at h
  generalize t.threads = m at h
  intro hnames
  induction h with
  | nil => exact .nil
  | cons hab _ ih =>
    obtain ⟨hname, hrest⟩ := List.cons.inj hnames
    exact .cons ⟨hname, hab.isAlive, hab.frames, hab.uncaught⟩ (ih hrest)

theorem StateCode.corresponds (hs : p.WellFormed s) (ht : p.WellFormed t) (hmet : s.Met met)
    (hmet' : t.Met met') (h : StateCode s met words) (h' : StateCode t met' words) :
    s.Corresponds (Paired met met') t := by
  obtain ⟨u, v, w, hthreads, hstatics, hobjects, rfl⟩ := h
  obtain ⟨u', v', w', hthreads', hstatics', hobjects', heq⟩ := h'
  simp only [List.cons_append, List.append_assoc] at heq
  obtain ⟨hlen, heq⟩ := List.cons.inj heq
  obtain ⟨hsimilar, heq⟩ := EachCode.decode (r := Thread.Similar (Paired met met')) heq hlen
    (fun _ _ _ _ _ _ _ _ ha hb h => ha.decode h hb) hthreads hthreads'
  obtain ⟨hlen', heq⟩ := List.cons.inj heq
  obtain ⟨hrecords, rfl⟩ := EachCode.decode (r := StaticRecord.Matches (Paired met met')) heq hlen'
    (fun r hr q hq _ _ _ _ ha hb h => ha.decode h (hs.statics r hr) (ht.statics q hq) hb)
    hstatics hstatics'
  have hmemory : s.SameMemory (Paired met met') t :=
    ⟨paired_oneToOne hmet.nodup hmet'.nodup, hrecords,
      objects_decode hs ht hmet hmet' hobjects hobjects'⟩
  exact hmemory.settle hs.settled ht.settled
    (alike_of_similar (hs.names.trans ht.names.symm) hsimilar)

theorem fingerprint_code (hmasks : masks.Plain p) (hkind : policy.kind = .full)
    (hpc : policy.includePc = true) (hs : p.WellFormed s) :
    ∃ f met, s.fingerprint policy masks = .ok f ∧ s.Met met ∧ StateCode s met f.words := by
  obtain ⟨words, met, hwords, hmet, hcode⟩ := Walk.stateWords_code hs hmasks hkind hpc
  refine ⟨⟨words⟩, met, ?_, hmet, hcode⟩
  exact bind_eq_ok.2 ⟨(words, met), hwords, rfl⟩

theorem fingerprint_corresponds (hmasks : masks.Plain p) (hkind : policy.kind = .full)
    (hpc : policy.includePc = true) (hs : p.WellFormed s) (ht : p.WellFormed t) {f : Fingerprint}
    (hfs : s.fingerprint policy masks = .ok f) (hft : t.fingerprint policy masks = .ok f) :
    ∃ R : Pairing, s.Corresponds R t := by
  obtain ⟨g, met, hg, hmet, hcode⟩ := fingerprint_code hmasks hkind hpc hs
  obtain ⟨g', met', hg', hmet', hcode'⟩ := fingerprint_code hmasks hkind hpc ht
  cases hfs.symm.trans hg
  cases hft.symm.trans hg'
  exact ⟨_, hcode.corresponds hs ht hmet hmet' hcode'⟩

/-- Fingerprints are exact on the states that a program without filters runs through: each state
has one, and states that share it are isomorphic. -/
theorem fingerprint_exact {source path : String} (hp : Program.ofSource source path = .ok p)
    (hplain : p.Unfiltered) {masks : Masks} (hmasks : Masks.ofProgram p ⟨[], []⟩ = .ok masks)
    {mode mode' : Symmetry} {choices choices' : List (ThreadId × Option Int64)}
    {fault fault' : Option Uncaught} (hs : p.Execution mode choices s fault)
    (ht : p.Execution mode' choices' t fault') :
    ∃ f g, s.fingerprint ⟨.full, true⟩ masks = .ok f ∧ t.fingerprint ⟨.full, true⟩ masks = .ok g ∧
      (f.words = g.words → s.Isomorphic t) := by
  have hsound := ofSource_sound hp
  have hws := hs.wellFormed hsound
  have hwt := ht.wellFormed hsound
  have hkind : (⟨.full, true⟩ : SerializerPolicy).kind = .full := rfl
  obtain ⟨f, _, hf, _⟩ := fingerprint_code ⟨hplain, hmasks⟩ hkind rfl hws
  obtain ⟨g, _, hg, _⟩ := fingerprint_code ⟨hplain, hmasks⟩ hkind rfl hwt
  refine ⟨f, g, hf, hg, fun hwords => ?_⟩
  have hfg : f = g := congrArg Fingerprint.mk hwords
  obtain ⟨R, hcorr⟩ := fingerprint_corresponds ⟨hplain, hmasks⟩ hkind rfl hws hwt hf (hfg ▸ hg)
  exact hcorr.isomorphic hws.settled hwt.settled

def twins : Program where
  path := "twins"
  classes := builtinClasses ++ [⟨"Node", .plain, [⟨"next", .ref, false, 0⟩], []⟩]
  methods := [
    ⟨"a", false, ["x"],
      [⟨.assign (.localVar 0) (.new 5), .onLine 5 3 14⟩, ⟨.yield, .onLine 6 3 7⟩],
      ["x = new Node", "yield"]⟩,
    ⟨"b", false, ["y"],
      [⟨.assign (.localVar 0) (.new 5), .onLine 9 3 14⟩, ⟨.yield, .onLine 10 3 7⟩],
      ["y = new Node", "yield"]⟩]
  threads := [⟨"a", 0⟩, ⟨"b", 1⟩]
  invariants := []

theorem twins_source : Program.ofSource
    ("class Node \x7b\n  ref next\n\x7d\nthread a \x7b\n  x = new Node\n  yield\n\x7d\n" ++
      "thread b \x7b\n  y = new Node\n  yield\n\x7d\n") "twins" = .ok twins := by
  decide +kernel

def twinsState (x y : Handle) : State where
  threads := [⟨"a", .runnable, [⟨0, 1, [.ref x]⟩], none⟩,
    ⟨"b", .runnable, [⟨1, 1, [.ref y]⟩], none⟩]
  statics := [⟨0, true, [], .free⟩, ⟨5, true, [], .free⟩]
  heap := ⟨[some ⟨5, .free, .fields [.null]⟩, some ⟨5, .free, .fields [.null]⟩]⟩

theorem twins_unfiltered : twins.Unfiltered := by
  constructor <;> decide

theorem twins_first :
    twins.Execution .fast ([] ++ [(0, none)] ++ [(1, none)]) (twinsState 0 1) none := by
  refine .step (.step (.start rfl) ⟨?_, ⟨_, _, rfl, rfl, rfl⟩, fun _ _ _ => [], rfl⟩)
    ⟨?_, ⟨_, _, rfl, rfl, rfl⟩, fun _ _ _ => [], rfl⟩ <;> decide

theorem twins_second :
    twins.Execution .fast ([] ++ [(1, none)] ++ [(0, none)]) (twinsState 1 0) none := by
  refine .step (.step (.start rfl) ⟨?_, ⟨_, _, rfl, rfl, rfl⟩, fun _ _ _ => [], rfl⟩)
    ⟨?_, ⟨_, _, rfl, rfl, rfl⟩, fun _ _ _ => [], rfl⟩ <;> decide

def twinsWords (s : State) : Except MaskError (List Nat) := do
  let masks ← Masks.ofProgram twins ⟨[], []⟩
  return (← s.fingerprint ⟨.full, true⟩ masks).words

/-- Which thread was first shows in the handles, and nowhere else. -/
theorem twins_isomorphic : twinsWords (twinsState 0 1) = twinsWords (twinsState 1 0) ∧
    (twinsState 0 1).Isomorphic (twinsState 1 0) := by
  have hsame : twinsWords (twinsState 0 1) = twinsWords (twinsState 1 0) := by decide +kernel
  obtain ⟨f, g, hf, hg, hiso⟩ :=
    fingerprint_exact twins_source twins_unfiltered rfl twins_first twins_second
  have hfirst : twinsWords (twinsState 0 1) = .ok f.words :=
    bind_eq_ok.2 ⟨_, rfl, bind_eq_ok.2 ⟨f, hf, rfl⟩⟩
  have hsecond : twinsWords (twinsState 1 0) = .ok g.words :=
    bind_eq_ok.2 ⟨_, rfl, bind_eq_ok.2 ⟨g, hg, rfl⟩⟩
  exact ⟨hsame, hiso (Except.ok.inj (hfirst.symm.trans (hsame.trans hsecond)))⟩

end States

end Interleave
