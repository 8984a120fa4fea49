import Interleave.Proofs.Correspondence.Basic

set_option autoImplicit false

namespace Interleave

inductive Eval.Matches {α β : Type} (r : α → β → Prop) : Eval α → Eval β → Prop where
  | ok {a : α} {b : β} (h : r a b) : Matches r (.ok a) (.ok b)
  | stop (e : Stop) : Matches r (.error e) (.error e)

variable {α β γ δ : Type} {r : α → β → Prop} {x : Eval α} {y : Eval β} {q : γ → δ → Prop}
  {l : List α} {m : List β} {R : Pairing}

theorem Eval.Matches.bind {f : α → Eval γ} {g : β → Eval δ} (h : x.Matches r y)
    (hfg : ∀ a b, r a b → (f a).Matches q (g b)) : (x >>= f).Matches q (y >>= g) := by
  cases h with
  | ok h => exact hfg _ _ h
  | stop e => exact .stop e

theorem Eval.Matches.map {f : α → γ} {g : β → δ} (h : x.Matches r y)
    (hfg : ∀ a b, r a b → q (f a) (g b)) : Eval.Matches q (f <$> x) (g <$> y) := by
  cases h with
  | ok h => exact .ok (hfg _ _ h)
  | stop e => exact .stop e

theorem Eval.Matches.refl (x : Eval α) : x.Matches (· = ·) x := by
  cases x with
  | ok a => exact .ok rfl
  | error e => exact .stop e

theorem optionRel_cases {x : Option α} {y : Option β} (h : Option.Rel r x y) :
    (x = none ∧ y = none) ∨ ∃ a b, x = some a ∧ y = some b ∧ r a b := by
  cases h with
  | none => exact .inl ⟨rfl, rfl⟩
  | some h => exact .inr ⟨_, _, rfl, rfl, h⟩

section Values

variable {R : Pairing} {v w : Value}

variable (h : v.Matches R w)

include h

theorem Value.Matches.asInt : v.asInt.Matches (· = ·) w.asInt := by
  cases h with
  | int v => exact .ok rfl
  | null | ref => exact .stop _

theorem Value.Matches.asHandle : v.asHandle.Matches R w.asHandle := by
  cases h with
  | int v | null => exact .stop _
  | ref h => exact .ok h

theorem Value.Matches.isTrue : v.isTrue = w.isTrue := by
  cases h <;> rfl

theorem Value.Matches.checked (type : FieldType) :
    (v.checked type).Matches (Value.Matches R) (w.checked type) := by
  cases h with
  | int v =>
    cases type with
    | int => exact .ok (.int v)
    | ref => exact .stop _
  | null =>
    cases type with
    | int => exact .stop _
    | ref => exact .ok .null
  | ref h =>
    cases type with
    | int => exact .stop _
    | ref => exact .ok (.ref h)

theorem Value.Matches.eq_iff (hR : Relator.BiUnique R) {x y : Value} (h' : x.Matches R y) :
    v = x ↔ w = y := by
  cases h with
  | int v => cases h' <;> simp
  | null => cases h' <;> simp
  | @ref a b hab =>
    cases h' with
    | int _ | null => simp
    | @ref c d hcd =>
      simp only [Value.ref.injEq]
      exact ⟨fun hac => hR.2 hab (hac ▸ hcd), fun hbd => hR.1 hab (hbd ▸ hcd)⟩

end Values

theorem element_matches (h : List.Forall₂ r l m) (index : Int64) :
    (element l index).Matches r (element m index) := by
  unfold element
  rw [h.length_eq]
  obtain ⟨hl, hm⟩ | ⟨x, y, hl, hm, hxy⟩ := optionRel_cases (forall₂_getElem? h index.toInt.toNat)
  · rw [hl, hm]
    exact .stop _
  · rw [hl, hm]
    cases decide (0 ≤ index) with
    | false => exact .stop _
    | true => exact .ok hxy

theorem setElement_matches (h : List.Forall₂ r l m) (index : Int64) (hxy : x.Matches r y) :
    (setElement l index x).Matches (List.Forall₂ r) (setElement m index y) := by
  refine (element_matches h index).bind fun _ _ _ => hxy.bind fun a b hab => ?_
  exact .ok (forall₂_set h hab _)

section Memory

variable {R : Pairing} {s t : State} (h : s.SameMemory R t)

include h

variable {a b : Handle}

theorem State.SameMemory.object (hab : R a b) :
    (s.object a).Matches (Object.Matches R) (t.object b) := by
  obtain ⟨o, q, ho, hq, hoq⟩ := h.objects a b hab
  unfold State.object
  rw [ho, hq]
  exact .ok hoq

theorem State.SameMemory.static? (id : ClassId) :
    Option.Rel (StaticRecord.Matches R) (s.static? id) (t.static? id) := by
  refine forall₂_find? h.statics fun r q hrq => ?_
  rw [hrq.owner]

theorem State.SameMemory.staticField (id : ClassId) (slot : Nat) :
    Option.Rel (Value.Matches R) ((s.static? id).bind (·.fields[slot]?))
      ((t.static? id).bind (·.fields[slot]?)) := by
  obtain ⟨hs, ht⟩ | ⟨r, q, hs, ht, hrq⟩ := optionRel_cases (h.static? id)
  · rw [hs, ht]
    exact .none
  · rw [hs, ht]
    exact forall₂_getElem? hrq.fields slot

theorem State.SameMemory.monitor? {l m : LockRef} (hlm : l.Matches R m) :
    s.monitor? l = t.monitor? m := by
  cases hlm with
  | object hab =>
    obtain ⟨o, q, ho, hq, hoq⟩ := h.objects _ _ hab
    simp only [State.monitor?, ho, hq, Option.map_some, hoq.monitor]
  | ofClass id =>
    obtain ⟨hs, ht⟩ | ⟨r, q, hs, ht, hrq⟩ := optionRel_cases (h.static? id)
    · simp only [State.monitor?, hs, ht]
    · simp only [State.monitor?, hs, ht, Option.map_some, hrq.monitor]

theorem readField_matches (p : Program) (hab : R a b) (name : String) :
    (p.readField s a name).Matches (Value.Matches R) (p.readField t b name) := by
  refine (h.object hab).bind fun o q hoq => ?_
  rw [hoq.owner]
  refine (Eval.Matches.refl (p.fieldSlot q.owner name)).bind fun x y hxy => ?_
  subst hxy
  obtain ⟨_, _, o⟩ := o
  obtain ⟨_, _, q⟩ := q
  cases hoq.payload with
  | @fields v w hvw =>
    obtain ⟨hv, hw⟩ | ⟨_, _, hv, hw, hat⟩ := optionRel_cases (forall₂_getElem? hvw x.1)
    · simp only [hv, hw]
      exact .ok .null
    · simp only [hv, hw]
      exact .ok hat
  | ints | refs | set | bag => exact .stop _

end Memory

section Payloads

variable {R : Pairing} {o q : Payload} (h : o.Matches R q)

include h

theorem Payload.Matches.readIndex (index : Int64) :
    (o.readIndex index).Matches (Value.Matches R) (q.readIndex index) := by
  cases h with
  | fields | set | bag => exact .stop _
  | ints elements =>
    refine (Eval.Matches.refl (element elements index)).map fun v w hvw => ?_
    rw [hvw]
    exact .int w
  | refs hef =>
    refine (element_matches hef index).map fun x y hxy => ?_
    cases hxy with
    | none => exact .null
    | some hab => exact .ref hab

theorem Payload.Matches.readLength : o.readLength.Matches (Value.Matches R) q.readLength := by
  cases h with
  | fields | set | bag => exact .stop _
  | ints elements => exact .ok (.int _)
  | refs hef =>
    simp only [Payload.readLength, hef.length_eq]
    exact .ok (.int _)

theorem Payload.Matches.readSize : o.readSize.Matches (Value.Matches R) q.readSize := by
  cases h with
  | fields | ints | refs => exact .stop _
  | set hmn | bag hmn =>
    simp only [Payload.readSize, hmn.size]
    exact .ok (.int _)

theorem Payload.Matches.hasMember (hR : Relator.BiUnique R) {a b : Handle} (hab : R a b) :
    (o.hasMember a).Matches (Value.Matches R) (q.hasMember b) := by
  cases h with
  | fields | ints | refs => exact .stop _
  | set hmn | bag hmn =>
    simp only [Payload.hasMember, hmn.contains hR hab]
    exact .ok (.int _)

end Payloads

theorem arith_matches (op : BinOp) (l r : Int64) :
    (op.arith l r).Matches (Value.Matches R) (op.arith l r) := by
  cases op with
  | add | sub | mul | lt | le | gt | ge => exact .ok (.int _)
  | div | rem =>
    simp only [BinOp.arith]
    split
    · exact .stop _
    · exact .ok (.int _)
  | eq | ne | and | or => exact .stop _

theorem eval_matches {s t : State} (h : s.SameMemory R t) (p : Program) {v w : List Value}
    (hvw : List.Forall₂ (Value.Matches R) v w) (e : Expr) :
    (p.eval s v e).Matches (Value.Matches R) (p.eval t w e) := by
  induction e with
  | int value => exact .ok (.int value)
  | null => exact .ok .null
  | localVar slot =>
    unfold Program.eval
    obtain ⟨hv, hw⟩ | ⟨_, _, hv, hw, hat⟩ := optionRel_cases (forall₂_getElem? hvw slot)
    · rw [hv, hw]
      exact .ok (.int 0)
    · rw [hv, hw]
      exact .ok hat
  | staticVar owner slot =>
    unfold Program.eval
    obtain ⟨hs, ht⟩ | ⟨_, _, hs, ht, hat⟩ := optionRel_cases (h.staticField owner slot)
    · rw [hs, ht]
      exact .stop _
    · rw [hs, ht]
      exact .ok hat
  | field object name ih =>
    unfold Program.eval
    exact ih.bind fun _ _ hxy => hxy.asHandle.bind fun _ _ hab => readField_matches h p hab name
  | index array index iha ihi =>
    unfold Program.eval
    refine iha.bind fun _ _ hxy => hxy.asHandle.bind fun _ _ hab => ?_
    refine ihi.bind fun _ _ hij => hij.asInt.bind fun i j hij => ?_
    subst hij
    exact (h.object hab).bind fun _ _ hoq => hoq.payload.readIndex i
  | len array ih =>
    unfold Program.eval
    refine ih.bind fun _ _ hxy => hxy.asHandle.bind fun _ _ hab => ?_
    exact (h.object hab).bind fun _ _ hoq => hoq.payload.readLength
  | size collection ih =>
    unfold Program.eval
    refine ih.bind fun _ _ hxy => hxy.asHandle.bind fun _ _ hab => ?_
    exact (h.object hab).bind fun _ _ hoq => hoq.payload.readSize
  | contains collection item ihc ihi =>
    unfold Program.eval
    refine ihc.bind fun _ _ hxy => hxy.asHandle.bind fun _ _ hab => ?_
    refine ihi.bind fun _ _ hij => ?_
    cases hij with
    | int _ => exact .stop _
    | null => exact .ok (.int 0)
    | ref hcd => exact (h.object hab).bind fun _ _ hoq => hoq.payload.hasMember h.oneToOne hcd
  | unary op operand ih =>
    cases op with
    | neg =>
      unfold Program.eval
      refine ih.bind fun _ _ hxy => hxy.asInt.bind fun i j hij => ?_
      subst hij
      exact .ok (.int _)
    | not =>
      unfold Program.eval
      refine ih.bind fun x y hxy => ?_
      rw [hxy.isTrue]
      exact .ok (.int _)
  | binary op left right ihl ihr =>
    cases op with
    | and =>
      unfold Program.eval
      refine ihl.bind fun x y hxy => ?_
      rw [hxy.isTrue]
      split
      · refine ihr.bind fun x y hxy => ?_
        rw [hxy.isTrue]
        exact .ok (.int _)
      · exact .ok (.int _)
    | or =>
      unfold Program.eval
      refine ihl.bind fun x y hxy => ?_
      rw [hxy.isTrue]
      split
      · exact .ok (.int _)
      · refine ihr.bind fun x y hxy => ?_
        rw [hxy.isTrue]
        exact .ok (.int _)
    | eq =>
      unfold Program.eval
      refine ihl.bind fun _ _ hxy => ihr.bind fun _ _ hij => ?_
      simp only [hxy.eq_iff h.oneToOne hij]
      exact .ok (.int _)
    | ne =>
      unfold Program.eval
      refine ihl.bind fun _ _ hxy => ihr.bind fun _ _ hij => ?_
      simp only [ne_eq, hxy.eq_iff h.oneToOne hij]
      exact .ok (.int _)
    | add | sub | mul | div | rem | lt | le | gt | ge =>
      unfold Program.eval
      refine ihl.bind fun _ _ hxy => hxy.asInt.bind fun i j hij => ?_
      refine ihr.bind fun _ _ hvw => hvw.asInt.bind fun k l hkl => ?_
      subst hij hkl
      exact arith_matches _ i k

end Interleave
