import Interleave.Proofs.Tree.Reading

set_option autoImplicit false

namespace Interleave.Tree

open Reader

variable {value : Int64}

theorem Expr.level_le (e : Expr) : e.level ≤ 7 := by
  cases e with
  | binary op => exact Nat.le_trans op.level_le (by decide)
  | unary | null | name | member | index | call => simp [Expr.level]
  | int value =>
    rw [Expr.level]
    split <;> omega

def Expr.Readable (e : Expr) : Prop :=
  (∃ k rest, e.tokens = k :: rest ∧ e.StartsWith k) ∧
    ∀ depth, e.tokens.length ≤ depth →
      Forms (expressionWithin depth) e.tokens (fun e' => e'.erase = e.erase) e.level

def Expr.Formed (e : Expr) (level : Nat) : Prop :=
  ∀ depth, e.tokens.length ≤ depth →
    Forms (expressionWithin depth) e.tokens (fun e' => e'.erase = e.erase) level

section Operands

variable {e : Expr} {depth level : Nat}

theorem Expr.Readable.bare (h : e.Readable) (hlevel : level ≤ e.level) : e.Formed level := by
  intro depth hdepth
  obtain ⟨⟨k, rest, htokens, hk⟩, h⟩ := h
  refine (h depth hdepth).of_le e.level_le hlevel fun _ h6 => ⟨k, ?_, hk.unsigned h6⟩
  rw [htokens, List.head?_cons]

theorem Expr.Readable.within (h : e.Readable) (hdepth : e.tokens.length < depth) :
    (expressionWithin depth).Takes e.tokens (Stops 0) fun e' => e'.erase = e.erase := by
  obtain ⟨depth, rfl⟩ : ∃ n, depth = n + 1 := ⟨depth - 1, by omega⟩
  have hlowest : e.Formed 0 := h.bare (Nat.zero_le _)
  exact (hlowest depth (Nat.le_of_lt_succ hdepth)).takes (Nat.zero_le _)

theorem Expr.Readable.operand (h : e.Readable) {needed : Bool} (hlevel : level ≤ 7)
    (hbare : needed = false → level ≤ e.level)
    (hdepth : (parenthesize needed e.tokens).length ≤ depth) :
    Forms (expressionWithin depth) (parenthesize needed e.tokens) (fun e' => e'.erase = e.erase)
      level := by
  cases needed with
  | false => exact h.bare (hbare rfl) depth hdepth
  | true =>
    simp only [parenthesize, if_true, List.length_cons, List.length_append] at hdepth ⊢
    have hatom : Forms (expressionWithin depth) (.sign .openParen :: (e.tokens ++ [.sign .closeParen]))
        (fun e' => e'.erase = e.erase) 7 := atom_paren (h.within (by omega))
    exact hatom.of_le (Nat.le_refl 7) hlevel fun _ _ => ⟨_, rfl, by decide⟩

theorem Expr.Readable.expression (h : e.Readable) :
    expression.Takes e.tokens (Stops 0) fun e' => e'.erase = e.erase :=
  Leads.remaining fun _ hn => h.within (Nat.lt_succ_of_le hn)

end Operands

theorem length_le_of_mem {e : Expr} {es : List Expr} (h : e ∈ es) :
    e.tokens.length ≤ (commaSeparated (Expr.tokensOf es)).length := by
  induction es with
  | nil => cases h
  | cons e₁ es ih =>
    cases es with
    | nil =>
      obtain rfl := List.mem_singleton.1 h
      simp [Expr.tokensOf, commaSeparated]
    | cons e₂ es =>
      rw [Expr.tokensOf, Expr.tokensOf, commaSeparated, List.length_append, List.length_cons]
      rcases List.mem_cons.1 h with rfl | h
      · omega
      · have hle := ih h
        rw [Expr.tokensOf] at hle
        omega

theorem ofNat_natAbs (h : ¬ value < 0) : Int64.ofNat value.toInt.natAbs = value := by
  rw [Int64.lt_iff_toInt_lt, Int64.toInt_zero] at h
  rw [← Int64.ofInt_eq_ofNat, Int.natAbs_of_nonneg (by omega), Int64.ofInt_toInt]

theorem neg_ofNat_natAbs (h : value < 0) : -Int64.ofNat value.toInt.natAbs = value := by
  rw [Int64.lt_iff_toInt_lt, Int64.toInt_zero] at h
  rw [← Int64.ofInt_eq_ofNat, ← Int64.ofInt_neg, Int.ofNat_natAbs_of_nonpos (by omega), Int.neg_neg,
    Int64.ofInt_toInt]

section Constructors

variable {depth : Nat} {e : Expr}

theorem int_formed (value : Int64) : (Expr.int value).Formed (Expr.int value).level := by
  intro depth _
  rw [Expr.tokens, literal, Expr.level]
  split
  · next hneg =>
    intro fuel hfuel
    obtain ⟨fuel, rfl⟩ : ∃ n, fuel = n + 1 := ⟨fuel - 1, by simp at hfuel; omega⟩
    exact signed_literal (by rw [neg_ofNat_natAbs hneg]) fuel
  · next hneg => exact atom_int (by rw [ofNat_natAbs hneg])

theorem Expr.Readable.base (h : e.Readable)
    (hdepth : (parenthesize (e.level < 6 || e.isInt) e.tokens).length ≤ depth) :
    Forms (expressionWithin depth) (parenthesize (e.level < 6 || e.isInt) e.tokens)
      (fun e' => e'.erase = e.erase) 6 := by
  refine h.operand (by decide) (fun hbare => ?_) hdepth
  simp only [Bool.or_eq_false_iff, decide_eq_false_iff_not, Nat.not_lt] at hbare
  exact hbare.1

theorem member_formed {object : Expr} (ho : object.Readable) (n : Name) :
    (Expr.member object n).Formed 6 := by
  intro depth hdepth
  rw [Expr.tokens] at hdepth ⊢
  rw [List.length_append] at hdepth
  refine selection_member (ho.base (by omega)) fun o span hobject => ?_
  rw [Expr.erase, Expr.erase, hobject]
  rfl

theorem index_formed {array i : Expr} (ha : array.Readable) (hi : i.Readable) :
    (Expr.index array i).Formed 6 := by
  intro depth hdepth
  rw [Expr.tokens] at hdepth ⊢
  simp only [List.length_append, List.length_cons, List.length_nil] at hdepth
  refine selection_index (ha.base (by omega)) (hi.within (by omega)) fun a j harray hindex => ?_
  rw [Expr.erase, Expr.erase, harray, hindex]

theorem call_formed {function : Name} (hname : function.value ∉ keywords) {es : List Expr}
    (hes : ∀ e ∈ es, e.Readable) : (Expr.call function es).Formed 7 := by
  intro depth hdepth
  rw [Expr.tokens] at hdepth ⊢
  simp only [List.length_append, List.length_cons, List.length_nil] at hdepth
  refine atom_call hname (fun e he => (hes e he).1) (fun e he => (hes e he).within ?_)
    fun span es' hes' => ?_
  · have hle : e.tokens.length ≤ (commaSeparated (Expr.tokensOf es)).length := length_le_of_mem he
    omega
  · rw [Expr.erase, Expr.erase, hes']
    rfl

theorem unary_formed (op : UnOp) (he : e.Readable) : (Expr.unary op e).Formed 5 := by
  intro depth hdepth
  rw [Expr.tokens] at hdepth ⊢
  rw [List.length_cons] at hdepth
  have hoperand : Forms (expressionWithin depth)
      (parenthesize (e.level < 5 || (op = .neg && e.isInt)) e.tokens)
      (fun e' => e'.erase = e.erase) 5 := by
    refine he.operand (by decide) (fun hbare => ?_) (by omega)
    simp only [Bool.or_eq_false_iff, decide_eq_false_iff_not, Nat.not_lt] at hbare
    exact hbare.1
  intro fuel hfuel
  rw [List.length_cons] at hfuel
  obtain ⟨fuel, rfl⟩ : ∃ n, fuel = n + 1 := ⟨fuel - 1, by omega⟩
  have hsigned := hoperand fuel (by omega)
  have hsame : ∀ e', Expr.erase e' = e.erase → (Expr.unary op e').erase = (Expr.unary op e).erase := by
    intro e' he'
    rw [Expr.erase, Expr.erase, he']
  cases op with
  | not => exact signed_not hsigned hsame
  | neg =>
    -- a literal would take the sign as its own, so it stands in parentheses
    have hstart : ∃ k, (parenthesize (e.level < 5 || (UnOp.neg = .neg && e.isInt)) e.tokens).head? =
        some k ∧ ∀ n, k ≠ .int n := by
      obtain ⟨⟨k, rest, htokens, hk⟩, _⟩ := he
      rw [parenthesize]
      split
      · exact ⟨_, rfl, by simp⟩
      · next hbare =>
        simp only [Bool.or_eq_true, Bool.and_eq_true, decide_eq_true_eq, not_or, Nat.not_lt, true_and,
          Bool.not_eq_true] at hbare
        exact ⟨k, by rw [htokens, List.head?_cons], hk.ne_int hbare.1 hbare.2⟩
    obtain ⟨k, hfirst, hk⟩ := hstart
    exact signed_neg hsigned hfirst hk hsame

theorem forms_eq_chains {expr : Reader Expr} {ks : List TokenKind} {q : Expr → Prop} {level : Nat}
    (hlevel : level ≤ 4) (h2 : level ≠ 2) : Forms expr ks q level = Chains expr level ks q := by
  match level, hlevel with
  | 0, _ | 1, _ | 3, _ | 4, _ => rfl
  | 2, _ => exact absurd rfl h2

theorem binary_formed {left right : Expr} (op : BinOp) (hl : left.Readable) (hr : right.Readable) :
    (Expr.binary op left right).Formed op.level := by
  intro depth hdepth
  rw [Expr.tokens] at hdepth ⊢
  rw [List.length_append, List.length_cons] at hdepth
  have hlevel := op.level_le
  have hleft : Forms (expressionWithin depth) (parenthesize (left.level < op.leftLevel) left.tokens)
      (fun e' => e'.erase = left.erase) op.leftLevel := by
    refine hl.operand ?_ (fun hbare => Nat.le_of_not_lt (of_decide_eq_false hbare)) (by omega)
    rw [BinOp.leftLevel]
    split <;> omega
  have hright : Forms (expressionWithin depth) (parenthesize (right.level ≤ op.level) right.tokens)
      (fun e' => e'.erase = right.erase) (op.level + 1) :=
    hr.operand (by omega) (fun hbare => Nat.lt_of_not_le (of_decide_eq_false hbare)) (by omega)
  have hsame : ∀ left' right', Expr.erase left' = left.erase → Expr.erase right' = right.erase →
      (Expr.binary op left' right').erase = (Expr.binary op left right).erase := by
    intro left' right' hleft' hright'
    rw [Expr.erase, Expr.erase, hleft', hright']
  have hop := opAt_level op
  by_cases h2 : op.level = 2
  · rw [BinOp.leftLevel, if_pos h2] at hleft ⊢
    rw [h2] at hright hop ⊢
    exact comparison_both hop (hleft.takes (by decide)) (hright.takes (by decide)) hsame
  · rw [BinOp.leftLevel, if_neg h2, forms_eq_chains hlevel h2] at hleft
    rw [BinOp.leftLevel, if_neg h2, forms_eq_chains hlevel h2]
    exact chain_round hop (stops_of_opAt hop) hleft (hright.takes (by omega)) hsame

end Constructors

mutual

theorem Expr.readable (e : Expr) (h : e.isPrintable = true) : e.Readable := by
  refine ⟨e.tokens_start h, ?_⟩
  cases e with
  | int value => exact int_formed value
  | null => exact fun depth _ => atom_null rfl
  | name n =>
    rw [Expr.isPrintable] at h
    exact fun depth _ => atom_name (not_mem_keywords h) fun span => rfl
  | member object n =>
    rw [Expr.isPrintable, Bool.and_eq_true] at h
    exact member_formed (Expr.readable object h.1) n
  | index array i =>
    rw [Expr.isPrintable, Bool.and_eq_true] at h
    exact index_formed (Expr.readable array h.1) (Expr.readable i h.2)
  | call function args =>
    rw [Expr.isPrintable, Bool.and_eq_true] at h
    exact call_formed (not_mem_keywords h.1) (Expr.all_readable args h.2)
  | unary op operand =>
    rw [Expr.isPrintable] at h
    exact unary_formed op (Expr.readable operand h)
  | binary op left right =>
    rw [Expr.isPrintable, Bool.and_eq_true] at h
    exact binary_formed op (Expr.readable left h.1) (Expr.readable right h.2)

theorem Expr.all_readable (es : List Expr) (h : Expr.arePrintable es = true) :
    ∀ e ∈ es, e.Readable := by
  cases es with
  | nil => simp
  | cons e rest =>
    rw [Expr.arePrintable, Bool.and_eq_true] at h
    exact List.forall_mem_cons.2 ⟨Expr.readable e h.1, Expr.all_readable rest h.2⟩

end

end Interleave.Tree
