import Interleave.Proofs.Tree.Order
import Interleave.Proofs.Tree.Printer

set_option autoImplicit false

/-! `Reader.Takes` says which tokens a reader takes and what it gives. It depends on the kinds of
the tokens and on the kind of the token after them, never on where they stand, so it can be proved
for each construct from its parts. -/

namespace Interleave

def TokenKind.reach : TokenKind → Nat
  | .sign .either => 1
  | .sign .both => 2
  | .sign .eq | .sign .ne | .sign .lt | .sign .le | .sign .gt | .sign .ge => 3
  | .sign .plus | .sign .minus => 4
  | .sign .star | .sign .slash | .sign .percent => 5
  | .sign .dot | .sign .openBracket => 7
  | .sign .openParen => 8
  | _ => 0

theorem BinOp.level_le (op : BinOp) : op.level ≤ 4 := by
  cases op <;> decide

namespace Tree

namespace Reader

variable {α β γ : Type} {x : Reader α} {y : Reader γ} {k : TokenKind} {ks ks' : List TokenKind}
  {stop stop' : Option TokenKind → Prop} {q : α → Prop} {r : β → Prop} {z : β → Reader γ}

/-- On tokens of the kinds `ks` before a token that `stop` allows, the reader takes these tokens and
goes on as `z` does from something that satisfies `r`. -/
def Leads (y : Reader γ) (ks : List TokenKind) (stop : Option TokenKind → Prop) (z : β → Reader γ)
    (r : β → Prop) : Prop :=
  ∀ front back last, front.map Token.kind = ks → stop (back.head?.map Token.kind) →
    ∃ b last', y ⟨front ++ back, last⟩ = z b ⟨back, last'⟩ ∧ r b

/-- On tokens of the kinds `ks` before a token that `stop` allows, the reader takes these tokens and
gives something that satisfies `q`. -/
def Takes (x : Reader α) (ks : List TokenKind) (stop : Option TokenKind → Prop) (q : α → Prop) :
    Prop := Leads x ks stop Pure.pure q

theorem Leads.done {b : β} (h : r b) : Leads (z b) [] stop z r := by
  intro front back last hfront _
  obtain rfl := List.map_eq_nil_iff.1 hfront
  exact ⟨b, last, rfl, h⟩

theorem Takes.pure {a : α} (h : q a) : Takes (Pure.pure a) [] stop q := Leads.done h

theorem Takes.before (h : x.Takes ks stop q) (hstop : ∀ next, stop' next → stop next) :
    x.Takes ks stop' q :=
  fun front back last hfront hback => h front back last hfront (hstop _ hback)

def firstKind (ks : List TokenKind) (next : Option TokenKind) : Option TokenKind := ks.head?.or next

theorem head?_append {front back : List Token} (h : front.map Token.kind = ks) :
    (front ++ back).head?.map Token.kind = firstKind ks (back.head?.map Token.kind) := by
  subst h
  cases front with
  | nil => rfl
  | cons token front => rfl

theorem Leads.trans {δ : Type} {z' : δ → Reader γ} {r' : δ → Prop} (hy : y.Leads ks stop z r)
    (hz : ∀ b, r b → (z b).Leads ks' stop' z' r')
    (hstop : ∀ next, stop' next → stop (firstKind ks' next)) : y.Leads (ks ++ ks') stop' z' r' := by
  intro front back last hfront hback
  obtain ⟨first, second, rfl, hfirst, hsecond⟩ := List.map_eq_append_iff.1 hfront
  obtain ⟨b, last₁, hyb, hb⟩ := hy first (second ++ back) last hfirst
    (by rw [head?_append hsecond]; exact hstop _ hback)
  obtain ⟨d, last₂, hzd, hd⟩ := hz b hb second back last₁ hsecond hback
  exact ⟨d, last₂, by rw [List.append_assoc, hyb, hzd], hd⟩

theorem Takes.leads {g : α → β} (hx : x.Takes ks stop q) (hq : ∀ a, q a → r (g a)) :
    (x >>= fun a => z (g a)).Leads ks stop z r := by
  intro front back last hfront hback
  obtain ⟨a, last', hxa, ha⟩ := hx front back last hfront hback
  exact ⟨g a, last', bind_run hxa _, hq a ha⟩

theorem Takes.bind {f : α → Reader γ} (hx : x.Takes ks stop q)
    (hf : ∀ a, q a → (f a).Leads ks' stop' z r)
    (hstop : ∀ next, stop' next → stop (firstKind ks' next)) :
    (x >>= f).Leads (ks ++ ks') stop' z r := (hx.leads fun _ ha => ha).trans hf hstop

theorem Takes.map {g : α → β} (hx : x.Takes ks stop q) (hq : ∀ a, q a → r (g a)) :
    Takes (do return g (← x)) ks stop r := hx.leads hq

theorem Leads.look {a : α} {g : Cursor → α} {f : α → Reader γ}
    (ha : ∀ front back last, front.map Token.kind = ks → g ⟨front ++ back, last⟩ = a)
    (hf : (f a).Leads ks stop z r) : Leads ((do return g (← get)) >>= f) ks stop z r := by
  intro front back last hfront hback
  obtain ⟨b, last', hfb, hb⟩ := hf front back last hfront hback
  rw [← ha front back last hfront] at hfb
  exact ⟨b, last', hfb, hb⟩

theorem Leads.peek {f : Option TokenKind → Reader γ} (hf : (f (some k)).Leads (k :: ks) stop z r) :
    (Reader.peek >>= f).Leads (k :: ks) stop z r := by
  refine .look (fun front back last hfront => ?_) hf
  cases front with
  | nil => cases hfront
  | cons token front => exact congrArg some (List.cons.inj hfront).1

theorem Leads.peekOf {f : Option TokenKind → Reader γ} (hks : ks.head? = some k)
    (hf : (f (some k)).Leads ks stop z r) : (Reader.peek >>= f).Leads ks stop z r := by
  obtain ⟨rest, rfl⟩ := List.head?_eq_some_iff.1 hks
  exact .peek hf

theorem Leads.lookAny {g : Cursor → α} {f : α → Reader γ} (hf : ∀ a, (f a).Leads ks stop z r) :
    Leads ((do return g (← get)) >>= f) ks stop z r :=
  fun front back last hfront hback => hf _ front back last hfront hback

theorem Leads.peekEnd {f : Option TokenKind → Reader γ}
    (hf : ∀ next, stop next → (f next).Leads [] stop z r) :
    (Reader.peek >>= f).Leads [] stop z r := by
  intro front back last hfront hback
  obtain rfl := List.map_eq_nil_iff.1 hfront
  exact hf _ hback [] back last rfl hback

theorem Leads.peekSecond {k' : TokenKind} {f : Option TokenKind → Reader γ}
    (hf : (f (some k')).Leads (k :: k' :: ks) stop z r) :
    (Reader.peekSecond >>= f).Leads (k :: k' :: ks) stop z r := by
  refine .look (fun front back last hfront => ?_) hf
  match front, hfront with
  | token :: token' :: front, hfront =>
    exact congrArg some (List.cons.inj (List.cons.inj hfront).2).1

theorem Leads.peekSpan {f : Option Span → Reader γ} (hks : ks ≠ [])
    (hf : ∀ span, (f (some span)).Leads ks stop z r) : (Reader.peekSpan >>= f).Leads ks stop z r := by
  intro front back last hfront hback
  cases front with
  | nil => exact absurd hfront.symm hks
  | cons token front => exact hf token.span _ back last hfront hback

theorem Leads.remaining {f : Nat → Reader γ}
    (hf : ∀ n, ks.length ≤ n → (f n).Leads ks stop z r) :
    (Reader.remaining >>= f).Leads ks stop z r := by
  intro front back last hfront hback
  have hlength : ks.length ≤ (front ++ back).length := by
    rw [← hfront, List.length_map, List.length_append]
    exact Nat.le_add_right _ _
  exact hf _ hlength front back last hfront hback

theorem Leads.next {f : Option Token → Reader γ}
    (hf : ∀ span, (f (some ⟨k, span⟩)).Leads ks stop z r) :
    (Reader.next >>= f).Leads (k :: ks) stop z r := by
  intro front back last hfront hback
  cases front with
  | nil => cases hfront
  | cons token front =>
    obtain ⟨rfl, hrest⟩ := List.cons.inj hfront
    exact hf token.span front back (some token.span) hrest hback

theorem Leads.accept {f : Bool → Reader γ} (hf : (f true).Leads ks stop z r) :
    (Reader.accept k >>= f).Leads (k :: ks) stop z r := by
  unfold Reader.accept
  rw [bind_assoc]
  refine .peek ?_
  rw [if_pos rfl, bind_assoc]
  exact .next fun _ => hf

theorem Leads.skip {k' : TokenKind} {f : Bool → Reader γ} (hk : k' ≠ k)
    (hf : (f false).Leads (k' :: ks) stop z r) :
    (Reader.accept k >>= f).Leads (k' :: ks) stop z r := by
  unfold Reader.accept
  rw [bind_assoc]
  refine .peek ?_
  rw [if_neg (fun h => hk (Option.some.inj h))]
  exact hf

theorem Leads.skipOf {k' : TokenKind} {f : Bool → Reader γ} (hks : ks.head? = some k') (hk : k' ≠ k)
    (hf : (f false).Leads ks stop z r) : (Reader.accept k >>= f).Leads ks stop z r := by
  obtain ⟨rest, rfl⟩ := List.head?_eq_some_iff.1 hks
  exact .skip hk hf

theorem Leads.skipEnd {f : Bool → Reader γ} (hk : ¬ stop (some k))
    (hf : (f false).Leads [] stop z r) : (Reader.accept k >>= f).Leads [] stop z r := by
  unfold Reader.accept
  rw [bind_assoc]
  refine .peekEnd fun next hnext => ?_
  have hne : next ≠ some k := by
    rintro rfl
    exact hk hnext
  rw [if_neg hne]
  exact hf

theorem Leads.expectSign {s : Sign} {what : Expected} {f : Unit → Reader γ}
    (hf : (f ()).Leads ks stop z r) :
    (Reader.expectSign s what >>= f).Leads (.sign s :: ks) stop z r := by
  unfold Reader.expectSign Reader.acceptSign
  rw [bind_assoc]
  exact .accept hf

theorem Leads.expectWord {text : String} {what : Expected} {f : Located String → Reader γ}
    (hf : ∀ span, (f ⟨text, span⟩).Leads ks stop z r) :
    (Reader.expectWord what >>= f).Leads (.word text :: ks) stop z r := by
  unfold Reader.expectWord
  rw [bind_assoc]
  exact .next hf

theorem Leads.expectLineEnd {f : Unit → Reader γ} (hf : (f ()).Leads ks stop z r) :
    (Reader.expectLineEnd >>= f).Leads (.newline :: ks) stop z r := by
  unfold Reader.expectLineEnd
  rw [bind_assoc]
  exact .accept hf

theorem Leads.skipLineEnds {f : Unit → Reader γ} (hks : ks.head? = some k) (hk : k ≠ .newline)
    (hf : (f ()).Leads ks stop z r) : (Reader.skipLineEnds >>= f).Leads ks stop z r := by
  intro front back last hfront hback
  have hstays : dropLineEnds (front ++ back) last = ⟨front ++ back, last⟩ := by
    subst hfront
    match front, hks with
    | ⟨kind, span⟩ :: front, hks =>
      obtain rfl : kind = k := Option.some.inj hks
      exact dropLineEnds.eq_2 _ _ fun span' rest heq => hk (Token.mk.inj (List.cons.inj heq).1).1
  obtain ⟨b, last', hfb, hb⟩ := hf front back last hfront hback
  rw [← hstays] at hfb
  exact ⟨b, last', hfb, hb⟩

/-- A loop that takes an item in each of its rounds and ends after the last one: what one round does
to what is read so far, all of them do one after the other. -/
theorem Leads.loop {ι : Type} (loop : Nat → α → Reader γ) (tokens : ι → List TokenKind)
    (push : α → ι → α) (same : α → α → Prop) {items : List ι} (hne : ∀ i ∈ items, tokens i ≠ [])
    (hround : ∀ i ∈ items, ∀ fuel a a', same a a' →
      (loop (fuel + 1) a).Leads (tokens i) (fun _ => True) (loop fuel) (same · (push a' i)))
    {a a' : α} (h : same a a')
    (hend : ∀ fuel b, same b (items.foldl push a') → (loop (fuel + 1) b).Leads ks stop z r)
    {fuel : Nat} (hfuel : (items.flatMap tokens).length < fuel) :
    (loop fuel a).Leads (items.flatMap tokens ++ ks) stop z r := by
  obtain ⟨fuel, rfl⟩ : ∃ n, fuel = n + 1 := ⟨fuel - 1, by omega⟩
  induction items generalizing a a' fuel with
  | nil => exact hend fuel a h
  | cons i items ih =>
    rw [List.forall_mem_cons] at hne hround
    have hpos := List.length_pos_iff.2 hne.1
    rw [List.flatMap_cons, List.length_append] at hfuel
    obtain ⟨fuel, rfl⟩ : ∃ n, fuel = n + 1 := ⟨fuel - 1, by omega⟩
    rw [List.flatMap_cons, List.append_assoc]
    exact (hround.1 (fuel + 1) a a' h).trans
      (fun b hb => ih hne.2 hround.2 hb hend fuel (by omega)) fun _ _ => trivial

/-- On tokens of the kinds `ks` the reader comes to a loop that has taken them, with something that
satisfies `q` so far and fuel for all the tokens that are left. -/
def Continues (x : Reader α) (ks : List TokenKind) (stop : Option TokenKind → Prop)
    (loop : Nat → α → Reader α) (q : α → Prop) : Prop :=
  ∀ front back last, front.map Token.kind = ks → stop (back.head?.map Token.kind) →
    ∃ a last' fuel, back.length ≤ fuel ∧ q a ∧ x ⟨front ++ back, last⟩ = loop fuel a ⟨back, last'⟩

section Continues

variable {loop : Nat → α → Reader α} {q' : α → Prop}

theorem Takes.continues (hx : x.Takes ks stop q) :
    (x >>= fun a => Reader.remaining >>= fun n => loop n a).Continues ks stop loop q := by
  intro front back last hfront hback
  obtain ⟨a, last', hxa, ha⟩ := hx front back last hfront hback
  refine ⟨a, last', back.length, Nat.le_refl _, ha, ?_⟩
  rw [bind_run hxa]
  rfl

theorem Continues.round (hx : x.Continues ks stop loop q)
    (hloop : ∀ fuel a, q a → (loop (fuel + 1) a).Leads (k :: ks') stop' (loop fuel) q')
    (hstop : stop (some k)) : x.Continues (ks ++ k :: ks') stop' loop q' := by
  intro front back last hfront hback
  obtain ⟨first, second, rfl, hfirst, hsecond⟩ := List.map_eq_append_iff.1 hfront
  obtain ⟨a, last₁, fuel, hfuel, ha, hxa⟩ := hx first (second ++ back) last hfirst
    (by rw [head?_append hsecond]; exact hstop)
  have hlength : second.length = ks'.length + 1 := by
    rw [← List.length_map, hsecond, List.length_cons]
  rw [List.length_append, hlength] at hfuel
  obtain ⟨fuel, rfl⟩ : ∃ n, fuel = n + 1 := ⟨fuel - 1, by omega⟩
  obtain ⟨a', last₂, hround, ha'⟩ := hloop fuel a ha second back last₁ hsecond hback
  refine ⟨a', last₂, fuel, by omega, ha', ?_⟩
  rw [List.append_assoc, hxa, hround]

theorem Continues.takes (hx : x.Continues ks stop loop q)
    (hloop : ∀ fuel a, (loop fuel a).Takes [] stop' (· = a))
    (hstop : ∀ next, stop' next → stop next) : x.Takes ks stop' q := by
  intro front back last hfront hback
  obtain ⟨a, last₁, fuel, _, ha, hxa⟩ := hx front back last hfront (hstop _ hback)
  obtain ⟨b, last₂, hb, rfl⟩ := hloop fuel a [] back last₁ rfl hback
  refine ⟨b, last₂, ?_, ha⟩
  rw [hxa]
  exact hb

end Continues

end Reader

open Reader

def Stops (level : Nat) (next : Option TokenKind) : Prop := next.elim 0 TokenKind.reach ≤ level

instance (level : Nat) : DecidablePred (Stops level) :=
  fun _ => inferInstanceAs (Decidable (_ ≤ _))

def opAt : Nat → Sign → Option BinOp
  | 0 => orOp?
  | 1 => andOp?
  | 2 => comparison?
  | 3 => sumOp?
  | 4 => productOp?
  | _ => fun _ => none

theorem opAt_level (op : BinOp) : opAt op.level op.asSign = some op := by
  cases op <;> rfl

theorem reach_of_opAt {level : Nat} {s : Sign} {op : BinOp} (h : opAt level s = some op) :
    (TokenKind.sign s).reach = level + 1 := by
  match level with
  | 0 | 1 | 2 | 3 | 4 => cases s <;> cases h <;> rfl
  | _ + 5 => cases h

theorem opAt_eq_none {level : Nat} {s : Sign} (h : Stops level (some (.sign s))) :
    opAt level s = none := by
  refine Option.eq_none_iff_forall_ne_some.2 fun op hop => ?_
  have hreach : (TokenKind.sign s).reach ≤ level := h
  rw [reach_of_opAt hop] at hreach
  omega

theorem stops_of_opAt {level : Nat} {s : Sign} {op : BinOp} (h : opAt level s = some op) :
    Stops (level + 1) (some (.sign s)) := Nat.le_of_eq (reach_of_opAt h)

theorem Expr.tokensOf_length (es : List Expr) : (Expr.tokensOf es).length = es.length := by
  induction es with
  | nil => rfl
  | cons e es ih => rw [Expr.tokensOf, List.length_cons, List.length_cons, ih]

structure Expr.StartsWith (e : Expr) (k : TokenKind) : Prop where
  ne_sign : ∀ s, k = .sign s → s = .openParen ∨ s = .bang ∨ s = .minus
  unsigned : 6 ≤ e.level → k ≠ .sign .bang ∧ k ≠ .sign .minus
  ne_int : 5 ≤ e.level → e.isInt = false → ∀ n, k ≠ .int n
  ne_keyword : ∀ text, k = .word text → text = "null" ∨ text ∉ keywords

theorem Expr.StartsWith.openParen (e : Expr) : e.StartsWith (.sign .openParen) :=
  ⟨fun _ h => .inl (TokenKind.sign.inj h).symm, fun _ => by decide, fun _ _ => by simp, by simp⟩

theorem Expr.StartsWith.word (e : Expr) {text : String} (h : text = "null" ∨ text ∉ keywords) :
    e.StartsWith (.word text) :=
  ⟨by simp, fun _ => by simp, fun _ _ => by simp, fun _ heq => TokenKind.word.inj heq ▸ h⟩

theorem not_mem_keywords {n : Name} (h : isName n = true) : n.value ∉ keywords := by
  simp only [isName, Bool.and_eq_true, decide_eq_true_eq] at h
  exact h.2

theorem parenthesize_start {e base : Expr} {rest : List TokenKind}
    (h : ∃ k rest, base.tokens = k :: rest ∧ base.StartsWith k) :
    ∃ k rest', parenthesize (base.level < 6 || base.isInt) base.tokens ++ rest = k :: rest' ∧
      e.StartsWith k := by
  unfold parenthesize
  split
  · exact ⟨_, _, rfl, .openParen e⟩
  · next hbare =>
    obtain ⟨k, more, htokens, hk⟩ := h
    simp only [Bool.or_eq_true, decide_eq_true_eq, not_or, Nat.not_lt, Bool.not_eq_true] at hbare
    refine ⟨k, more ++ rest, by rw [htokens]; rfl, hk.ne_sign, fun _ => hk.unsigned hbare.1,
      fun _ _ => hk.ne_int (by omega) hbare.2, hk.ne_keyword⟩

theorem Expr.tokens_start (e : Expr) (h : e.isPrintable = true) :
    ∃ k rest, e.tokens = k :: rest ∧ e.StartsWith k := by
  cases e with
  | int value =>
    rw [Expr.tokens, literal]
    split
    · next hneg =>
      refine ⟨_, _, rfl, by simp, fun hlevel => ?_, fun _ hint => (by cases hint), by simp⟩
      simp [Expr.level, hneg] at hlevel
    · exact ⟨_, _, rfl, by simp, fun _ => by simp, fun _ hint => (by cases hint), by simp⟩
  | null => exact ⟨_, _, rfl, .word _ (.inl rfl)⟩
  | name n =>
    rw [Expr.isPrintable] at h
    exact ⟨_, _, rfl, .word _ (.inr (not_mem_keywords h))⟩
  | call function args =>
    rw [Expr.isPrintable, Bool.and_eq_true] at h
    exact ⟨_, _, rfl, .word _ (.inr (not_mem_keywords h.1))⟩
  | member object n | index object n =>
    rw [Expr.isPrintable, Bool.and_eq_true] at h
    exact parenthesize_start (Expr.tokens_start object h.1)
  | unary op operand =>
    refine ⟨_, _, rfl, ?_, fun hlevel => by simp [Expr.level] at hlevel, fun _ _ => by simp, by simp⟩
    cases op <;> simp [UnOp.asSign]
  | binary op left right =>
    have hlevel : (Expr.binary op left right).level ≤ 4 := op.level_le
    rw [Expr.isPrintable, Bool.and_eq_true] at h
    obtain ⟨k, rest, htokens, hk⟩ := Expr.tokens_start left h.1
    rw [Expr.tokens, parenthesize]
    split
    · exact ⟨_, _, rfl, .openParen _⟩
    · refine ⟨k, _, by rw [htokens]; rfl, hk.ne_sign, fun _ => by omega, fun _ => by omega,
        hk.ne_keyword⟩

section Levels

variable {op? : Sign → Option BinOp} {operand expr : Reader Expr} {ks ks' : List TokenKind}
  {stop : Option TokenKind → Prop} {q q' r : Expr → Prop}

theorem Stops.mono {level level' : Nat} (hle : level ≤ level') (next : Option TokenKind)
    (h : Stops level next) : Stops level' next := Nat.le_trans h hle

theorem Leads.acceptOp {β γ : Type} {r : β → Prop} {z : β → Reader γ}
    {f : Option BinOp → Reader γ} {s : Sign} {op : BinOp} (hop : op? s = some op)
    (hf : (f (some op)).Leads ks stop z r) :
    (Tree.acceptOp op? >>= f).Leads (.sign s :: ks) stop z r := by
  unfold Tree.acceptOp
  rw [bind_assoc]
  refine .peek ?_
  simp only [hop, bind_assoc]
  exact .next fun _ => hf

theorem Leads.acceptOpEnd {β γ : Type} {r : β → Prop} {z : β → Reader γ}
    {f : Option BinOp → Reader γ} (hop : ∀ s, stop (some (.sign s)) → op? s = none)
    (hf : (f none).Leads [] stop z r) : (Tree.acceptOp op? >>= f).Leads [] stop z r := by
  unfold Tree.acceptOp
  rw [bind_assoc]
  refine .peekEnd fun next hnext => ?_
  split
  · next s =>
    simp only [hop s hnext]
    exact hf
  · exact hf

theorem moreOperands_takes (hop : ∀ s, stop (some (.sign s)) → op? s = none) (fuel : Nat)
    (left : Expr) : (moreOperands op? operand fuel left).Takes [] stop (· = left) := by
  cases fuel with
  | zero => exact .pure rfl
  | succ fuel => exact Leads.acceptOpEnd hop (Takes.pure rfl)

theorem chain_round {s : Sign} {op : BinOp} (hop : op? s = some op) (hstop : stop (some (.sign s)))
    (hleft : (chain op? operand).Continues ks stop (moreOperands op? operand) q)
    (hright : operand.Takes ks' stop q')
    (hr : ∀ left right, q left → q' right → r (.binary op left right)) :
    (chain op? operand).Continues (ks ++ .sign s :: ks') stop (moreOperands op? operand) r := by
  refine hleft.round (fun fuel left hq => ?_) hstop
  rw [moreOperands]
  exact Leads.acceptOp hop (hright.leads fun right hq' => hr left right hq hq')

theorem comparison_alone (h : operand.Takes ks (Stops 3) q) :
    (comparison operand).Takes ks (Stops 2) q := by
  have hall : (comparison operand).Takes (ks ++ []) (Stops 2) q :=
    h.bind (fun left hleft => Leads.acceptOpEnd (fun s hs => opAt_eq_none hs) (Takes.pure hleft))
      (Stops.mono (by decide))
  rwa [List.append_nil] at hall

theorem comparison_both {s : Sign} {op : BinOp} (hop : opAt 2 s = some op)
    (hleft : operand.Takes ks (Stops 3) q) (hright : operand.Takes ks' (Stops 3) q')
    (hr : ∀ left right, q left → q' right → r (.binary op left right)) :
    (comparison operand).Takes (ks ++ .sign s :: ks') (Stops 2) r := by
  refine hleft.bind (fun left hq => Leads.acceptOp hop ?_) fun _ _ => stops_of_opAt hop
  exact (hright.before (Stops.mono (by decide))).map fun right hq' => hr left right hq hq'

theorem moreSelectors_takes (fuel : Nat) (base : Expr) :
    (moreSelectors expr fuel base).Takes [] (Stops 6) (· = base) := by
  cases fuel with
  | zero => exact .pure rfl
  | succ fuel => exact Leads.skipEnd (by decide) (.skipEnd (by decide) (Takes.pure rfl))

theorem selection_member (hbase : (selection expr).Continues ks (Stops 7) (moreSelectors expr) q)
    {text : String} (hr : ∀ object span, q object → r (.member object ⟨text, span⟩)) :
    (selection expr).Continues (ks ++ [.sign .dot, .word text]) (Stops 7) (moreSelectors expr) r := by
  refine hbase.round (fun fuel base hq => ?_) (by decide)
  rw [moreSelectors]
  exact Leads.accept (.expectWord fun span => .done (hr base span hq))

theorem selection_index (hbase : (selection expr).Continues ks (Stops 7) (moreSelectors expr) q)
    (hindex : expr.Takes ks' (Stops 0) q') (hr : ∀ array i, q array → q' i → r (.index array i)) :
    (selection expr).Continues (ks ++ .sign .openBracket :: (ks' ++ [.sign .closeBracket]))
      (Stops 7) (moreSelectors expr) r := by
  refine hbase.round (fun fuel base hq => ?_) (by decide)
  rw [moreSelectors]
  refine Leads.skip (by decide) (.accept ?_)
  exact hindex.bind (fun i hi => .expectSign (.done (hr base i hq hi))) fun _ _ => Nat.le_refl 0

theorem atom_int {n : Nat} (hr : r (.int (.ofNat n))) : (atom expr).Takes [.int n] stop r :=
  Leads.next fun _ => Takes.pure hr

theorem atom_null (hr : r .null) : (atom expr).Takes [.word "null"] stop r :=
  Leads.next fun _ => Takes.pure hr

theorem atom_paren (h : expr.Takes ks (Stops 0) q) :
    (atom expr).Takes (.sign .openParen :: (ks ++ [.sign .closeParen])) stop q := by
  refine Leads.next fun span => ?_
  exact h.bind (fun e he => .expectSign (Takes.pure he)) fun _ _ => Nat.le_refl 0

theorem atom_word {text : String} (htext : text ∉ keywords)
    (h : ∀ span, Takes (do
      if ← acceptSign .openParen then
        return Expr.call ⟨text, span⟩ (← args expr)
      else
        return Expr.name ⟨text, span⟩) ks stop q) :
    (atom expr).Takes (.word text :: ks) stop q := by
  refine Leads.next fun span => ?_
  split
  · next heq => cases heq
  · next heq =>
    cases heq
    exact absurd (by decide) htext
  · next heq =>
    cases heq
    exact absurd (by decide) htext
  · next heq =>
    cases heq
    exact absurd (by decide) htext
  · next heq =>
    cases heq
    exact h _
  · next heq => cases heq
  · next hword _ => exact (hword _ _ rfl).elim

theorem atom_name {text : String} (htext : text ∉ keywords) (hr : ∀ span, r (.name ⟨text, span⟩)) :
    (atom expr).Takes [.word text] (Stops 7) r :=
  atom_word htext fun span => Leads.skipEnd (by decide) (Takes.pure (hr span))

theorem moreArgs_takes {e : Expr} {es : List Expr}
    (h : ∀ a ∈ e :: es, expr.Takes a.tokens (Stops 0) fun a' => a'.erase = a.erase) {fuel : Nat}
    (hfuel : es.length < fuel) :
    (moreArgs expr fuel).Takes
      (commaSeparated (Expr.tokensOf (e :: es)) ++ [.sign .closeParen]) stop
      fun es' => Expr.eraseAll es' = Expr.eraseAll (e :: es) := by
  obtain ⟨fuel, rfl⟩ : ∃ n, fuel = n + 1 := ⟨fuel - 1, by omega⟩
  induction es generalizing e fuel with
  | nil =>
    rw [moreArgs]
    refine (h e List.mem_cons_self).bind (fun e' he' => .accept (Takes.pure ?_)) fun _ _ => ?_
    · simp [Expr.eraseAll, he']
    · exact Nat.le_refl 0
  | cons e₂ es ih =>
    rw [List.forall_mem_cons] at h
    rw [List.length_cons] at hfuel
    obtain ⟨fuel, rfl⟩ : ∃ n, fuel = n + 1 := ⟨fuel - 1, by omega⟩
    have hmore := ih h.2 fuel (by omega)
    rw [moreArgs, Expr.tokensOf, Expr.tokensOf, commaSeparated, List.append_assoc]
    refine h.1.bind (fun e' he' => .skip (by decide) (.expectSign ?_)) fun _ _ => Nat.le_refl 0
    refine hmore.map fun es' hes' => ?_
    simp only [Expr.eraseAll] at hes' ⊢
    rw [he', hes']

theorem length_le_commaSeparated (kss : List (List TokenKind)) :
    kss.length ≤ (commaSeparated kss).length + 1 := by
  fun_induction commaSeparated kss with
  | case1 => simp
  | case2 => simp
  | case3 ks ks' rest ih =>
    simp only [List.length_cons, List.length_append] at ih ⊢
    omega

theorem args_takes {es : List Expr}
    (hstart : ∀ e ∈ es, ∃ k rest, e.tokens = k :: rest ∧ e.StartsWith k)
    (h : ∀ e ∈ es, expr.Takes e.tokens (Stops 0) fun e' => e'.erase = e.erase) :
    (args expr).Takes (commaSeparated (Expr.tokensOf es) ++ [.sign .closeParen]) stop
      fun es' => Expr.eraseAll es' = Expr.eraseAll es := by
  cases es with
  | nil => exact Leads.accept (Takes.pure rfl)
  | cons e es =>
    obtain ⟨k, rest, htokens, hk⟩ := hstart e List.mem_cons_self
    have hclose : k ≠ .sign .closeParen := fun heq => by simpa using hk.ne_sign _ heq
    have hfirst : (commaSeparated (Expr.tokensOf (e :: es)) ++ [TokenKind.sign .closeParen]).head? =
        some k := by
      cases es <;> simp [Expr.tokensOf, commaSeparated, htokens]
    refine Leads.skipOf hfirst hclose (.remaining fun n hn => moreArgs_takes h ?_)
    have hlength := length_le_commaSeparated (Expr.tokensOf (e :: es))
    rw [List.length_append, List.length_singleton] at hn
    rw [Expr.tokensOf_length, List.length_cons] at hlength
    omega

theorem atom_call {text : String} (htext : text ∉ keywords) {es : List Expr}
    (hstart : ∀ e ∈ es, ∃ k rest, e.tokens = k :: rest ∧ e.StartsWith k)
    (h : ∀ e ∈ es, expr.Takes e.tokens (Stops 0) fun e' => e'.erase = e.erase)
    (hr : ∀ span es', Expr.eraseAll es' = Expr.eraseAll es → r (.call ⟨text, span⟩ es')) :
    (atom expr).Takes (.word text :: .sign .openParen ::
      (commaSeparated (Expr.tokensOf es) ++ [.sign .closeParen])) stop r := by
  refine atom_word htext fun span => Leads.accept ?_
  exact (args_takes hstart h).map fun es' hes' => hr span es' hes'

theorem signed_bare (h : operand.Takes ks stop q) {k : TokenKind} (hks : ks.head? = some k)
    (hk : k ≠ .sign .bang ∧ k ≠ .sign .minus) (fuel : Nat) :
    (signed operand fuel).Takes ks stop q := by
  cases fuel with
  | zero => exact h
  | succ fuel => exact Leads.skipOf hks hk.1 (.skipOf hks hk.2 h)

theorem signed_literal {n : Nat} (hr : r (.int (-.ofNat n))) (fuel : Nat) :
    (signed operand (fuel + 1)).Takes [.sign .minus, .int n] stop r :=
  Leads.skip (by decide) (.accept (.peek (.next fun _ => Takes.pure hr)))

theorem signed_not {fuel : Nat} (h : (signed operand fuel).Takes ks stop q)
    (hr : ∀ e, q e → r (.unary .not e)) :
    (signed operand (fuel + 1)).Takes (.sign .bang :: ks) stop r := Leads.accept (h.map hr)

theorem signed_neg {fuel : Nat} (h : (signed operand fuel).Takes ks stop q) {k : TokenKind}
    (hks : ks.head? = some k) (hk : ∀ n, k ≠ .int n) (hr : ∀ e, q e → r (.unary .neg e)) :
    (signed operand (fuel + 1)).Takes (.sign .minus :: ks) stop r := by
  refine Leads.skip (by decide) (.accept ?_)
  obtain ⟨rest, rfl⟩ := List.head?_eq_some_iff.1 hks
  refine .peek ?_
  split
  · next heq => exact absurd (Option.some.inj heq) (hk _)
  · exact h.map hr

def factor (expr : Reader Expr) : Reader Expr := do signed (selection expr) (← remaining)

def readerAt (expr : Reader Expr) : Nat → Reader Expr
  | 0 => levels expr
  | 1 => chain andOp? (comparison (chain sumOp? (chain productOp? (factor expr))))
  | 2 => comparison (chain sumOp? (chain productOp? (factor expr)))
  | 3 => chain sumOp? (chain productOp? (factor expr))
  | 4 => chain productOp? (factor expr)
  | 5 => factor expr
  | 6 => selection expr
  | _ => atom expr

/-- Tokens that are read as an operand of a level, so that another operand can follow. -/
def Chains (expr : Reader Expr) (level : Nat) (ks : List TokenKind) (q : Expr → Prop) : Prop :=
  (chain (opAt level) (readerAt expr (level + 1))).Continues ks (Stops (level + 1))
    (moreOperands (opAt level) (readerAt expr (level + 1))) q

theorem Chains.takes {level : Nat} (h : Chains expr level ks q) :
    (chain (opAt level) (readerAt expr (level + 1))).Takes ks (Stops level) q :=
  Continues.takes h (moreOperands_takes fun _ hs => opAt_eq_none hs) (Stops.mono (Nat.le_succ level))

/-- Tokens that are read as an expression of a level, in whatever way the reader of that level
repeats itself. -/
def Forms (expr : Reader Expr) (ks : List TokenKind) (q : Expr → Prop) : Nat → Prop
  | 0 => Chains expr 0 ks q
  | 1 => Chains expr 1 ks q
  | 2 => (readerAt expr 2).Takes ks (Stops 2) q
  | 3 => Chains expr 3 ks q
  | 4 => Chains expr 4 ks q
  | 5 => ∀ fuel, ks.length ≤ fuel → (signed (selection expr) fuel).Takes ks (Stops 5) q
  | 6 => (selection expr).Continues ks (Stops 7) (moreSelectors expr) q
  | _ => (atom expr).Takes ks (Stops 7) q

theorem Forms.takes {level : Nat} (hlevel : level ≤ 7) (h : Forms expr ks q level) :
    (readerAt expr level).Takes ks (Stops level) q := by
  match level, hlevel with
  | 0, _ | 1, _ | 3, _ | 4, _ => exact Chains.takes h
  | 2, _ => exact h
  | 5, _ => exact Leads.remaining h
  | 6, _ => exact Continues.takes h moreSelectors_takes (Stops.mono (by decide))
  | 7, _ => exact h

/-- What is read at a level is read at the level below, where only a prefix sign is in the way. -/
theorem Forms.down {level : Nat} (hlevel : level < 7) (h : Forms expr ks q (level + 1))
    (hks : level = 5 → ∃ k, ks.head? = some k ∧ k ≠ .sign .bang ∧ k ≠ .sign .minus) :
    Forms expr ks q level := by
  have htakes := h.takes hlevel
  match level, hlevel with
  | 0, _ | 1, _ | 3, _ | 4, _ | 6, _ => exact Takes.continues htakes
  | 2, _ => exact comparison_alone htakes
  | 5, _ =>
    obtain ⟨k, hfirst, hk⟩ := hks rfl
    exact fun fuel _ => signed_bare (htakes.before (Stops.mono (by decide))) hfirst hk fuel

theorem Forms.of_le {level level' : Nat} (hlevel' : level' ≤ 7) (h : Forms expr ks q level')
    (hle : level ≤ level')
    (hks : level ≤ 5 → 6 ≤ level' →
      ∃ k, ks.head? = some k ∧ k ≠ .sign .bang ∧ k ≠ .sign .minus) :
    Forms expr ks q level := by
  obtain ⟨d, rfl⟩ := Nat.exists_eq_add_of_le hle
  induction d with
  | zero => exact h
  | succ d ih =>
    refine ih (by omega) (h.down (by omega) fun h5 => hks (by omega) (by omega)) (by omega)
      fun h5 h6 => hks h5 (by omega)

end Levels

end Tree

end Interleave
