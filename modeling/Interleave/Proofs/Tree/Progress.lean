import Interleave.Proofs.Tree.Shape

set_option autoImplicit false

/-! Reading comes to an end on every list of tokens, also on one without the mark of its end. Each
round of a loop takes a token or is the last one, and an expression is only read inside another one
where fewer tokens are left, so the bounds of the loops and of the nesting never cut a reading short. -/

namespace Interleave.Tree

namespace Reader

/-- What a round does at a cursor, whatever the bound on later rounds: it ends the loop, or it takes
at least `d` tokens and the next round begins. -/
def RoundAt {σ α : Type} (loop : Nat → σ → Reader α) (d : Nat) (x : Nat → Reader α)
    (c : Cursor) : Prop :=
  (∃ result, ∀ fuel, x fuel c = result) ∨
    ∃ s c' g, c'.rest.length + d ≤ c.rest.length ∧ ∀ fuel, x fuel c = (g <$> loop fuel s) c'

structure Advances {σ α : Type} (loop : Nat → σ → Reader α) : Prop where
  round : ∀ s c, RoundAt loop 1 (fun fuel => loop (fuel + 1) s) c
  enough : ∀ s c fuel, c.rest.length ≤ fuel → loop fuel s c = loop c.rest.length s c

theorem Looks.consumes {α : Type} {x : Reader α} (h : Looks x) : Consumes x := by
  intro c a c' hx
  obtain rfl := h c a c' hx
  exact List.suffix_rfl

section Rounds

variable {σ α β : Type} {loop : Nat → σ → Reader α} {d : Nat} {c c' : Cursor} {x y : Nat → Reader α}

theorem RoundAt.stop (x : Reader α) : RoundAt loop d (fun _ => x) c := .inl ⟨x c, fun _ => rfl⟩

theorem RoundAt.go (s : σ) : RoundAt loop 0 (fun fuel => loop fuel s) c :=
  .inr ⟨s, c, id, Nat.le_refl _, fun fuel => by rw [id_map]⟩

theorem RoundAt.goWith (g : α → α) (s : σ) :
    RoundAt loop 0 (fun fuel => do return g (← loop fuel s)) c :=
  .inr ⟨s, c, g, Nat.le_refl _, fun fuel => by rw [map_eq_pure_bind]⟩

theorem RoundAt.step {e : Nat} (h : RoundAt loop e y c') (hrun : ∀ fuel, x fuel c = y fuel c')
    (hlen : c'.rest.length + d ≤ c.rest.length + e) : RoundAt loop d x c := by
  rcases h with ⟨result, hresult⟩ | ⟨s, c'', g, htaken, hgo⟩
  · exact .inl ⟨result, fun fuel => (hrun fuel).trans (hresult fuel)⟩
  · exact .inr ⟨s, c'', g, by omega, fun fuel => (hrun fuel).trans (hgo fuel)⟩

theorem RoundAt.bind {x : Reader β} {f : Nat → β → Reader α} {k : Nat}
    (hx : ∀ a c', x c = .ok (a, c') → c'.rest.length + k ≤ c.rest.length)
    (hf : ∀ a c', RoundAt loop d (fun fuel => f fuel a) c') :
    RoundAt loop (d + k) (fun fuel => x >>= f fuel) c := by
  cases hrun : x c with
  | error e => 
    refine .inl ⟨.error e, fun fuel => ?_⟩
    change (x c >>= fun result => f fuel result.1 result.2) = .error e
    rw [hrun]
    rfl
  | ok result =>
    have hlen := hx _ _ hrun
    exact (hf result.1 result.2).step (fun fuel => bind_run hrun (f fuel)) (by omega)

theorem RoundAt.ite {p : Prop} [Decidable p] (hyes : RoundAt loop d x c) (hno : RoundAt loop d y c) :
    RoundAt loop d (fun fuel => if p then x fuel else y fuel) c := by
  by_cases hp : p
  · simpa only [if_pos hp] using hyes
  · simpa only [if_neg hp] using hno

theorem RoundAt.accept {kind : TokenKind} (hyes : ∀ c', RoundAt loop 0 x c') (hno : RoundAt loop 1 y c) :
    RoundAt loop 1 (fun fuel => do if ← Reader.accept kind then x fuel else y fuel) c := by
  rcases accept_run kind c with hrun | ⟨rest, span, hrest, hrun⟩
  · exact hno.step (fun fuel => bind_run hrun _) (Nat.le_refl _)
  · exact (hyes ⟨rest, some span⟩).step (fun fuel => bind_run hrun _) (by simp [hrest])

theorem RoundAt.after {x : Reader β} {f : Nat → β → Reader α} (hx : Consumes x)
    (hf : ∀ a c', RoundAt loop d (fun fuel => f fuel a) c') :
    RoundAt loop d (fun fuel => x >>= f fuel) c :=
  .bind (k := 0) (fun a c' hrun => (hx c a c' hrun).length_le) hf

/-- A reader that refuses where no token is left takes one when it gives something. -/
theorem RoundAt.take {x : Reader β} {f : Nat → β → Reader α} (hx : ConsumesOne x)
    (hend : ∀ last, ∃ e, x ⟨[], last⟩ = .error e)
    (hf : ∀ a c', RoundAt loop 0 (fun fuel => f fuel a) c') :
    RoundAt loop 1 (fun fuel => x >>= f fuel) c := by
  refine .bind (k := 1) (fun a c' hrun => ?_) hf
  have hlen := (hx c a c' hrun).length_le
  obtain ⟨tokens, last⟩ := c
  cases tokens with
  | nil =>
    obtain ⟨e, he⟩ := hend last
    rw [he] at hrun
    cases hrun
  | cons token rest => exact Nat.succ_le_succ hlen

theorem Advances.of_rounds (hround : ∀ s c, RoundAt loop 1 (fun fuel => loop (fuel + 1) s) c)
    (hend : ∀ s last, loop 0 s ⟨[], last⟩ = loop 1 s ⟨[], last⟩) : Advances loop := by
  refine ⟨hround, fun s c fuel hfuel => ?_⟩
  -- by induction on the number of tokens: the next round has fewer of them and at least as many rounds
  induction hn : c.rest.length using Nat.strong_induction_on generalizing s c fuel with
  | h n ih =>
    cases fuel with
    | zero =>
      rw [show n = 0 by omega]
    | succ fuel =>
      rcases hround s c with ⟨result, hresult⟩ | ⟨s', c', g, hlen, hgo⟩
      · cases n with
        | zero =>
          obtain ⟨tokens, last⟩ := c
          obtain rfl := List.eq_nil_of_length_eq_zero hn
          exact (hresult fuel).trans ((hend s last).trans (hresult 0)).symm
        | succ n => exact (hresult fuel).trans (hresult n).symm
      · cases n with
        | zero => omega
        | succ n =>
          have hsame : loop fuel s' c' = loop n s' c' := by
            rw [ih _ (by omega) s' c' fuel (by omega) rfl, ih _ (by omega) s' c' n (by omega) rfl]
          refine (hgo fuel).trans (Eq.trans ?_ (hgo n).symm)
          change (loop fuel s' c' >>= _) = (loop n s' c' >>= _)
          rw [hsame]

end Rounds

end Reader

open Reader

section Loops

variable {operand expr : Reader Expr}

theorem moreOperands_advances {op? : Sign → Option BinOp} (h : Consumes operand) :
    Advances (moreOperands op? operand) := by
  refine .of_rounds (fun left c => ?_) fun _ _ => rfl
  rcases acceptOp_run op? c with hrun | ⟨op, token, rest, hrest, hrun⟩
  · exact .inl ⟨.ok (left, c), fun fuel => bind_run hrun _⟩
  · have hgo : ∀ c', RoundAt (moreOperands op? operand) 0
        (fun fuel => do moreOperands op? operand fuel (Expr.binary op left (← operand))) c' :=
      fun c' => .after h fun right _ => .go (Expr.binary op left right)
    exact (hgo _).step (fun fuel => bind_run hrun _) (by simp [hrest])

theorem moreArgs_advances (h : Consumes expr) : Advances fun fuel (_ : Unit) => moreArgs expr fuel := by
  refine .of_rounds (fun _ c => ?_) fun _ last => ?_
  · exact .after h fun arg _ => .accept (fun _ => .stop _)
      (.take (expectSign_tied (n := 0) _ _).consumesOne (fun _ => ⟨_, rfl⟩) fun _ _ =>
        .goWith (arg :: ·) ())
  · change (expr _ >>= _) = (expr _ >>= _)
    cases hrun : expr ⟨[], last⟩ with
    | error e => rfl
    | ok result =>
      obtain ⟨arg, tokens, last'⟩ := result
      obtain rfl := List.suffix_nil.1 (h _ _ _ hrun)
      rfl

theorem moreSelectors_advances (h : Consumes expr) : Advances (moreSelectors expr) := by
  refine .of_rounds (fun base c => ?_) fun _ _ => rfl
  exact .accept (fun _ => .after (expectWord_consumes _) fun name _ => .go (Expr.member base name))
    (.accept (fun _ => .after h fun index _ => .after (expectSign_consumes _ _) fun _ _ =>
      .go (Expr.index base index)) (.stop _))

theorem signed_advances : Advances fun fuel (_ : Unit) => signed operand fuel := by
  refine .of_rounds (fun _ c => ?_) fun _ _ => rfl
  refine .accept (fun _ => .goWith (Expr.unary .not) ())
    (.accept (fun _ => .after peek_looks.consumes fun kind _ => ?_) (.stop _))
  cases kind with
  | none => exact .goWith (Expr.unary .neg) ()
  | some kind =>
    cases kind with
    | int => exact .stop _
    | newline | eof | word | text | sign => exact .goWith (Expr.unary .neg) ()

theorem bodyLines_advances : Advances fun fuel body => bodyLines body fuel := by
  refine .of_rounds (fun body c => ?_) fun _ _ => rfl
  refine .after skipLineEnds_consumes fun _ _ => .accept (fun _ => .stop _)
    (.after peek_looks.consumes fun kind _ => .ite (.stop _)
      (.after atLabel_looks.consumes fun labelled _ => .ite ?_ ?_))
  · exact .take (expectWord_tied (n := 0) _).consumesOne (fun _ => ⟨_, rfl⟩) fun label _ =>
      .after next_consumes fun _ _ => .after expectLineEnd_consumes fun _ _ => .go _
  · exact .take (statement_reads fun _ _ _ => trivial).consumesOne (fun _ => ⟨_, rfl⟩) fun s _ =>
      .after expectLineEnd_consumes fun _ _ => .go _

theorem classLines_advances (name : Name) : Advances (classLines name) := by
  refine .of_rounds (fun fields c => ?_) fun _ _ => rfl
  exact .after skipLineEnds_consumes fun _ _ => .accept (fun _ => .stop _)
    (.after peek_looks.consumes fun kind _ => .ite (.stop _)
      (.after filteredMark_reads.consumes fun filtered _ => .after (accept_consumes _) fun isStatic _ =>
        .take (field_reads filtered isStatic).consumesOne (fun _ => ⟨_, rfl⟩) fun f _ => .go _))

theorem declarations_advances : Advances declarations := by
  refine .of_rounds (fun program c => ?_) fun _ _ => rfl
  exact .after skipLineEnds_consumes fun _ _ => .after peek_looks.consumes fun kind _ =>
    .ite (.stop _) (.after filteredMark_reads.consumes fun filtered _ =>
      .take (expectWord_tied (n := 0) _).consumesOne (fun _ => ⟨_, rfl⟩) fun keyword _ =>
        .after (declaration_reads (fun _ _ _ => trivial) program filtered trivial).consumes
          fun p _ => .go p)

theorem Reader.Consumes.tied {n : Nat} {expr' : Reader Expr} (h : Consumes expr)
    (hsame : ∀ c : Cursor, c.rest.length < n → expr c = expr' c) :
    Tied (fun _ => True) n 0 expr expr' (·.Sited fun _ => True) := by
  refine fun c _ => ⟨hsame c, ?_⟩
  cases hrun : expr c with
  | error => exact fun _ _ => trivial
  | ok result => exact ⟨h _ _ _ hrun, fun _ _ => trivial⟩

/-- What stands for an expression inside brackets is run only where fewer tokens are left. -/
theorem levels_selection_eq {expr' : Reader Expr} (h : Consumes expr) {c : Cursor}
    (hsame : ∀ d : Cursor, d.rest.length < c.rest.length → expr d = expr' d) :
    levels expr c = levels expr' c ∧ selection expr c = selection expr' c :=
  ⟨(levels_tied (h.tied hsame) c fun _ _ => trivial).1 (Nat.lt_succ_self _),
    (selection_tied (h.tied hsame) c fun _ _ => trivial).1 (Nat.lt_succ_self _)⟩

theorem expressionWithin_eq {n m : Nat} {c : Cursor} (hn : c.rest.length < n) (hm : c.rest.length < m) :
    expressionWithin n c = expressionWithin m c := by
  induction n generalizing m c with
  | zero => cases hn
  | succ n ih =>
    cases m with
    | zero => cases hm
    | succ m =>
      exact (levels_selection_eq (expressionWithin_reads n).consumes fun d hd =>
        ih (by omega) (by omega)).1

end Loops

/-- Nothing in the reading of a program goes on for ever. The readers that are handed to others give
back a rest of the tokens; one that is used inside brackets is only run where fewer tokens are left;
and so does each round of each loop, from whatever state and cursor. -/
structure ReadingAdvances : Prop where
  consumes : ∀ n, Consumes (expressionWithin n)
  levels : ∀ operand : Reader Expr, Consumes operand → (∀ op?, Consumes (chain op? operand)) ∧
    Consumes (comparison operand) ∧ Consumes (selection operand) ∧ ∀ fuel, Consumes (signed operand fuel)
  nested : ∀ expr expr' : Reader Expr, Consumes expr → ∀ c,
    (∀ d : Cursor, d.rest.length < c.rest.length → expr d = expr' d) →
    Tree.levels expr c = Tree.levels expr' c ∧ selection expr c = selection expr' c
  depth : ∀ n c, c.rest.length < n → expressionWithin n c = expression c
  operands : ∀ op? operand, Consumes operand → Advances (moreOperands op? operand)
  args : ∀ expr, Consumes expr → Advances fun fuel (_ : Unit) => moreArgs expr fuel
  selectors : ∀ expr, Consumes expr → Advances (moreSelectors expr)
  signs : ∀ operand, Advances fun fuel (_ : Unit) => signed operand fuel
  lines : Advances fun fuel body => bodyLines body fuel
  fields : ∀ name, Advances (classLines name)
  declarations : Advances Tree.declarations

theorem readingAdvances : ReadingAdvances where
  consumes n := (expressionWithin_reads n).consumes
  levels operand h := by
    have htied := h.tied (n := 0) fun c _ => Eq.refl (operand c)
    exact ⟨fun _ => (chain_tied htied).consumes, (comparison_tied htied).consumes,
      (selection_tied htied).consumes, fun fuel => (signed_tied htied fuel).consumes⟩
  nested _ _ h _ := levels_selection_eq h
  depth _ c hn := expressionWithin_eq hn (Nat.lt_succ_self c.rest.length)
  operands _ _ := moreOperands_advances
  args _ := moreArgs_advances
  selectors _ := moreSelectors_advances
  signs _ := signed_advances
  lines := bodyLines_advances
  fields := classLines_advances
  declarations := declarations_advances

end Interleave.Tree
