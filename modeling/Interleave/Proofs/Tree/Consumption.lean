import Interleave.Proofs.Machine.Typed
import Interleave.Tree.Statement

set_option autoImplicit false

namespace Interleave.Tree

mutual

def Expr.spans : Expr → List Span
  | .int _ | .null => []
  | .name n => [n.span]
  | .member object n => n.span :: object.spans
  | .index array i => array.spans ++ i.spans
  | .call function args => function.span :: Expr.spansOf args
  | .unary _ e => e.spans
  | .binary _ left right => left.spans ++ right.spans

def Expr.spansOf : List Expr → List Span
  | [] => []
  | e :: rest => e.spans ++ Expr.spansOf rest

end

abbrev Expr.Sited (P : Span → Prop) (e : Expr) : Prop := ∀ s ∈ e.spans, P s

def Rvalue.spans : Rvalue → List Span
  | .expr e | .newArray _ e => e.spans
  | .new name => [name.span]
  | .newSet | .newBag | .choose _ _ => []

def Stmt.spans : Stmt → List Span
  | .assign target value => target.spans ++ value.spans
  | .insert collection item | .remove collection item => collection.spans ++ item.spans
  | .lock e | .unlock e | .assert e _ => e.spans
  | .ifGoto e label => label.span :: e.spans
  | .goto name | .call name => [name.span]
  | .return | .yield => []

def Field.spans (f : Field) : List Span := f.name.span :: f.initial.toList.map (·.span)

def Class.spans (c : Class) : List Span := c.name.span :: c.fields.flatMap Field.spans

namespace Reader

def Consumes {α : Type} (x : Reader α) : Prop :=
  ∀ c a c', x c = .ok (a, c') → c'.rest <:+ c.rest

def ConsumesOne {α : Type} (x : Reader α) : Prop :=
  ∀ c a c', x c = .ok (a, c') → c'.rest <:+ c.rest.tail

def Looks {α : Type} (x : Reader α) : Prop := ∀ c a c', x c = .ok (a, c') → c' = c

/-- What becomes of a reading from `c`: at least `d` tokens are taken, as far as there are so many,
and the value satisfies `q`; or the text is refused, at a place that satisfies `P`. -/
def Leaves {α : Type} (P : Span → Prop) (d : Fin 2) (q : α → Prop) (c : Cursor) :
    Except SourceError (α × Cursor) → Prop
  | .ok (a, c') => c'.rest <:+ c.rest.drop d ∧ q a
  | .error e => ∀ s ∈ e.span, P s

/-- On tokens whose places satisfy `P`, the first reader leaves what it should, and the second one
does the same where fewer than `n` tokens are left. -/
def Tied {α : Type} (P : Span → Prop) (n : Nat) (d : Fin 2) (x y : Reader α) (q : α → Prop) : Prop :=
  ∀ c, (∀ t ∈ c.rest, P t.span) → (c.rest.length < n → x c = y c) ∧ Leaves P d q c (x c)

abbrev Reads {α : Type} (P : Span → Prop) (x : Reader α) (q : α → Prop) : Prop := Tied P 0 0 x x q

section Tied

variable {α β : Type} {P : Span → Prop} {n m : Nat} {d e : Fin 2} {q : α → Prop} {r : β → Prop}
  {x y : Reader α} {f g : α → Reader β}

theorem Tied.pure {a : α} (h : q a) : Tied P n 0 (Pure.pure a) (Pure.pure a) q :=
  fun _ _ => ⟨fun _ => rfl, List.suffix_rfl, h⟩

theorem Tied.refuse {reason : Refusal} {span : Option Span} (h : ∀ s ∈ span, P s) :
    Tied P n d (Reader.refuse reason span) (Reader.refuse reason span) q :=
  fun _ _ => ⟨fun _ => rfl, h⟩

theorem Tied.after {c c' : Cursor} (h : Tied P m e x y q) (hc : ∀ t ∈ c.rest, P t.span)
    (hrest : c'.rest.drop e <:+ c.rest.drop d) (hmem : c'.rest <:+ c.rest)
    (hn : c.rest.length < n → c'.rest.length < m) :
    (c.rest.length < n → x c' = y c') ∧ Leaves P d q c (x c') := by
  obtain ⟨hsame, hleaves⟩ := h c' fun t ht => hc t (hmem.mem ht)
  refine ⟨fun hlt => hsame (hn hlt), ?_⟩
  cases hx : x c' with
  | error => rwa [hx] at hleaves
  | ok =>
    rw [hx] at hleaves
    exact ⟨hleaves.1.trans hrest, hleaves.2⟩

theorem Tied.mono (h : Tied P n d x y q) (hm : m ≤ n) (he : e ≤ d) : Tied P m e x y q :=
  fun _ hc => h.after hc (List.drop_suffix_drop_left _ he) List.suffix_rfl
    fun hlt => Nat.lt_of_lt_of_le hlt hm

theorem Tied.less (h : Tied P n d x y q) : Tied P (n - 1) d x y q :=
  h.mono (Nat.sub_le n 1) (Fin.le_refl d)

theorem Tied.loose (h : Tied P n d x y q) : Tied P n 0 x y q := h.mono (Nat.le_refl n) (Fin.zero_le d)

theorem Tied.reads (h : Tied P n d x x q) : Reads P x q := h.mono (Nat.zero_le n) (Fin.zero_le d)

theorem Tied.imp {q' : α → Prop} (h : Tied P n d x y q) (hq : ∀ a, q a → q' a) : Tied P n d x y q' := by
  intro c hc
  obtain ⟨hsame, hleaves⟩ := h c hc
  refine ⟨hsame, ?_⟩
  cases hx : x c with
  | error => rwa [hx] at hleaves
  | ok =>
    rw [hx] at hleaves
    exact ⟨hleaves.1, hq _ hleaves.2⟩

theorem Tied.bind (hx : Tied P n d x y q) (hf : ∀ a, q a → Tied P n 0 (f a) (g a) r) :
    Tied P n d (x >>= f) (y >>= g) r := by
  intro c hc
  obtain ⟨hsame, hleaves⟩ := hx c hc
  change (_ → (x c >>= fun result => f result.1 result.2) = (y c >>= fun result => g result.1 result.2))
    ∧ Leaves P d r c (x c >>= fun result => f result.1 result.2)
  cases hxc : x c with
  | error e =>
    rw [hxc] at hsame hleaves
    exact ⟨fun hlt => by rw [← hsame hlt]; rfl, hleaves⟩
  | ok result =>
    rw [hxc] at hsame hleaves
    have hsuffix := hleaves.1.trans (List.drop_suffix d c.rest)
    have hnext := (hf result.1 hleaves.2).after hc (n := n) hleaves.1 hsuffix
      (Nat.lt_of_le_of_lt hsuffix.length_le)
    exact ⟨fun hlt => by rw [← hsame hlt]; exact hnext.1 hlt, hnext.2⟩

theorem Tied.look {h : Cursor → α} (hf : ∀ a, Tied P n d (f a) (g a) r) :
    Tied P n d ((do return h (← get)) >>= f) ((do return h (← get)) >>= g) r :=
  fun c hc => hf (h c) c hc

theorem Tied.peekSpan {f g : Option Span → Reader β}
    (hf : ∀ span, (∀ s ∈ span, P s) → Tied P n d (f span) (g span) r) :
    Tied P n d (Reader.peekSpan >>= f) (Reader.peekSpan >>= g) r := by
  refine fun c hc => hf _ (fun s hs => ?_) c hc
  obtain ⟨t, ht, rfl⟩ := Option.map_eq_some_iff.1 hs
  exact hc t (List.mem_of_head? ht)

/-- A token that is taken leaves fewer for what follows. -/
theorem Tied.took {c : Cursor} {token : Token} {rest : List Token} {last : Option Span}
    (h : Tied P (n - 1) 0 x y q) (hc : ∀ t ∈ c.rest, P t.span) (hrest : c.rest = token :: rest) :
    (c.rest.length < n → x ⟨rest, last⟩ = y ⟨rest, last⟩) ∧ Leaves P d q c (x ⟨rest, last⟩) := by
  have hsuffix : rest <:+ c.rest.drop d := by
    rw [hrest]
    exact List.drop_suffix_drop_left (token :: rest) (Fin.le_last d)
  refine h.after hc hsuffix (hsuffix.trans (List.drop_suffix d _)) fun hlt => ?_
  rw [hrest] at hlt
  exact Nat.lt_sub_of_add_lt hlt

theorem Tied.next {f g : Option Token → Reader β}
    (hsome : ∀ t, P t.span → Tied P (n - 1) 0 (f (some t)) (g (some t)) r)
    (hnone : Tied P n 0 (f none) (g none) r) : Tied P n 1 (Reader.next >>= f) (Reader.next >>= g) r := by
  rintro ⟨tokens, last⟩ hc
  cases tokens with
  | nil => exact hnone _ hc
  | cons token rest => exact (hsome token (hc token List.mem_cons_self)).took hc rfl

theorem accept_run (kind : TokenKind) (c : Cursor) :
    accept kind c = .ok (false, c) ∨
      ∃ rest last, c.rest = ⟨kind, last⟩ :: rest ∧ accept kind c = .ok (true, ⟨rest, some last⟩) := by
  obtain ⟨tokens, last⟩ := c
  unfold accept
  rw [bind_run (x := peek) rfl]
  cases tokens with
  | nil => exact .inl rfl
  | cons token rest =>
    split
    · next hkind =>
      cases hkind
      exact .inr ⟨rest, token.span, rfl, rfl⟩
    · exact .inl rfl

theorem Tied.accept {kind : TokenKind} {f g : Bool → Reader β}
    (hyes : Tied P (n - 1) 0 (f true) (g true) r) (hno : Tied P n d (f false) (g false) r) :
    Tied P n d (Reader.accept kind >>= f) (Reader.accept kind >>= g) r := by
  intro c hc
  rcases accept_run kind c with hrun | ⟨rest, span, hrest, hrun⟩
  · rw [bind_run hrun, bind_run hrun]
    exact hno c hc
  · rw [bind_run hrun, bind_run hrun]
    exact hyes.took hc hrest

theorem accept_tied (kind : TokenKind) :
    Tied P n 0 (Reader.accept kind) (Reader.accept kind) fun _ => True := by
  rw [← bind_pure (Reader.accept kind)]
  exact .accept (.pure trivial) (.pure trivial)

theorem Tied.consumes (h : Tied (fun _ => True) n d x y q) : Consumes x := by
  intro c a c' hx
  have hleaves := (h c fun _ _ => trivial).2
  rw [hx] at hleaves
  exact hleaves.1.trans (List.drop_suffix d c.rest)

theorem Tied.consumesOne (h : Tied (fun _ => True) n 1 x y q) : ConsumesOne x := by
  intro c a c' hx
  have hleaves := (h c fun _ _ => trivial).2
  rw [hx] at hleaves
  exact List.drop_one (l := c.rest) ▸ hleaves.1

theorem next_tied : Tied P n d next next fun token => ∀ t ∈ token, P t.span := by
  rw [← bind_pure next]
  exact (Tied.next (fun t ht => .pure (by simpa using ht)) (.pure (by simp))).mono (Nat.le_refl n)
    (Fin.le_last d)

theorem refuse_here_tied (reason : Refusal) : Tied P n d (do Reader.refuse reason (← peekSpan))
    (do Reader.refuse reason (← peekSpan)) q := .peekSpan fun _ => .refuse

theorem expectSign_tied (s : Sign) (what : Expected) :
    Tied P n d (expectSign s what) (expectSign s what) fun _ => True :=
  .accept (.pure trivial) (refuse_here_tied _)

theorem expectWord_tied (what : Expected) :
    Tied P n d (expectWord what) (expectWord what) fun name => P name.span := by
  refine next_tied.bind fun token htoken => ?_
  split
  · exact .pure (htoken _ rfl)
  · exact .refuse (by simpa using htoken)

theorem expectInt_tied (what : Expected) :
    Tied P n 0 (expectInt what) (expectInt what) fun _ => True := by
  refine (accept_tied _).bind fun negative _ => Tied.bind next_tied fun token htoken => ?_
  split
  · exact .pure trivial
  · exact .refuse (by simpa using htoken)

theorem expectLineEnd_tied : Tied P n 0 expectLineEnd expectLineEnd fun _ => True := by
  refine .accept (.pure trivial) (.look fun kind => ?_)
  split
  · exact .pure trivial
  · exact refuse_here_tied _

theorem dropLineEnds_suffix (tokens : List Token) (last : Option Span) :
    (dropLineEnds tokens last).rest <:+ tokens := by
  fun_induction dropLineEnds tokens last with
  | case1 span rest last ih => exact ih.trans (List.suffix_cons _ _)
  | case2 => exact List.suffix_rfl

theorem skipLineEnds_tied : Tied P n 0 skipLineEnds skipLineEnds fun _ => True :=
  fun c _ => ⟨fun _ => rfl, dropLineEnds_suffix c.rest c.last, trivial⟩

theorem next_consumes : Consumes next := (next_tied (n := 0) (d := 0)).consumes

theorem accept_consumes (kind : TokenKind) : Consumes (accept kind) :=
  (accept_tied (n := 0) kind).consumes

theorem expectSign_consumes (s : Sign) (what : Expected) : Consumes (expectSign s what) :=
  (expectSign_tied (n := 0) (d := 0) s what).consumes

theorem expectWord_consumes (what : Expected) : Consumes (expectWord what) :=
  (expectWord_tied (n := 0) (d := 0) what).consumes

theorem expectLineEnd_consumes : Consumes expectLineEnd := (expectLineEnd_tied (n := 0)).consumes

theorem skipLineEnds_consumes : Consumes skipLineEnds := (skipLineEnds_tied (n := 0)).consumes

theorem looks_of_cursor (h : Cursor → α) : Looks (do return h (← get)) := by
  intro c a c' hrun
  obtain ⟨_, rfl⟩ := Prod.mk.inj (Except.ok.inj hrun)
  rfl

theorem remaining_looks : Looks remaining := looks_of_cursor _

theorem peek_looks : Looks peek := looks_of_cursor _

theorem peekSecond_looks : Looks peekSecond := looks_of_cursor _

theorem lastSpan_looks (span : Span) : Looks (lastSpan span) := looks_of_cursor _

theorem expectWord_eq_ok {what : Expected} {c c' : Cursor} {name : Located String}
    (h : expectWord what c = .ok (name, c')) :
    ∃ rest, c.rest = ⟨.word name.value, name.span⟩ :: rest ∧ c'.rest = rest := by
  obtain ⟨tokens, last⟩ := c
  unfold expectWord at h
  cases tokens with
  | nil => cases h
  | cons token rest =>
    have hnext : next ⟨token :: rest, last⟩ = .ok (some token, ⟨rest, some token.span⟩) := rfl
    rw [bind_run hnext] at h
    obtain ⟨kind, span⟩ := token
    cases kind with
    | word text =>
      cases h
      exact ⟨rest, rfl, rfl⟩
    | newline | eof | int | text | sign => cases h

end Tied

end Reader

open Reader

section Expressions

variable {P : Span → Prop} {n : Nat} {op? : Sign → Option BinOp} {e : Expr}
  {operand operand' expr expr' : Reader Expr}

theorem acceptOp_run (op? : Sign → Option BinOp) (c : Cursor) :
    acceptOp op? c = .ok (none, c) ∨ ∃ op token rest, c.rest = token :: rest ∧
      acceptOp op? c = .ok (some op, ⟨rest, some token.span⟩) := by
  obtain ⟨tokens, last⟩ := c
  cases tokens with
  | nil => exact .inl rfl
  | cons token rest =>
    obtain ⟨kind, span⟩ := token
    cases kind with
    | newline | eof | word | int | text => exact .inl rfl
    | sign s =>
      unfold acceptOp
      rw [bind_run (x := peek) rfl]
      simp only [List.head?_cons, Option.map_some]
      cases op? s with
      | none => exact .inl rfl
      | some op => exact .inr ⟨op, _, rest, rfl, rfl⟩

theorem Tied.acceptOp {β : Type} {r : β → Prop} {f g : Option BinOp → Reader β}
    (hnone : Tied P n 0 (f none) (g none) r)
    (hsome : ∀ op, Tied P (n - 1) 0 (f (some op)) (g (some op)) r) :
    Tied P n 0 (acceptOp op? >>= f) (acceptOp op? >>= g) r := by
  intro c hc
  rcases acceptOp_run op? c with hrun | ⟨op, token, rest, hrest, hrun⟩
  · rw [bind_run hrun, bind_run hrun]
    exact hnone c hc
  · rw [bind_run hrun, bind_run hrun]
    exact (hsome op).took hc hrest

section

variable (h : Tied P n 0 operand operand' (·.Sited P))

include h

theorem moreOperands_tied (fuel : Nat) (hleft : e.Sited P) :
    Tied P n 0 (moreOperands op? operand fuel e) (moreOperands op? operand' fuel e)
      (·.Sited P) := by
  induction fuel generalizing e with
  | zero => exact .pure hleft
  | succ fuel ih =>
    exact Tied.acceptOp (.pure hleft) fun op =>
      (h.bind fun right hright => ih (e := .binary op e right)
        (List.forall_mem_append.2 ⟨hleft, hright⟩)).less

theorem chain_tied : Tied P n 0 (chain op? operand) (chain op? operand') (·.Sited P) :=
  h.bind fun _ hleft => .look fun fuel => moreOperands_tied h fuel hleft

theorem comparison_tied : Tied P n 0 (comparison operand) (comparison operand') (·.Sited P) :=
  h.bind fun _ hleft => Tied.acceptOp (.pure hleft) fun _ =>
    (h.bind fun _ hright => .pure (List.forall_mem_append.2 ⟨hleft, hright⟩)).less

end

section

variable (h : Tied P n 0 expr expr' (·.Sited P))

include h

theorem moreArgs_tied (fuel : Nat) :
    Tied P n 0 (moreArgs expr fuel) (moreArgs expr' fuel) fun es => ∀ s ∈ Expr.spansOf es, P s := by
  induction fuel with
  | zero => exact h.bind fun _ _ => refuse_here_tied _
  | succ fuel ih =>
    exact h.bind fun arg harg =>
      .accept (.pure (List.forall_mem_append.2 ⟨harg, by simp [Expr.spansOf]⟩))
      ((expectSign_tied _ _).bind fun _ _ => ih.bind fun _ hmore =>
        .pure (List.forall_mem_append.2 ⟨harg, hmore⟩))

theorem args_tied : Tied P n 0 (args expr) (args expr') fun es => ∀ s ∈ Expr.spansOf es, P s :=
  .accept (.pure (List.forall_mem_nil P)) (.look fun fuel => moreArgs_tied h fuel)

theorem atom_tied : Tied P (n + 1) 1 (atom expr) (atom expr') (·.Sited P) := by
  refine .next (fun t ht => ?_) (.refuse (by simp))
  split
  · exact .pure (List.forall_mem_nil P)
  · exact .pure (List.forall_mem_nil P)
  · exact .pure (List.forall_mem_nil P)
  · exact .pure (List.forall_mem_nil P)
  · next heq =>
    cases heq
    exact .accept ((args_tied h).less.bind fun es hes =>
      .pure (a := Expr.call _ es) (List.forall_mem_cons.2 ⟨ht, hes⟩))
      (.pure (List.forall_mem_singleton.2 ht))
  · exact h.bind fun _ hinner => (expectSign_tied _ _).bind fun _ _ => .pure hinner
  · exact .refuse (by simpa using ht)

theorem moreSelectors_tied (fuel : Nat) (hbase : e.Sited P) :
    Tied P (n + 1) 0 (moreSelectors expr fuel e) (moreSelectors expr' fuel e)
      (·.Sited P) := by
  induction fuel generalizing e with
  | zero => exact .pure hbase
  | succ fuel ih =>
    refine .accept ((expectWord_tied _).bind fun name hname =>
      (ih (e := .member e name) (List.forall_mem_cons.2 ⟨hname, hbase⟩)).less) (.accept ?_ (.pure hbase))
    exact h.bind fun index hindex => (expectSign_tied _ _).bind fun _ _ =>
      (ih (e := .index e index) (List.forall_mem_append.2 ⟨hbase, hindex⟩)).less

theorem selection_tied : Tied P (n + 1) 1 (selection expr) (selection expr') (·.Sited P) :=
  (atom_tied h).bind fun _ hbase => .look fun fuel => moreSelectors_tied h fuel hbase

omit h in
theorem signed_tied (h : Tied P n 0 operand operand' (·.Sited P)) (fuel : Nat) :
    Tied P n 0 (signed operand fuel) (signed operand' fuel) (·.Sited P) := by
  induction fuel with
  | zero => exact h
  | succ fuel ih =>
    have hunary : ∀ op, Tied P n 0 (do return Expr.unary op (← signed operand fuel))
        (do return Expr.unary op (← signed operand' fuel)) (·.Sited P) :=
      fun op => ih.bind fun e he => .pure (a := Expr.unary op e) he
    refine .accept (hunary .not).less (.accept (.look fun kind => ?_) h)
    split
    · exact Tied.bind next_tied fun _ _ => .pure (List.forall_mem_nil P)
    · exact (hunary .neg).less

theorem levels_tied : Tied P (n + 1) 0 (levels expr) (levels expr') (·.Sited P) := by
  have hfactor : Tied P (n + 1) 0 (do signed (selection expr) (← remaining))
      (do signed (selection expr') (← remaining)) (·.Sited P) :=
    .look fun fuel => signed_tied (selection_tied h).loose fuel
  exact chain_tied (chain_tied (comparison_tied (chain_tied (chain_tied hfactor))))

end

theorem expressionWithin_reads (depth : Nat) : Reads P (expressionWithin depth) (·.Sited P) := by
  induction depth with
  | zero => exact refuse_here_tied _
  | succ depth ih => exact (levels_tied ih).reads

theorem expression_reads : Reads P expression (·.Sited P) :=
  .look fun n => expressionWithin_reads (n + 1)

theorem selectionWithBrackets_reads :
    Tied P 0 1 selectionWithBrackets selectionWithBrackets (·.Sited P) :=
  .look fun _ => (selection_tied (expressionWithin_reads _)).less

end Expressions

section Statements

variable {P : Span → Prop}

theorem rvalue_reads : Reads P rvalue (∀ s ∈ ·.spans, P s) := by
  refine .accept (.pure (List.forall_mem_nil P)) (.accept (.pure (List.forall_mem_nil P))
    (.accept ((expectWord_tied _).bind fun name hname => .accept ?_
      (.pure (List.forall_mem_singleton.2 hname))) ?_))
  · cases fieldType? name.value with
    | none => exact .refuse (by simpa using hname)
    | some element =>
      exact expression_reads.bind fun e he => (expectSign_tied _ _).bind fun _ _ =>
        .pure (a := Rvalue.newArray element e) he
  · refine .look fun first => .look fun second => ?_
    split
    · exact Tied.bind next_tied fun _ _ => Tied.bind next_tied fun _ _ =>
        (expectInt_tied _).bind fun min _ =>
        (expectSign_tied _ _).bind fun _ _ => (expectInt_tied _).bind fun max _ =>
        (expectSign_tied _ _).bind fun _ _ => .pure (List.forall_mem_nil P)
    · exact expression_reads.bind fun e he => .pure (a := Rvalue.expr e) he

theorem assertionMessage_reads : Reads P assertionMessage fun _ => True := by
  refine .accept (Tied.bind next_tied fun token htoken => ?_) (.pure trivial)
  split
  · exact .pure trivial
  · exact .refuse (by simpa using htoken)

theorem collectionAndItem_reads :
    Reads P collectionAndItem fun pair => pair.1.Sited P ∧ pair.2.Sited P :=
  expression_reads.bind fun _ hcollection => (expectSign_tied _ _).bind fun _ _ =>
    expression_reads.bind fun _ hitem => .pure ⟨hcollection, hitem⟩

theorem keywordStatement_reads {word : String} {readRest : Reader Stmt}
    (h : keywordStatement? word = some readRest) : Reads P readRest (∀ s ∈ ·.spans, P s) := by
  unfold keywordStatement? at h
  split at h
  all_goals cases h
  · exact expression_reads.bind fun e he => .pure (a := Stmt.lock e) he
  · exact expression_reads.bind fun e he => .pure (a := Stmt.unlock e) he
  · exact expression_reads.bind fun e he => assertionMessage_reads.bind fun message _ =>
      .pure (a := Stmt.assert e message) he
  · refine expression_reads.bind fun e he => .accept ?_ ?_
    · exact (expectWord_tied _).bind fun label hlabel =>
        .pure (a := Stmt.ifGoto e label) (List.forall_mem_cons.2 ⟨hlabel, he⟩)
    · exact .peekSpan fun _ hspan => Tied.bind (q := fun _ => False) (.refuse hspan) fun _ h => h.elim
  · exact (expectWord_tied _).bind fun label hlabel =>
      .pure (a := Stmt.goto label) (List.forall_mem_singleton.2 hlabel)
  · exact (expectWord_tied _).bind fun name hname =>
      .pure (a := Stmt.call name) (List.forall_mem_singleton.2 hname)
  · exact .pure (List.forall_mem_nil P)
  · exact .pure (List.forall_mem_nil P)
  · exact collectionAndItem_reads.bind fun pair hpair =>
      .pure (a := Stmt.insert pair.1 pair.2) (List.forall_mem_append.2 hpair)
  · exact collectionAndItem_reads.bind fun pair hpair =>
      .pure (a := Stmt.remove pair.1 pair.2) (List.forall_mem_append.2 hpair)

theorem assignment_reads : Tied P 0 1 assignment assignment (∀ s ∈ ·.spans, P s) :=
  selectionWithBrackets_reads.bind fun target htarget => (expectSign_tied _ _).bind fun _ _ =>
    rvalue_reads.bind fun value hvalue =>
      .pure (a := Stmt.assign target value) (List.forall_mem_append.2 ⟨htarget, hvalue⟩)

theorem statementAt_reads {start : Span} (hstart : P start) :
    Tied P 0 1 (statementAt start) (statementAt start) (∀ s ∈ ·.spans, P s) := by
  refine .look fun kind => ?_
  split
  · split
    · next hword => exact Tied.bind next_tied fun _ _ => keywordStatement_reads hword
    · split
      · exact .refuse (by simpa using hstart)
      · exact assignment_reads
  · exact assignment_reads

theorem statement_reads (hupTo : ∀ a b : Span, P a → P (a.upTo b)) :
    Tied P 0 1 statement statement fun s => P s.span ∧ ∀ span ∈ s.value.spans, P span := by
  refine .peekSpan fun span hspan => ?_
  split
  · exact .refuse (by simp)
  · next start =>
    exact (statementAt_reads (hspan start rfl)).bind fun stmt hstmt => .look fun last =>
      .pure ⟨hupTo start last (hspan start rfl), hstmt⟩

theorem initialValue_reads {name : Name} (hname : P name.span) :
    Reads P (initialValue name) fun initial => ∀ i ∈ initial, P i.span := by
  refine .accept (.peekSpan fun start hstart => ?_) (.pure (by simp))
  have hdone : ∀ value : Option Int64,
      ∀ i ∈ some (Located.mk value (start.getD name.span)), P i.span := by
    intro value i hi
    cases hi
    cases start with
    | none => exact hname
    | some span => exact hstart span rfl
  refine .accept (.pure (hdone none)) (Tied.bind (q := fun _ => True) ?_
    fun value _ => .pure (hdone value))
  rw [map_eq_pure_bind]
  exact (expectInt_tied _).bind fun _ _ => .pure trivial

theorem field_reads (filtered isStatic : Bool) :
    Tied P 0 1 (field filtered isStatic) (field filtered isStatic) fun f =>
      f.isStatic = isStatic ∧ ∀ s ∈ f.spans, P s := by
  refine (expectWord_tied _).bind fun typeName htype => ?_
  split
  · exact .refuse (by simpa using htype)
  · refine (expectWord_tied _).bind fun name hname =>
      (initialValue_reads hname).bind fun initial hinitial =>
      expectLineEnd_tied.bind fun _ _ => .pure ⟨rfl, List.forall_mem_cons.2 ⟨hname, ?_⟩⟩
    simpa using hinitial

theorem filteredMark_reads : Reads P filteredMark fun _ => True := by
  refine .accept ((expectWord_tied _).bind fun name hname => ?_) (.pure trivial)
  split
  · exact .pure trivial
  · exact .refuse (by simpa using hname)

theorem classLines_reads {name : Name} (hname : P name.span) (fuel : Nat) (fields : List Field)
    (hfields : ∀ s ∈ fields.flatMap Field.spans, P s) :
    Reads P (classLines name fuel fields) fun fields => ∀ s ∈ fields.flatMap Field.spans, P s := by
  induction fuel generalizing fields with
  | zero => exact .refuse (by simp)
  | succ fuel ih =>
    refine skipLineEnds_tied.bind fun _ _ => .accept (expectLineEnd_tied.bind fun _ _ => .pure hfields)
      (.look fun kind => ?_)
    split
    · exact .refuse (by simpa using hname)
    · refine filteredMark_reads.bind fun filtered _ => (accept_tied _).bind fun isStatic _ =>
        (field_reads filtered isStatic).loose.bind fun field hfield => ih _ ?_
      rw [List.flatMap_append, List.flatMap_singleton]
      exact List.forall_mem_append.2 ⟨hfields, hfield.2⟩

theorem classDeclaration_reads : Reads P classDeclaration (∀ s ∈ ·.spans, P s) :=
  (expectWord_tied _).bind fun name hname => (expectSign_tied _ _).bind fun _ _ =>
    expectLineEnd_tied.bind fun _ _ => .look fun fuel =>
    (classLines_reads hname fuel [] (List.forall_mem_nil P)).bind fun fields hfields =>
    .pure (a := Class.mk name fields) (List.forall_mem_cons.2 ⟨hname, hfields⟩)

end Statements

end Interleave.Tree
