import Interleave.Proofs.Tree.Consumption
import Interleave.Source.Lexer

set_option autoImplicit false

namespace Interleave

def Span.StartsBefore (a b : Span) : Prop :=
  a.startLine < b.startLine ∨ a.startLine = b.startLine ∧ a.startCol < b.startCol

instance (a b : Span) : Decidable (a.StartsBefore b) :=
  inferInstanceAs (Decidable (_ ∨ _))

theorem Span.StartsBefore.asymm {a b : Span} (h : a.StartsBefore b) : ¬ b.StartsBefore a := by
  unfold Span.StartsBefore at h ⊢
  omega

namespace Tree

open Reader

theorem statement_starts {c c' : Cursor} {stmt : Located Stmt} (h : statement c = .ok (stmt, c')) :
    ∃ token rest, c.rest = token :: rest ∧ c'.rest <:+ rest ∧
      stmt.span.startLine = token.span.startLine ∧ stmt.span.startCol = token.span.startCol := by
  obtain ⟨tokens, last⟩ := c
  unfold statement at h
  rw [bind_run (x := peekSpan) rfl] at h
  cases tokens with
  | nil => cases h
  | cons token rest =>
    obtain ⟨value, d, hvalue, h⟩ := run_bind_eq_ok.1 h
    obtain ⟨span, e, hspan, h⟩ := run_bind_eq_ok.1 h
    cases h
    obtain rfl := lastSpan_looks _ _ _ _ hspan
    exact ⟨token, rest, rfl, (statementAt_reads trivial).consumesOne _ _ _ hvalue, rfl, rfl⟩

def Body.statementsBefore (body : Body) (place : Span) : Nat :=
  body.statements.countP fun s => s.span.StartsBefore place

def Body.Ordered (body : Body) : Prop :=
  ∀ label pc, (label, pc) ∈ body.labels → pc = body.statementsBefore label.span

structure Body.Precedes (body : Body) (tokens : List Token) : Prop where
  statements : ∀ s ∈ body.statements, ∀ t ∈ tokens, s.span.StartsBefore t.span
  labels : ∀ l ∈ body.labels, ∀ t ∈ tokens, l.1.span.StartsBefore t.span

def InOrder (tokens : List Token) : Prop :=
  tokens.Pairwise fun a b => a.span.StartsBefore b.span

section Bodies

variable {body : Body} {token : Token} {tokens rest : List Token}

theorem InOrder.suffix (h : InOrder tokens) (hrest : rest <:+ tokens) : InOrder rest :=
  List.Pairwise.sublist hrest.sublist h

theorem Body.Precedes.suffix (h : body.Precedes tokens) (hrest : rest <:+ tokens) :
    body.Precedes rest :=
  ⟨fun s hs t ht => h.statements s hs t (hrest.mem ht),
    fun l hl t ht => h.labels l hl t (hrest.mem ht)⟩

theorem startsBefore_of_starts {span : Span} (h : InOrder (token :: tokens))
    (hline : span.startLine = token.span.startLine) (hcol : span.startCol = token.span.startCol)
    (hrest : rest <:+ tokens) : ∀ t ∈ rest, span.StartsBefore t.span := by
  intro t ht
  have hbefore := List.rel_of_pairwise_cons h (hrest.mem ht)
  unfold Span.StartsBefore at hbefore ⊢
  rwa [hline, hcol]

theorem Body.Precedes.label {label : Name} {pc : Nat} (h : body.Precedes (token :: tokens))
    (htokens : InOrder (token :: tokens)) (hspan : label.span = token.span)
    (hrest : rest <:+ tokens) :
    Body.Precedes { body with labels := body.labels ++ [(label, pc)] } rest := by
  have hbefore := startsBefore_of_starts htokens (congrArg Span.startLine hspan)
    (congrArg Span.startCol hspan) hrest
  have hold := h.suffix (hrest.trans (List.suffix_cons _ _))
  refine ⟨hold.statements, fun l hl => ?_⟩
  rcases List.mem_append.1 hl with hl | hl
  · exact hold.labels l hl
  · rw [List.mem_singleton.1 hl]
    exact hbefore

theorem Body.Precedes.statement {stmt : Located Stmt} (h : body.Precedes (token :: tokens))
    (htokens : InOrder (token :: tokens)) (hline : stmt.span.startLine = token.span.startLine)
    (hcol : stmt.span.startCol = token.span.startCol) (hrest : rest <:+ tokens) :
    Body.Precedes { body with statements := body.statements ++ [stmt] } rest := by
  have hbefore := startsBefore_of_starts htokens hline hcol hrest
  have hold := h.suffix (hrest.trans (List.suffix_cons _ _))
  refine ⟨fun s hs => ?_, hold.labels⟩
  rcases List.mem_append.1 hs with hs | hs
  · exact hold.statements s hs
  · rw [List.mem_singleton.1 hs]
    exact hbefore

theorem Body.Ordered.label {label : Name} (hordered : body.Ordered)
    (hprecedes : body.Precedes (token :: tokens)) (hspan : label.span = token.span) :
    Body.Ordered { body with labels := body.labels ++ [(label, body.statements.length)] } := by
  intro l pc hl
  rcases List.mem_append.1 hl with hold | hnew
  · exact hordered l pc hold
  · obtain ⟨rfl, rfl⟩ := Prod.mk.inj (List.mem_singleton.1 hnew)
    refine (List.countP_eq_length.2 fun s hs => decide_eq_true ?_).symm
    rw [hspan]
    exact hprecedes.statements s hs token List.mem_cons_self

theorem Body.Ordered.statement {stmt : Located Stmt} (hordered : body.Ordered)
    (hprecedes : body.Precedes (token :: tokens))
    (hline : stmt.span.startLine = token.span.startLine)
    (hcol : stmt.span.startCol = token.span.startCol) :
    Body.Ordered { body with statements := body.statements ++ [stmt] } := by
  intro l pc hl
  have hafter : ¬ stmt.span.StartsBefore l.span := by
    have hbefore := (hprecedes.labels _ hl token List.mem_cons_self).asymm
    unfold Span.StartsBefore at hbefore ⊢
    rwa [hline, hcol]
  rw [hordered l pc hl]
  simp [Body.statementsBefore, List.countP_append, hafter]

theorem atLabel_looks : Looks atLabel := by
  unfold atLabel
  intro c a c' h
  obtain ⟨first, d, hfirst, h⟩ := run_bind_eq_ok.1 h
  obtain ⟨second, e, hsecond, h⟩ := run_bind_eq_ok.1 h
  rw [← peek_looks _ _ _ hfirst, ← peekSecond_looks _ _ _ hsecond]
  split at h
  · exact (Prod.mk.inj (Except.ok.inj h)).2.symm
  · exact (Prod.mk.inj (Except.ok.inj h)).2.symm

theorem bodyLines_ordered {fuel : Nat} {c c' : Cursor} {result : Body}
    (h : bodyLines body fuel c = .ok (result, c')) (hordered : body.Ordered)
    (hprecedes : body.Precedes c.rest) (htokens : InOrder c.rest) :
    result.Ordered ∧ c'.rest <:+ c.rest := by
  induction fuel generalizing body c with
  | zero => cases h
  | succ fuel ih =>
    unfold bodyLines at h
    obtain ⟨_, c₁, hskip, hline⟩ := run_bind_eq_ok.1 h
    obtain ⟨closed, c₂, hclosed, hcase⟩ := run_bind_eq_ok.1 hline
    have hread : c₂.rest <:+ c.rest :=
      (accept_consumes _ _ _ _ hclosed).trans (skipLineEnds_consumes _ _ _ hskip)
    split at hcase
    · obtain ⟨_, c₃, hend, hdone⟩ := run_bind_eq_ok.1 hcase
      cases hdone
      exact ⟨hordered, (expectLineEnd_consumes _ _ _ hend).trans hread⟩
    · obtain ⟨kind, d, hkind, hopen⟩ := run_bind_eq_ok.1 hcase
      rw [peek_looks _ _ _ hkind] at hopen
      split at hopen
      · cases hopen
      · obtain ⟨labelled, d, hlabelled, hitem⟩ := run_bind_eq_ok.1 hopen
        rw [atLabel_looks _ _ _ hlabelled] at hitem
        have hbody := hprecedes.suffix hread
        have hrest := htokens.suffix hread
        split at hitem
        · obtain ⟨label, c₃, hlabel, hmore⟩ := run_bind_eq_ok.1 hitem
          obtain ⟨_, c₄, hcolon, hmore⟩ := run_bind_eq_ok.1 hmore
          obtain ⟨_, c₅, hend, hmore⟩ := run_bind_eq_ok.1 hmore
          obtain ⟨rest, htoken, rfl⟩ := expectWord_eq_ok hlabel
          rw [htoken] at hbody hrest hread
          have hleft : c₅.rest <:+ c₃.rest :=
            (expectLineEnd_consumes _ _ _ hend).trans (next_consumes _ _ _ hcolon)
          have hpast : c₅.rest <:+ ⟨.word label.value, label.span⟩ :: c₃.rest :=
            hleft.trans (List.suffix_cons _ _)
          obtain ⟨hresult, hsuffix⟩ := ih hmore (hordered.label hbody rfl)
            (hbody.label hrest rfl hleft) (hrest.suffix hpast)
          exact ⟨hresult, hsuffix.trans (hpast.trans hread)⟩
        · obtain ⟨stmt, c₃, hstmt, hmore⟩ := run_bind_eq_ok.1 hitem
          obtain ⟨_, c₄, hend, hmore⟩ := run_bind_eq_ok.1 hmore
          obtain ⟨token, rest, htoken, hafter, hline, hcol⟩ := statement_starts hstmt
          rw [htoken] at hbody hrest hread
          have hleft : c₄.rest <:+ rest := (expectLineEnd_consumes _ _ _ hend).trans hafter
          have hpast : c₄.rest <:+ token :: rest := hleft.trans (List.suffix_cons _ _)
          obtain ⟨hresult, hsuffix⟩ := ih hmore (hordered.statement hbody hline hcol)
            (hbody.statement hrest hline hcol hleft) (hrest.suffix hpast)
          exact ⟨hresult, hsuffix.trans (hpast.trans hread)⟩

theorem body_ordered {kind : BodyKind} {filtered : Bool} {c c' : Cursor} {result : Body}
    (h : Tree.body kind filtered c = .ok (result, c')) (htokens : InOrder c.rest) :
    result.Ordered ∧ c'.rest <:+ c.rest := by
  obtain ⟨name, c₁, hname, h⟩ := run_bind_eq_ok.1 h
  obtain ⟨_, c₂, hopen, h⟩ := run_bind_eq_ok.1 h
  obtain ⟨_, c₃, hend, h⟩ := run_bind_eq_ok.1 h
  obtain ⟨fuel, c₄, hfuel, h⟩ := run_bind_eq_ok.1 h
  rw [remaining_looks _ _ _ hfuel] at h
  have hread : c₃.rest <:+ c.rest :=
    ((expectLineEnd_consumes _ _ _ hend).trans (expectSign_consumes _ _ _ _ _ hopen)).trans
      (expectWord_consumes _ _ _ _ hname)
  obtain ⟨hresult, hsuffix⟩ := bodyLines_ordered h (fun _ _ hl => by cases hl)
    ⟨by simp, by simp⟩ (htokens.suffix hread)
  exact ⟨hresult, hsuffix.trans hread⟩

end Bodies

def Program.Ordered (program : Program) : Prop := ∀ body ∈ program.bodies, body.Ordered

section Declarations

variable {program result : Program} {c c' : Cursor}

theorem Program.Ordered.append {body : Body} (h : program.Ordered) (hbody : body.Ordered) :
    Program.Ordered { program with bodies := program.bodies ++ [body] } := by
  intro b hb
  rcases List.mem_append.1 hb with hb | hb
  · exact h b hb
  · rw [List.mem_singleton.1 hb]
    exact hbody

def GivesOrdered (x : Reader Program) : Prop :=
  ∀ c r c', InOrder c.rest → x c = .ok (r, c') → r.Ordered ∧ c'.rest <:+ c.rest

theorem declaration_ordered (hprogram : program.Ordered) (filtered : Bool) (keyword : Name) :
    GivesOrdered (declaration program filtered keyword) := by
  have hbody : ∀ kind filtered, GivesOrdered (do
      return { program with bodies := program.bodies ++ [← Tree.body kind filtered] }) := by
    intro kind filtered c r c' htokens h
    obtain ⟨body, d, hbody, h⟩ := run_bind_eq_ok.1 h
    cases h
    obtain ⟨hordered, hsuffix⟩ := body_ordered hbody htokens
    exact ⟨hprogram.append hordered, hsuffix⟩
  unfold declaration
  split
  · intro c r c' _ h
    obtain ⟨decl, d, hdecl, h⟩ := run_bind_eq_ok.1 h
    cases h
    exact ⟨hprogram, classDeclaration_reads.consumes _ _ _ hdecl⟩
  · intro c r c' _ h
    obtain ⟨decl, d, hdecl, h⟩ := run_bind_eq_ok.1 h
    cases h
    exact ⟨hprogram, (field_reads _ _).consumes _ _ _ hdecl⟩
  · exact hbody _ _
  · exact hbody _ _
  · intro c r c' _ h
    obtain ⟨condition, c₁, hcondition, h⟩ := run_bind_eq_ok.1 h
    obtain ⟨span, c₂, hspan, h⟩ := run_bind_eq_ok.1 h
    obtain ⟨_, c₃, hend, h⟩ := run_bind_eq_ok.1 h
    cases h
    rw [lastSpan_looks _ _ _ _ hspan] at hend
    exact ⟨hprogram,
      (expectLineEnd_consumes _ _ _ hend).trans (expression_reads.consumes _ _ _ hcondition)⟩
  · intro c r c' _ h
    split at h
    · cases h
    · split at h <;> cases h

theorem declarations_ordered {fuel : Nat} (hprogram : program.Ordered) (htokens : InOrder c.rest)
    (h : declarations fuel program c = .ok (result, c')) : result.Ordered := by
  induction fuel generalizing program c with
  | zero => cases h
  | succ fuel ih =>
    unfold declarations at h
    obtain ⟨_, c₁, hskip, h⟩ := run_bind_eq_ok.1 h
    obtain ⟨kind, d, hkind, h⟩ := run_bind_eq_ok.1 h
    rw [peek_looks _ _ _ hkind] at h
    split at h
    · obtain ⟨rfl, _⟩ := Prod.mk.inj (Except.ok.inj h)
      exact hprogram
    · obtain ⟨filtered, c₂, hmark, h⟩ := run_bind_eq_ok.1 h
      obtain ⟨keyword, c₃, hkeyword, h⟩ := run_bind_eq_ok.1 h
      obtain ⟨next, c₄, hnext, h⟩ := run_bind_eq_ok.1 h
      have hread : c₃.rest <:+ c.rest :=
        ((expectWord_consumes _ _ _ _ hkeyword).trans (filteredMark_reads.consumes _ _ _ hmark)).trans
          (skipLineEnds_consumes _ _ _ hskip)
      obtain ⟨hordered, hsuffix⟩ := declaration_ordered hprogram filtered keyword _ _ _
        (htokens.suffix hread) hnext
      exact ih hordered (htokens.suffix (hsuffix.trans hread)) h

end Declarations

theorem read_eq_ok {tokens : List Token} {tree : Program} (h : read tokens = .ok tree) :
    ∃ c', declarations tokens.length .empty ⟨tokens, none⟩ = .ok (tree, c') := by
  unfold read at h
  cases hrun : (declarations tokens.length .empty).run ⟨tokens, none⟩ with
  | error e =>
    rw [hrun] at h
    cases h
  | ok result =>
    rw [hrun] at h
    cases h
    exact ⟨result.2, hrun⟩

end Tree

def OnLine (line col : Nat) (tokens : List Token) : Prop :=
  Tree.InOrder tokens ∧ ∀ t ∈ tokens, t.span.startLine = line ∧ col ≤ t.span.startCol

section Texts

variable {line col : Nat} {tokens : List Token}

theorem OnLine.mono {col' : Nat} (h : OnLine line col' tokens) (hcol : col ≤ col') :
    OnLine line col tokens :=
  ⟨h.1, fun t ht => ⟨(h.2 t ht).1, hcol.trans (h.2 t ht).2⟩⟩

theorem onLine_end (line col : Nat) : OnLine line col [⟨.newline, .onLine line col col⟩] := by
  refine ⟨List.pairwise_singleton _ _, fun t ht => ?_⟩
  rw [List.mem_singleton.1 ht]
  exact ⟨rfl, le_rfl⟩

theorem OnLine.cons {kind : TokenKind} {last col' : Nat} (h : OnLine line col' tokens)
    (hcol : col < col') : OnLine line col (⟨kind, .onLine line col last⟩ :: tokens) := by
  refine ⟨List.pairwise_cons.2 ⟨fun t ht => ?_, h.1⟩, fun t ht => ?_⟩
  · obtain ⟨hline, hlater⟩ := h.2 t ht
    exact .inr ⟨hline.symm, Nat.lt_of_lt_of_le hcol hlater⟩
  · rcases List.mem_cons.1 ht with rfl | ht
    · exact ⟨rfl, le_rfl⟩
    · exact (h.mono hcol.le).2 t ht

theorem scanLine_onLine {chars : List Char} (h : scanLine line col chars = .ok tokens) :
    OnLine line col tokens := by
  fun_induction scanLine line col chars generalizing tokens with
  | case1 col =>
    cases h
    exact onLine_end line col
  | case2 col c rest hblank ih => exact (ih h).mono (Nat.le_succ col)
  | case3 col c rest hblank hcomment =>
    cases h
    exact (onLine_end line _).mono (Nat.le_add_right _ _)
  | case4 | case5 => cases h
  | case6 col c rest hblank hcomment kind more hlexeme tokens hrest ih =>
    cases h
    exact (ih hrest).cons (by omega)

theorem scanLines_inOrder {lines : List (List Char)} (h : scanLines line lines = .ok tokens) :
    Tree.InOrder tokens ∧ ∀ t ∈ tokens, line ≤ t.span.startLine := by
  induction lines generalizing line tokens with
  | nil =>
    cases h
    refine ⟨List.pairwise_singleton _ _, fun t ht => ?_⟩
    rw [List.mem_singleton.1 ht]
    exact le_rfl
  | cons chars rest ih =>
    unfold scanLines at h
    split at h
    · cases h
    · next first hfirst =>
      split at h
      · cases h
      · next more hmore =>
        cases h
        obtain ⟨horder, hline⟩ := scanLine_onLine hfirst
        obtain ⟨horder', hlater⟩ := ih hmore
        refine ⟨List.pairwise_append.2 ⟨horder, horder', fun a ha b hb => .inl ?_⟩, ?_⟩
        · have hb := hlater b hb
          rw [(hline a ha).1]
          omega
        · intro t ht
          rcases List.mem_append.1 ht with ht | ht
          · exact (hline t ht).1.ge
          · exact (Nat.le_succ line).trans (hlater t ht)

end Texts

/-- In a program that was read from a text, each label is kept with the number of statements of its
body that stand before it in the text. -/
theorem read_ordered {source : String} {tokens : List Token} {tree : Tree.Program}
    (hscan : Token.scan source = .ok tokens) (hread : Tree.read tokens = .ok tree) :
    tree.Ordered := by
  obtain ⟨c', hrun⟩ := Tree.read_eq_ok hread
  exact Tree.declarations_ordered (fun _ hb => by cases hb) (scanLines_inOrder hscan).1 hrun

end Interleave
