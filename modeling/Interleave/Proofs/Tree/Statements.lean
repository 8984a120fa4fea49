import Interleave.Proofs.Tree.Expressions

set_option autoImplicit false

namespace Interleave.Tree

open Reader

section Statements

variable {k : TokenKind} {ks : List TokenKind} {stop : Option TokenKind → Prop} {text : String}
  {target e : Expr} {s : Stmt} {value : Rvalue} {q : Stmt → Prop}

theorem Expr.StartsWith.ne_word (h : e.StartsWith k) (htext : text ∈ keywords)
    (hnull : text ≠ "null") : k ≠ .word text := by
  intro heq
  rcases h.ne_keyword text heq with rfl | hno
  · exact hnull rfl
  · exact hno htext

theorem expectInt_takes (value : Int64) (what : Expected) :
    (expectInt what).Takes (literal value) (fun _ => True) (· = value) := by
  rw [literal]
  split
  · next hneg => exact Leads.accept (.next fun _ => Takes.pure (neg_ofNat_natAbs hneg))
  · next hneg => exact Leads.skip (by simp) (.next fun _ => Takes.pure (ofNat_natAbs hneg))

theorem fieldType?_text (type : FieldType) : fieldType? type.text = some type := by
  cases type <;> rfl

theorem rvalue_takes (h : value.isPrintable = true) :
    rvalue.Takes value.tokens (Stops 0) fun value' => value'.erase = value.erase := by
  cases value with
  | newSet => exact Leads.accept (Takes.pure rfl)
  | newBag => exact Leads.skip (by decide) (.accept (Takes.pure rfl))
  | new n =>
    refine Leads.skip (by decide) (.skip (by decide) (.accept (.expectWord fun span => ?_)))
    exact .skipEnd (by decide) (Takes.pure rfl)
  | newArray element length =>
    rw [Rvalue.isPrintable] at h
    refine Leads.skip (by decide) (.skip (by decide) (.accept (.expectWord fun span => .accept ?_)))
    simp only [fieldType?_text]
    refine (length.readable h).expression.bind (fun e he => .expectSign (Takes.pure ?_))
      fun _ _ => Nat.le_refl 0
    rw [Rvalue.erase, Rvalue.erase, he]
  | choose min max =>
    refine Leads.skip (by decide) (.skip (by decide) (.skip (by decide) (.peek (.peekSecond ?_))))
    rw [if_pos ⟨rfl, rfl⟩]
    refine .next fun _ => .next fun _ => (expectInt_takes min _).bind ?_ fun _ _ => trivial
    rintro _ rfl
    refine .expectSign ((expectInt_takes max _).bind ?_ fun _ _ => trivial)
    rintro _ rfl
    exact .expectSign (Takes.pure rfl)
  | expr e =>
    rw [Rvalue.isPrintable] at h
    obtain ⟨⟨k, rest, htokens, hk⟩, _⟩ := e.readable h
    have hfirst : e.tokens.head? = some k := by rw [htokens, List.head?_cons]
    have hchoose : ¬ some k = some (TokenKind.word "choose") := fun heq =>
      hk.ne_word (by decide) (by decide) (Option.some.inj heq)
    refine Leads.skipOf hfirst (hk.ne_word (by decide) (by decide)) (.skipOf hfirst
      (hk.ne_word (by decide) (by decide)) (.skipOf hfirst (hk.ne_word (by decide) (by decide)) ?_))
    refine .peekOf hfirst (.lookAny fun second => ?_)
    rw [if_neg (fun h => hchoose h.1)]
    refine (e.readable h).expression.map fun e' he' => ?_
    rw [Rvalue.erase, Rvalue.erase, he']

theorem statementAt_keyword {readRest : Reader Stmt}
    (htext : keywordStatement? text = some readRest) (h : readRest.Takes ks stop q) (start : Span) :
    (statementAt start).Takes (.word text :: ks) stop q := by
  refine Leads.peek ?_
  simp only [htext]
  exact .next fun _ => h

theorem keywordStatement?_eq_none (h : text ∉ keywords) : keywordStatement? text = none := by
  unfold keywordStatement?
  split
  all_goals first | exact absurd (by decide) h | rfl

theorem statementAt_assignment (hks : ks.head? = some k)
    (hk : ∀ text, k = .word text → text = "null" ∨ text ∉ keywords) (h : assignment.Takes ks stop q)
    (start : Span) : (statementAt start).Takes ks stop q := by
  refine Leads.peekOf hks ?_
  split
  · next text heq =>
    have hplain : keywordStatement? text = none ∧ text ∉ reservedWords := by
      rcases hk text (Option.some.inj heq) with rfl | hno
      · exact ⟨rfl, by decide⟩
      · exact ⟨keywordStatement?_eq_none hno, fun hmem => hno (List.mem_append_right _ hmem)⟩
    simp only [hplain.1, if_neg hplain.2]
    exact h
  · exact h

theorem selectionWithBrackets_takes (h : target.isPrintable = true) :
    selectionWithBrackets.Takes (parenthesize (target.level < 6) target.tokens) (Stops 6)
      fun target' => target'.erase = target.erase := by
  refine Leads.remaining fun n hn => ?_
  exact ((target.readable h).operand (by decide)
    (fun hbare => Nat.le_of_not_lt (of_decide_eq_false hbare)) (Nat.le_succ_of_le hn)).takes
      (by decide)

def EndsLine (next : Option TokenKind) : Prop := next = some .newline

theorem EndsLine.stops {level : Nat} (next : Option TokenKind) (h : EndsLine next) :
    Stops level next := by
  rw [show next = some .newline from h]
  exact Nat.zero_le level

theorem Expr.takes_line (h : e.isPrintable = true) :
    expression.Takes e.tokens EndsLine fun e' => e'.erase = e.erase :=
  (e.readable h).expression.before EndsLine.stops

theorem collectionAndItem_takes {collection item : Expr}
    (h : (collection.isPrintable && item.isPrintable) = true) :
    collectionAndItem.Takes (collection.tokens ++ .sign .comma :: item.tokens) EndsLine
      fun both => both.1.erase = collection.erase ∧ both.2.erase = item.erase := by
  rw [Bool.and_eq_true] at h
  refine (collection.readable h.1).expression.bind (fun c hc => .expectSign ?_)
    fun _ _ => Nat.le_refl 0
  exact (Expr.takes_line h.2).map fun i hi => ⟨hc, hi⟩

theorem assertionMessage_takes (message : Option String) :
    assertionMessage.Takes (message.elim [] fun text => [.sign .comma, .text text]) EndsLine
      (· = message) := by
  cases message with
  | none => exact Leads.skipEnd (by simp [EndsLine]) (Takes.pure rfl)
  | some text => exact Leads.accept (.next fun _ => Takes.pure rfl)

theorem assignment_takes (h : (Stmt.assign target value).isPrintable = true) :
    assignment.Takes (Stmt.assign target value).tokens EndsLine
      fun s => s.erase = (Stmt.assign target value).erase := by
  rw [Stmt.isPrintable, Bool.and_eq_true] at h
  refine (selectionWithBrackets_takes h.1).bind (fun t ht => .expectSign ?_)
    fun _ _ => Nat.zero_le 6
  refine ((rvalue_takes h.2).before EndsLine.stops).map fun v hv => ?_
  rw [Stmt.erase, Stmt.erase, ht, hv]

theorem assign_start (h : target.isPrintable = true) (value : Rvalue) :
    ∃ k, (Stmt.assign target value).tokens.head? = some k ∧
      ∀ text, k = .word text → text = "null" ∨ text ∉ keywords := by
  obtain ⟨⟨k, rest, htokens, hk⟩, _⟩ := target.readable h
  rw [Stmt.tokens, parenthesize]
  split
  · exact ⟨_, rfl, by simp⟩
  · exact ⟨k, by rw [htokens]; rfl, hk.ne_keyword⟩

theorem statementAt_takes (h : s.isPrintable = true) (start : Span) :
    (statementAt start).Takes s.tokens EndsLine fun s' => s'.erase = s.erase := by
  cases s with
  | assign target value =>
    obtain ⟨k, hfirst, hk⟩ : ∃ k, (Stmt.assign target value).tokens.head? = some k ∧
        ∀ text, k = .word text → text = "null" ∨ text ∉ keywords := by
      rw [Stmt.isPrintable, Bool.and_eq_true] at h
      exact assign_start h.1 value
    exact statementAt_assignment hfirst hk (assignment_takes h) start
  | insert collection item | remove collection item =>
    refine statementAt_keyword rfl ((collectionAndItem_takes h).map fun both hboth => ?_) start
    rw [Stmt.erase, Stmt.erase, hboth.1, hboth.2]
  | lock e | unlock e =>
    refine statementAt_keyword rfl ((Expr.takes_line h).map fun e' he' => ?_) start
    rw [Stmt.erase, Stmt.erase, he']
  | assert e message =>
    rw [Stmt.isPrintable, Bool.and_eq_true] at h
    have htokens : (Stmt.assert e message).tokens = .word "assert" ::
        (e.tokens ++ message.elim [] fun text => [.sign .comma, .text text]) := by
      cases message with
      | none => rw [Stmt.tokens, Option.elim, List.append_nil]
      | some text => rfl
    rw [htokens]
    refine statementAt_keyword rfl ?_ start
    refine (e.readable h.1).expression.bind (fun e' he' => ?_) ?_
    · refine (assertionMessage_takes message).map fun message' hmessage => ?_
      rw [Stmt.erase, Stmt.erase, he', hmessage]
    · intro next hnext
      cases message with
      | none => exact EndsLine.stops next hnext
      | some text => exact Nat.le_refl 0
  | ifGoto e label =>
    rw [Stmt.isPrintable, Bool.and_eq_true] at h
    refine statementAt_keyword rfl ?_ start
    refine (e.readable h.1).expression.bind (fun e' he' => .accept (.expectWord fun span => ?_))
      fun _ _ => Nat.le_refl 0
    refine Takes.pure ?_
    rw [Stmt.erase, Stmt.erase, he']
    rfl
  | goto label | call label =>
    refine statementAt_keyword rfl ?_ start
    exact Leads.expectWord fun span => Takes.pure rfl
  | «return» | yield =>
    refine statementAt_keyword rfl ?_ start
    exact Takes.pure rfl

theorem Stmt.tokens_ne_nil (h : s.isPrintable = true) : s.tokens ≠ [] := by
  cases s with
  | assign target value =>
    rw [Stmt.isPrintable, Bool.and_eq_true] at h
    obtain ⟨k, hfirst, _⟩ := assign_start h.1 value
    exact fun hnil => by simp [hnil] at hfirst
  | assert e message => cases message <;> simp [Stmt.tokens]
  | insert | remove | lock | unlock | ifGoto | goto | call | «return» | yield => simp [Stmt.tokens]

theorem statement_takes (h : s.isPrintable = true) :
    statement.Takes s.tokens EndsLine fun s' => s'.value.erase = s.erase := by
  refine Leads.peekSpan (Stmt.tokens_ne_nil h) fun start => ?_
  have hall : Takes (statementAt start >>= fun stmt => lastSpan start >>= fun last =>
      pure (⟨stmt, start.upTo last⟩ : Located Stmt)) (s.tokens ++ []) EndsLine
      fun s' => s'.value.erase = s.erase :=
    (statementAt_takes h start).bind (fun s' hs' => .lookAny fun last => Takes.pure hs')
      fun _ hnext => hnext
  rwa [List.append_nil] at hall

end Statements

end Interleave.Tree
