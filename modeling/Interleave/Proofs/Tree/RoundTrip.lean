import Interleave.Proofs.Tree.Shape
import Interleave.Proofs.Tree.Statements

set_option autoImplicit false

namespace Interleave.Tree

open Reader

def lineTokens (lines : List (List TokenKind)) : List TokenKind := lines.flatMap (· ++ [.newline])

variable {labels : List (Name × Nat)} {b : Body} {p : Program} {d : Declaration}
  {stmts : List (Located Stmt)}

theorem foldl_eq_extend {σ ι : Type} {add : σ → ι → σ} (extend : σ → List ι → σ)
    (hnil : ∀ s, extend s [] = s)
    (hcons : ∀ s i items, extend (add s i) items = extend s (i :: items))
    (items : List ι) (s : σ) : items.foldl add s = extend s items := by
  induction items generalizing s with
  | nil => exact (hnil s).symm
  | cons i items ih => rw [List.foldl_cons, ih, hcons]

theorem Inner.first {ks ks' : List TokenKind} (h : Inner ks) (hne : ks ≠ []) :
    ∃ k rest, ks ++ ks' = k :: rest ∧ k.isInner = true := by
  obtain ⟨k, rest, rfl⟩ := List.exists_cons_of_ne_nil hne
  exact ⟨k, rest ++ ks', rfl, h k List.mem_cons_self⟩

section Lines

variable {β γ : Type} {k : TokenKind} {ks : List TokenKind} {stop : Option TokenKind → Prop}
  {z : β → Reader γ} {r : β → Prop} {f : Bool → Reader γ}

theorem Leads.atLabel {text : String}
    (hf : (f true).Leads (.word text :: .sign .colon :: ks) stop z r) :
    (Tree.atLabel >>= f).Leads (.word text :: .sign .colon :: ks) stop z r := by
  unfold Tree.atLabel
  simp only [bind_assoc]
  exact .peek (.peekSecond hf)

theorem Leads.notAtLabel {k' : TokenKind} (hk' : k' ≠ .sign .colon)
    (hf : (f false).Leads (k :: k' :: ks) stop z r) :
    (Tree.atLabel >>= f).Leads (k :: k' :: ks) stop z r := by
  unfold Tree.atLabel
  simp only [bind_assoc]
  refine .peek (.peekSecond ?_)
  split
  · next heq => exact absurd (Option.some.inj heq) hk'
  · exact hf

def BodyLine.isPrintable : BodyLine → Bool
  | .label n => isName n
  | .statement s => s.value.isPrintable

def BodyLine.addTo (b : Body) : BodyLine → Body
  | .label n => { b with labels := b.labels ++ [(n, b.statements.length)] }
  | .statement s => { b with statements := b.statements ++ [s] }

def BodyLine.erase : BodyLine → BodyLine
  | .label n => .label n.erase
  | .statement s => .statement (Located.erase ⟨s.value.erase, s.span⟩)

theorem BodyLine.erase_addTo (b : Body) (line : BodyLine) :
    (line.addTo b).erase = line.erase.addTo b.erase := by
  cases line <;> simp [BodyLine.addTo, BodyLine.erase, Body.erase]

theorem bodyLines_round {line : BodyLine} (h : line.isPrintable = true) (fuel : Nat) (b b' : Body)
    (hb : b.erase = b'.erase) :
    (bodyLines b (fuel + 1)).Leads (line.tokens ++ [.newline]) (fun _ => True)
      (fun c => bodyLines c fuel) fun c => c.erase = (line.addTo b').erase := by
  -- the round adds a line that differs from the printed one in its places only
  have hadd : ∀ line' : BodyLine, line'.erase = line.erase →
      (bodyLines (line'.addTo b) fuel).Leads [] (fun _ => True) (fun c => bodyLines c fuel)
        fun c => c.erase = (line.addTo b').erase := by
    intro line' hline
    refine .done (z := fun c => bodyLines c fuel) ?_
    rw [BodyLine.erase_addTo, BodyLine.erase_addTo, hline, hb]
  rw [bodyLines]
  cases line with
  | label n =>
    refine .skipLineEnds rfl (by simp) (.skip (by simp) (.peek ?_))
    rw [if_neg (by simp)]
    refine Leads.atLabel (.expectWord fun span => .next fun _ => .expectLineEnd ?_)
    exact hadd (.label ⟨n.value, span⟩) rfl
  | statement s =>
    have hinner : Inner s.value.tokens := Stmt.tokens_inner h
    obtain ⟨k, rest, htokens⟩ := List.exists_cons_of_ne_nil (Stmt.tokens_ne_nil h)
    obtain ⟨k', more, hmore⟩ := List.exists_cons_of_ne_nil (l := rest ++ [.newline]) (by simp)
    have hline : s.value.tokens ++ [.newline] = k :: k' :: more := by
      rw [htokens, List.cons_append, hmore]
    have hk : k.isInner = true := hinner k (by simp [htokens])
    have hk' : k' ≠ .sign .colon := by
      rintro rfl
      have hmem : TokenKind.sign .colon ∈ rest ++ [.newline] := by simp [hmore]
      have hcolon : (TokenKind.sign .colon).isInner = true := hinner _ (by
        rw [htokens]
        exact List.mem_cons_of_mem _ (by simpa using hmem))
      cases hcolon
    rw [BodyLine.tokens, hline]
    refine .skipLineEnds rfl (by rintro rfl; cases hk) (.skip (by rintro rfl; cases hk) (.peek ?_))
    rw [if_neg (by rintro ⟨⟩; cases hk)]
    refine Leads.notAtLabel hk' ?_
    rw [← hline]
    refine (statement_takes h).bind (fun s' hs' => .expectLineEnd ?_) fun _ _ => rfl
    exact hadd (.statement s') (by simp [BodyLine.erase, Located.erase, hs'])

theorem bodyLines_end {q : Body → Prop} (hq : q b) (fuel : Nat) :
    (bodyLines b (fuel + 1)).Takes [.sign .closeBrace, .newline] stop q := by
  rw [bodyLines]
  exact Leads.skipLineEnds rfl (by decide) (.accept (.expectLineEnd (Takes.pure hq)))

end Lines

theorem foldl_addTo_labels (h : ∀ label ∈ labels, label.2 = b.statements.length) :
    (labels.map (BodyLine.label ·.1)).foldl BodyLine.addTo b =
      { b with labels := b.labels ++ labels } := by
  induction labels generalizing b with
  | nil => simp
  | cons label labels ih =>
    rw [List.forall_mem_cons] at h
    rw [List.map_cons, List.foldl_cons, ih (by exact h.2), BodyLine.addTo, ← h.1]
    simp

theorem lt_of_mem_dropWhile (h : labels.Pairwise (·.2 ≤ ·.2)) {pc : Nat} {label : Name × Nat}
    (hlabel : label ∈ labels.dropWhile (·.2 ≤ pc)) : pc < label.2 := by
  induction labels with
  | nil => cases hlabel
  | cons first labels ih =>
    rw [List.pairwise_cons] at h
    rw [List.dropWhile_cons] at hlabel
    split at hlabel
    · exact ih h.2 hlabel
    · next hfirst =>
      simp only [decide_eq_true_eq, Nat.not_le] at hfirst
      rcases List.mem_cons.1 hlabel with rfl | hmem
      · exact hfirst
      · exact Nat.lt_of_lt_of_le hfirst (h.1 label hmem)

/-- The lines of a body make up the body, when its labels stand in order. -/
theorem foldl_addTo_bodyLinesFrom (horder : labels.Pairwise (·.2 ≤ ·.2))
    (hwithin : ∀ label ∈ labels,
      b.statements.length ≤ label.2 ∧ label.2 ≤ b.statements.length + stmts.length) :
    (bodyLinesFrom b.statements.length labels stmts).foldl BodyLine.addTo b =
      { b with statements := b.statements ++ stmts, labels := b.labels ++ labels } := by
  induction stmts generalizing labels b with
  | nil =>
    rw [bodyLinesFrom, foldl_addTo_labels fun label hlabel => ?_, List.append_nil]
    obtain ⟨hlow, hhigh⟩ := hwithin label hlabel
    exact Nat.le_antisymm hhigh hlow
  | cons s stmts ih =>
    have hhere : ∀ label ∈ labels.takeWhile (·.2 ≤ b.statements.length),
        label.2 = b.statements.length := by
      intro label hlabel
      have hle : label.2 ≤ b.statements.length := by
        simpa using List.all_eq_true.1 List.all_takeWhile label hlabel
      exact Nat.le_antisymm hle (hwithin label (List.takeWhile_subset _ hlabel)).1
    have hafter : ∀ label ∈ labels.dropWhile (·.2 ≤ b.statements.length),
        (b.statements ++ [s]).length ≤ label.2 ∧
          label.2 ≤ (b.statements ++ [s]).length + stmts.length := by
      intro label hlabel
      have hlt := lt_of_mem_dropWhile horder hlabel
      have hhigh := (hwithin label (List.dropWhile_subset _ hlabel)).2
      simp only [List.length_append, List.length_cons, List.length_nil] at hhigh ⊢
      omega
    have hrest := ih (b := { b with
        statements := b.statements ++ [s]
        labels := b.labels ++ labels.takeWhile (·.2 ≤ b.statements.length) })
      (horder.sublist (List.dropWhile_sublist _)) hafter
    rw [List.length_append, List.length_singleton] at hrest
    rw [bodyLinesFrom, List.foldl_append, foldl_addTo_labels hhere, List.foldl_cons, BodyLine.addTo,
      hrest]
    simp only [List.append_assoc, List.takeWhile_append_dropWhile, List.singleton_append]

theorem bodyLinesFrom_printable (hlabels : ∀ label ∈ labels, isName label.1 = true)
    (hstmts : ∀ s ∈ stmts, s.value.isPrintable = true) (pc : Nat) :
    ∀ line ∈ bodyLinesFrom pc labels stmts, line.isPrintable = true := by
  induction stmts generalizing labels pc with
  | nil => exact List.forall_mem_map.2 hlabels
  | cons s stmts ih =>
    rw [List.forall_mem_cons] at hstmts
    refine List.forall_mem_append.2 ⟨List.forall_mem_map.2 fun label hlabel => ?_,
      List.forall_mem_cons.2 ⟨hstmts.1, ih (fun label hlabel => ?_) hstmts.2 _⟩⟩
    · exact hlabels label (List.takeWhile_subset _ hlabel)
    · exact hlabels label (List.dropWhile_subset _ hlabel)

structure Body.Writes (b : Body) : Prop where
  name : isName b.name = true
  unmarked : b.kind = .thread → b.filtered = false
  lines : ∀ line ∈ bodyLinesFrom 0 b.labels b.statements, line.isPrintable = true
  whole : (bodyLinesFrom 0 b.labels b.statements).foldl BodyLine.addTo
    ⟨b.kind, b.name, b.filtered, [], []⟩ = b

theorem Body.writes (hshaped : b.isShaped = true) (h : b.isPrintable = true) : b.Writes := by
  simp only [Body.isPrintable, Bool.and_eq_true, List.all_eq_true] at h
  simp only [Body.isShaped, Bool.and_eq_true, Bool.not_eq_true', Bool.and_eq_false_iff,
    decide_eq_true_eq, decide_eq_false_iff_not, List.all_eq_true] at hshaped
  obtain ⟨⟨hname, hlabels⟩, hstmts⟩ := h
  obtain ⟨⟨horder, hwithin⟩, hfiltered⟩ := hshaped
  refine ⟨hname, fun hkind => ?_, bodyLinesFrom_printable hlabels hstmts 0, ?_⟩
  · exact hfiltered.resolve_left (not_not_intro hkind)
  · refine foldl_addTo_bodyLinesFrom (b := ⟨b.kind, b.name, b.filtered, [], []⟩) horder
      fun label hlabel => ⟨Nat.zero_le _, ?_⟩
    simpa using hwithin label hlabel

theorem body_takes (h : b.Writes) :
    (body b.kind b.filtered).Takes (.word b.name.value :: .sign .openBrace :: .newline ::
      ((bodyLinesFrom 0 b.labels b.statements).flatMap (fun line => line.tokens ++ [.newline]) ++
        [.sign .closeBrace, .newline])) (fun _ => True) fun b' => b'.erase = b.erase := by
  refine Leads.expectWord fun span => .expectSign (.expectLineEnd (.remaining fun n hn => ?_))
  rw [List.length_append, List.length_cons] at hn
  have hstart : (⟨b.kind, ⟨b.name.value, span⟩, b.filtered, [], []⟩ : Body).erase =
      (⟨b.kind, b.name, b.filtered, [], []⟩ : Body).erase := rfl
  refine Leads.loop (fun fuel c => bodyLines c fuel) _ BodyLine.addTo
    (fun c c' => c.erase = c'.erase) (fun _ _ => by simp)
    (fun line hline fuel => bodyLines_round (h.lines line hline) fuel) hstart ?_ (by omega)
  intro fuel c hc
  rw [h.whole] at hc
  refine bodyLines_end ?_ fuel
  exact hc

section Fields

variable {β γ : Type} {k : TokenKind} {ks : List TokenKind} {stop : Option TokenKind → Prop}
  {z : β → Reader γ} {r : β → Prop} {f : Field}

theorem Leads.filteredMark {f : Bool → Reader γ} (filtered : Bool) (hks : ks.head? = some k)
    (hk : k ≠ .sign .atSign) (hf : (f filtered).Leads ks stop z r) :
    (Tree.filteredMark >>= f).Leads (mark filtered ++ ks) stop z r := by
  unfold Tree.filteredMark
  simp only [bind_assoc]
  cases filtered with
  | false => exact .skipOf hks hk hf
  | true =>
    refine .accept ?_
    rw [if_pos rfl, bind_assoc]
    exact .expectWord fun _ => hf

theorem literal_start (value : Int64) :
    ∃ k rest, literal value = k :: rest ∧ k ≠ .word "null" := by
  rw [literal]
  split
  · exact ⟨_, _, rfl, by simp⟩
  · exact ⟨_, _, rfl, by simp⟩

theorem initialValue_takes (name : Name) (initial : Option Initial) :
    (initialValue name).Takes (Initial.tokens initial) EndsLine
      fun i => i.map Located.erase = initial.map Located.erase := by
  match initial with
  | none => exact Leads.skipEnd (by simp [EndsLine]) (Takes.pure rfl)
  | some ⟨none, _⟩ =>
    exact Leads.accept (.peekSpan (by simp) fun span => .accept (Takes.pure rfl))
  | some ⟨some value, _⟩ =>
    obtain ⟨k, rest, hliteral, hk⟩ := literal_start value
    refine Leads.accept (.peekSpan (by simp [hliteral]) fun span =>
      .skipOf (by rw [hliteral]; rfl) hk ?_)
    simp only [Bool.false_eq_true, if_false, map_eq_pure_bind, bind_assoc, pure_bind]
    refine ((expectInt_takes value .initialValue).before fun _ _ => trivial).map fun v hv => ?_
    rw [hv]
    rfl

theorem mark_inner (filtered : Bool) : Inner (mark filtered) := by
  cases filtered with
  | false => exact .nil
  | true => exact .sign rfl (.word (by decide +kernel) .nil)

theorem Field.tokens_inner (h : f.isPrintable = true) : Inner f.tokens := by
  simp only [Field.isPrintable, Bool.and_eq_true] at h
  have hstatic : Inner (if f.isStatic then [TokenKind.word "static"] else []) := by
    cases f.isStatic with
    | false => exact .nil
    | true => exact .word (by decide +kernel) .nil
  have hinitial : Inner (Initial.tokens f.initial) := by
    obtain ⟨_, hinitial⟩ := h
    match f.initial, hinitial with
    | none, _ => exact .nil
    | some ⟨none, _⟩, _ => exact .sign rfl (.word (by decide +kernel) .nil)
    | some ⟨some value, _⟩, hvalue => exact .sign rfl (literal_inner hvalue)
  exact ((mark_inner f.filtered).append hstatic).append
    (.word (isWord_text f.type) (.name h.1 hinitial))

theorem field_takes (f : Field) :
    (field f.filtered f.isStatic).Takes (.word f.type.text :: .word f.name.value ::
      (Initial.tokens f.initial ++ [.newline])) (fun _ => True) fun f' => f'.erase = f.erase := by
  refine Leads.expectWord fun _ => ?_
  simp only [fieldType?_text]
  refine .expectWord fun span => (initialValue_takes _ f.initial).bind (fun i hi => ?_)
    fun _ _ => rfl
  refine .expectLineEnd (Takes.pure ?_)
  simp [Field.erase, hi, Located.erase]

theorem classLines_round {name : Name} (h : f.isPrintable = true) (fuel : Nat)
    (fields fields' : List Field) (hfields : fields.map Field.erase = fields'.map Field.erase) :
    (classLines name (fuel + 1) fields).Leads (f.tokens ++ [.newline]) (fun _ => True)
      (classLines name fuel) fun fs => fs.map Field.erase = (fields' ++ [f]).map Field.erase := by
  obtain ⟨k, rest, hline, hk⟩ : ∃ k rest, f.tokens ++ [.newline] = k :: rest ∧ k.isInner = true :=
    (Field.tokens_inner h).first (by simp [Field.tokens])
  have hfirst : (f.tokens ++ [TokenKind.newline]).head? = some k := by rw [hline]; rfl
  rw [classLines]
  refine .skipLineEnds hfirst (by rintro rfl; cases hk) (.skipOf hfirst (by rintro rfl; cases hk)
    (.peekOf hfirst ?_))
  rw [if_neg (by rintro ⟨⟩; cases hk), Field.tokens, List.append_assoc, List.append_assoc,
    List.cons_append, List.cons_append]
  have hread : (field f.filtered f.isStatic >>= fun f' => classLines name fuel (fields ++ [f'])).Leads
      (.word f.type.text :: .word f.name.value :: (Initial.tokens f.initial ++ [.newline]))
      (fun _ => True) (classLines name fuel)
      fun fs => fs.map Field.erase = (fields' ++ [f]).map Field.erase := by
    refine (field_takes f).leads fun f' hf' => ?_
    rw [List.map_append, List.map_append, hfields, List.map_singleton, List.map_singleton, hf']
  cases hstatic : f.isStatic with
  | false =>
    rw [hstatic] at hread
    have htype : TokenKind.word f.type.text ≠ .word "static" := by cases f.type <;> decide
    exact Leads.filteredMark f.filtered rfl (by simp) (.skip htype hread)
  | true =>
    rw [hstatic] at hread
    exact Leads.filteredMark f.filtered rfl (by simp) (.accept hread)

theorem classLines_end {name : Name} {fields : List Field} {q : List Field → Prop} (hq : q fields)
    (fuel : Nat) :
    (classLines name (fuel + 1) fields).Takes [.sign .closeBrace, .newline] stop q := by
  rw [classLines]
  exact Leads.skipLineEnds rfl (by decide) (.accept (.expectLineEnd (Takes.pure hq)))

theorem classDeclaration_takes {c : Class} (h : c.isPrintable = true) :
    classDeclaration.Takes (.word c.name.value :: .sign .openBrace :: .newline ::
      (c.fields.flatMap (fun f => f.tokens ++ [.newline]) ++ [.sign .closeBrace, .newline]))
      (fun _ => True) fun c' => c'.erase = c.erase := by
  simp only [Class.isPrintable, Bool.and_eq_true, List.all_eq_true] at h
  refine Leads.expectWord fun span => .expectSign (.expectLineEnd (.remaining fun n hn => ?_))
  rw [List.length_append, List.length_cons] at hn
  have hfields : (classLines ⟨c.name.value, span⟩ n []).Takes
      (c.fields.flatMap (fun f => f.tokens ++ [.newline]) ++ [.sign .closeBrace, .newline])
      (fun _ => True) fun fs => fs.map Field.erase = c.fields.map Field.erase := by
    refine Leads.loop (classLines ⟨c.name.value, span⟩) _ (fun fs f => fs ++ [f])
      (fun fs fs' => fs.map Field.erase = fs'.map Field.erase) (fun _ _ => by simp)
      (fun f hf fuel => classLines_round (h.2 f hf) fuel) rfl ?_ (by omega)
    intro fuel fs hfs
    rw [foldl_eq_extend (· ++ ·) (by simp) (by simp)] at hfs
    refine classLines_end ?_ fuel
    exact hfs
  refine hfields.map fun fs hfs => ?_
  simp [Class.erase, hfs, Located.erase]

end Fields

def Declaration.isPrintable : Declaration → Bool
  | .ofClass c => c.isPrintable
  | .ofStatic f => f.isStatic && f.isPrintable
  | .ofBody b => b.isShaped && b.isPrintable
  | .ofInvariant i => i.value.isPrintable

def Declaration.addTo (p : Program) : Declaration → Program
  | .ofClass c => { p with classes := p.classes ++ [c] }
  | .ofStatic f => { p with statics := p.statics ++ [f] }
  | .ofBody b => { p with bodies := p.bodies ++ [b] }
  | .ofInvariant i => { p with invariants := p.invariants ++ [i] }

def Declaration.erase : Declaration → Declaration
  | .ofClass c => .ofClass c.erase
  | .ofStatic f => .ofStatic f.erase
  | .ofBody b => .ofBody b.erase
  | .ofInvariant i => .ofInvariant (Located.erase ⟨i.value.erase, i.span⟩)

theorem Declaration.erase_addTo (p : Program) (d : Declaration) :
    (d.addTo p).erase = d.erase.addTo p.erase := by
  cases d <;> simp [Declaration.addTo, Declaration.erase, Program.erase]

theorem foldl_addTo_declarations (p : Program) :
    p.declarations.foldl Declaration.addTo .empty = p := by
  simp only [Program.declarations, List.foldl_append, List.foldl_map, Declaration.addTo]
  rw [foldl_eq_extend (fun (q : Program) (is : List (Located Expr)) =>
      { q with invariants := q.invariants ++ is }) (by simp) (by simp),
    foldl_eq_extend (fun (q : Program) (bs : List Body) => { q with bodies := q.bodies ++ bs })
      (by simp) (by simp),
    foldl_eq_extend (fun (q : Program) (fs : List Field) => { q with statics := q.statics ++ fs })
      (by simp) (by simp),
    foldl_eq_extend (fun (q : Program) (cs : List Class) => { q with classes := q.classes ++ cs })
      (by simp) (by simp)]
  rfl

theorem Program.declarations_printable (hshaped : p.isShaped = true) (h : p.isPrintable = true) :
    ∀ d ∈ p.declarations, d.isPrintable = true := by
  simp only [Program.isPrintable, Bool.and_eq_true, List.all_eq_true] at h
  simp only [Program.isShaped, Bool.and_eq_true, List.all_eq_true] at hshaped
  obtain ⟨⟨⟨hclasses, hstatics⟩, hbodies⟩, hinvariants⟩ := h
  simp only [Program.declarations, List.forall_mem_append, List.forall_mem_map]
  refine ⟨⟨⟨hclasses, fun f hf => ?_⟩, fun b hb => ?_⟩, hinvariants⟩
  · exact Bool.and_eq_true_iff.2 ⟨hshaped.1 f hf, hstatics f hf⟩
  · exact Bool.and_eq_true_iff.2 ⟨hshaped.2 b hb, hbodies b hb⟩

theorem declaration_takes (h : d.isPrintable = true) (p : Program) :
    Takes (do
      let filtered ← filteredMark
      let keyword ← expectWord .declaration
      declaration p filtered keyword) (lineTokens d.lines) (fun _ => True)
      fun p' => ∃ d' : Declaration, d'.erase = d.erase ∧ p' = d'.addTo p := by
  cases d with
  | ofClass c =>
    have htokens : lineTokens (Declaration.ofClass c).lines = mark false ++ (.word "class" ::
        .word c.name.value :: .sign .openBrace :: .newline ::
          (c.fields.flatMap (fun f => f.tokens ++ [.newline]) ++ [.sign .closeBrace, .newline])) := by
      simp [lineTokens, Declaration.lines, Class.lines, mark, List.flatMap_append, List.flatMap_map]
    rw [htokens]
    refine Leads.filteredMark false rfl (by simp) (.expectWord fun span => ?_)
    exact (classDeclaration_takes h).map fun c' hc' =>
      ⟨.ofClass c', congrArg Declaration.ofClass hc', rfl⟩
  | ofStatic f =>
    rw [Declaration.isPrintable, Bool.and_eq_true] at h
    have htokens : lineTokens (Declaration.ofStatic f).lines = mark f.filtered ++ (.word "static" ::
        .word f.type.text :: .word f.name.value :: (Initial.tokens f.initial ++ [.newline])) := by
      simp [lineTokens, Declaration.lines, Field.tokens, h.1]
    rw [htokens]
    refine Leads.filteredMark f.filtered rfl (by simp) (.expectWord fun span => ?_)
    have hread := field_takes f
    rw [h.1] at hread
    exact hread.map fun f' hf' => ⟨.ofStatic f', congrArg Declaration.ofStatic hf', rfl⟩
  | ofBody b =>
    have htokens : lineTokens (Declaration.ofBody b).lines = mark b.filtered ++ (.word b.kind.word ::
        .word b.name.value :: .sign .openBrace :: .newline ::
          ((bodyLinesFrom 0 b.labels b.statements).flatMap (fun line => line.tokens ++ [.newline]) ++
            [.sign .closeBrace, .newline])) := by
      simp [lineTokens, Declaration.lines, Body.lines, List.flatMap_append, List.flatMap_map]
    rw [htokens]
    rw [Declaration.isPrintable, Bool.and_eq_true] at h
    have hwrites := Body.writes h.1 h.2
    refine Leads.filteredMark b.filtered rfl (by simp) (.expectWord fun span => ?_)
    have hkeyword : declaration p b.filtered ⟨b.kind.word, span⟩ =
        (do return { p with bodies := p.bodies ++ [← body b.kind b.filtered] }) := by
      cases hkind : b.kind with
      | method => cases b.filtered <;> rfl
      | thread =>
        rw [hwrites.unmarked hkind]
        rfl
    rw [hkeyword]
    exact (body_takes hwrites).map fun b' hb' => ⟨.ofBody b', congrArg Declaration.ofBody hb', rfl⟩
  | ofInvariant i =>
    have htokens : lineTokens (Declaration.ofInvariant i).lines = mark false ++ (.word "invariant" ::
        (i.value.tokens ++ [.newline])) := by
      simp [lineTokens, Declaration.lines, mark]
    rw [htokens]
    refine Leads.filteredMark false rfl (by simp) (.expectWord fun span => ?_)
    refine (i.value.readable h).expression.bind (fun e he => .lookAny fun last =>
      .expectLineEnd (Takes.pure ?_)) fun _ _ => Nat.le_refl 0
    exact ⟨.ofInvariant ⟨e, _⟩, by simp [Declaration.erase, Located.erase, he], rfl⟩

theorem Declaration.lines_writable (h : d.isPrintable = true) :
    ∀ line ∈ d.lines, ∀ k ∈ line, k.isWritable = true := by
  have hinner : ∀ {ks}, Inner ks → ∀ k ∈ ks, TokenKind.isWritable k = true :=
    fun hks k hk => TokenKind.isWritable_of_isInner (hks k hk)
  have hbrace : ∀ k ∈ [TokenKind.sign .closeBrace], k.isWritable = true := by decide
  cases d with
  | ofClass c =>
    simp only [Declaration.isPrintable, Class.isPrintable, Bool.and_eq_true, List.all_eq_true] at h
    refine List.forall_mem_cons.2 ⟨hinner ?_, List.forall_mem_append.2 ⟨?_, ?_⟩⟩
    · exact .word (by decide +kernel) (.name h.1 (.sign rfl .nil))
    · exact List.forall_mem_map.2 fun f hf => hinner (Field.tokens_inner (h.2 f hf))
    · exact List.forall_mem_singleton.2 hbrace
  | ofStatic f =>
    rw [Declaration.isPrintable, Bool.and_eq_true] at h
    exact List.forall_mem_singleton.2 (hinner (Field.tokens_inner h.2))
  | ofBody b =>
    rw [Declaration.isPrintable, Bool.and_eq_true] at h
    have hwrites := Body.writes h.1 h.2
    have hkind : isWord b.kind.word = true := by cases b.kind <;> decide +kernel
    refine List.forall_mem_cons.2 ⟨hinner ?_, List.forall_mem_append.2 ⟨?_, ?_⟩⟩
    · exact (mark_inner b.filtered).append (.word hkind (.name hwrites.name (.sign rfl .nil)))
    · refine List.forall_mem_map.2 fun line hline => ?_
      have hprintable := hwrites.lines line hline
      cases line with
      | label n => exact List.forall_mem_cons.2 ⟨isWord_of_isName hprintable, by decide⟩
      | statement s => exact hinner (Stmt.tokens_inner hprintable)
    · exact List.forall_mem_singleton.2 hbrace
  | ofInvariant i =>
    exact List.forall_mem_singleton.2 (hinner (.word (by decide +kernel) (i.value.tokens_inner h)))

theorem Declaration.lines_start (d : Declaration) :
    ∃ k rest, lineTokens d.lines = k :: rest ∧ ∃ line ∈ d.lines, k ∈ line := by
  have hfirst : ∃ k ks more, d.lines = (k :: ks) :: more := by
    cases d with
    | ofClass c => exact ⟨_, _, _, rfl⟩
    | ofStatic f =>
      obtain ⟨k, ks, htokens⟩ := List.exists_cons_of_ne_nil (l := f.tokens) (by simp [Field.tokens])
      exact ⟨k, ks, [], by rw [Declaration.lines, htokens]⟩
    | ofBody b => cases hmark : b.filtered <;> exact ⟨_, _, _, by
        rw [Declaration.lines, Body.lines, hmark]; rfl⟩
    | ofInvariant i => exact ⟨_, _, _, rfl⟩
  obtain ⟨k, ks, more, hlines⟩ := hfirst
  refine ⟨k, ks ++ .newline :: lineTokens more, ?_, k :: ks, ?_, List.mem_cons_self⟩
  · simp [hlines, lineTokens]
  · simp [hlines]

theorem Declaration.lineTokens_ne_nil (d : Declaration) : lineTokens d.lines ≠ [] := by
  obtain ⟨k, rest, hstart, _⟩ := d.lines_start
  simp [hstart]

theorem declarations_round (h : d.isPrintable = true) (fuel : Nat) (p p' : Program)
    (hp : p.erase = p'.erase) :
    (declarations (fuel + 1) p).Leads (lineTokens d.lines) (fun _ => True) (declarations fuel)
      fun q => q.erase = (d.addTo p').erase := by
  have hread : Leads (do
      let filtered ← filteredMark
      let keyword ← expectWord .declaration
      declarations fuel (← declaration p filtered keyword)) (lineTokens d.lines) (fun _ => True)
      (declarations fuel) fun q => q.erase = (d.addTo p').erase := by
    have hall := (declaration_takes h p).leads (z := declarations fuel)
      (r := fun q => q.erase = (d.addTo p').erase) (g := fun q => q) (by
        rintro _ ⟨d', hd', rfl⟩
        rw [Declaration.erase_addTo, Declaration.erase_addTo, hd', hp])
    simpa only [bind_assoc] using hall
  obtain ⟨k, rest, htokens, line, hline, hmem⟩ := d.lines_start
  have hk : k.isWritable = true := Declaration.lines_writable h line hline k hmem
  have hfirst : (lineTokens d.lines).head? = some k := by rw [htokens, List.head?_cons]
  rw [declarations]
  refine .skipLineEnds hfirst (by rintro rfl; cases hk) (.peekOf hfirst ?_)
  rw [if_neg (by rintro ⟨⟩; cases hk)]
  exact hread

theorem declarations_end {q : Program → Prop} (hq : q p) (fuel : Nat) :
    (declarations (fuel + 1) p).Takes [] (· = some .eof) q := by
  intro front back last hfront hback
  obtain rfl := List.map_eq_nil_iff.1 hfront
  match back, hback with
  | ⟨.eof, span⟩ :: back, rfl => exact ⟨p, last, rfl, hq⟩

theorem read_of_lines (h : ∀ d ∈ p.declarations, d.isPrintable = true) {tokens : List Token}
    (htokens : tokens.map Token.kind = lineTokens p.lines ++ [.eof]) :
    ∃ p', read tokens = .ok p' ∧ p'.erase = p.erase := by
  have hloop : (declarations tokens.length .empty).Takes (lineTokens p.lines) (· = some .eof)
      fun p' => p'.erase = p.erase := by
    have hflat : lineTokens p.lines = p.declarations.flatMap (fun d => lineTokens d.lines) ++ [] := by
      simp [lineTokens, Program.lines, List.flatMap_assoc]
    have hlength := congrArg List.length htokens
    rw [List.length_map, hflat, List.append_nil, List.length_append, List.length_singleton] at hlength
    rw [hflat]
    refine Leads.loop declarations _ Declaration.addTo (fun q q' => q.erase = q'.erase)
      (fun d _ => d.lineTokens_ne_nil) (fun d hd fuel => declarations_round (h d hd) fuel) rfl ?_
      (by omega)
    intro fuel q hq
    rw [foldl_addTo_declarations] at hq
    refine declarations_end ?_ fuel
    exact hq
  obtain ⟨front, back, rfl, hfront, hback⟩ := List.map_eq_append_iff.1 htokens
  obtain ⟨p', last, hread, hp'⟩ := hloop front back none hfront (by
    rw [← List.head?_map, hback, List.head?_cons])
  refine ⟨p', ?_, hp'⟩
  rw [read, StateT.run, hread]
  rfl

theorem scan_print (h : ∀ d ∈ p.declarations, d.isPrintable = true) :
    ∃ tokens, Token.scan p.print = .ok tokens ∧
      tokens.map Token.kind = lineTokens p.lines ++ [.eof] := by
  refine scan_layoutLines fun line hline => ?_
  obtain ⟨d, hd, hmem⟩ := List.mem_flatMap.1 hline
  exact Declaration.lines_writable (h d hd) line hmem

/-- Reading inverts printing. Every program that is read has the shape of a text, and from a program
of that shape whose names, literals and messages can be written, its text is scanned and read and
gives the program back up to places. -/
theorem read_print :
    (∀ tokens p, read tokens = .ok p → p.isShaped = true) ∧
      ∀ p : Program, p.isShaped = true → p.isPrintable = true →
        ∃ tokens p', Token.scan p.print = .ok tokens ∧ read tokens = .ok p' ∧
          p'.erase = p.erase := by
  refine ⟨fun tokens p => read_shaped, fun p hshaped h => ?_⟩
  have hdeclarations := p.declarations_printable hshaped h
  obtain ⟨tokens, hscan, htokens⟩ := scan_print hdeclarations
  obtain ⟨p', hread, hp'⟩ := read_of_lines hdeclarations htokens
  exact ⟨tokens, p', hscan, hread, hp'⟩

def unplaced {α : Type} (value : α) : Located α := ⟨value, .onLine 0 0 0⟩

def Expr.ofName (text : String) : Expr := .name (unplaced text)

/-- A program with every kind of declaration, statement and right side. -/
def sampler : Program where
  classes := [⟨unplaced "Node",
    [⟨unplaced "value", .int, true, false, some (unplaced (some (-3)))⟩,
     ⟨unplaced "next", .ref, false, true, some (unplaced none)⟩]⟩]
  statics := [⟨unplaced "head", .ref, true, true, none⟩]
  bodies :=
    [{ kind := .method, name := unplaced "fill", filtered := true, labels := [],
       statements := [
         .assign (.ofName "s") .newSet,
         .assign (.index (.ofName "a") (.int 1)) (.newArray .ref (.int 4)),
         .assign (.member (.ofName "a") (unplaced "next")) (.new (unplaced "Node")),
         .assign (.ofName "b") .newBag,
         .assign (.ofName "i") (.choose (-1) 2),
         .insert (.ofName "s") .null,
         .remove (.ofName "s") (.unary .neg (.int 1)),
         .return].map unplaced },
     { kind := .thread, name := unplaced "main", filtered := false,
       labels := [(unplaced "again", 1), (unplaced "more", 1), (unplaced "done", 6),
         (unplaced "out", 7)],
       statements := [
         .lock (.ofName "head"),
         .call (unplaced "fill"),
         .ifGoto (.unary .not (.binary .eq (.ofName "i") (.int 0))) (unplaced "done"),
         .assert (.binary .lt (.ofName "i") (.int 9)) (some "too far"),
         .yield,
         .goto (unplaced "again"),
         .unlock (.ofName "head")].map unplaced }]
  invariants := [unplaced (.binary .sub (.ofName "i")
    (.binary .sub (.call (unplaced "size") [.ofName "s", .int 2])
      (.binary .mul (.binary .add (.int 1) (.int 2)) (.member (.int 3) (unplaced "value")))))]

theorem sampler_read_print : sampler.isShaped = true ∧ sampler.isPrintable = true ∧
    ∃ tokens p', Token.scan sampler.print = .ok tokens ∧ read tokens = .ok p' ∧
      p'.isShaped = true ∧ p'.erase = sampler.erase := by
  have hshaped : sampler.isShaped = true := by decide +kernel
  have h : sampler.isPrintable = true := by decide +kernel
  obtain ⟨tokens, p', hscan, hread, hp'⟩ := read_print.2 sampler hshaped h
  exact ⟨hshaped, h, tokens, p', hscan, hread, read_print.1 tokens p' hread, hp'⟩

example : String.ofList (layout (sampler.invariants.flatMap (·.value.tokens))) =
    "i - (size(s, 2) - (1 + 2) * (3).value)" := by decide +kernel

end Interleave.Tree
