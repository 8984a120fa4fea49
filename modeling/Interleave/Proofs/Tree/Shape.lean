import Interleave.Proofs.Tree.Order
import Interleave.Proofs.Tree.Printer

set_option autoImplicit false

namespace Interleave.Tree

open Reader

def Reader.Gives {α : Type} (x : Reader α) (q : α → Prop) : Prop := ∀ c a c', x c = .ok (a, c') → q a

theorem Reader.Tied.gives {α : Type} {x y : Reader α} {n : Nat} {d : Fin 2} {q : α → Prop}
    (h : Tied (fun _ => True) n d x y q) : x.Gives q := by
  intro c a c' hx
  have hleaves := (h c fun _ _ => trivial).2
  rw [hx] at hleaves
  exact hleaves.2

structure Body.Sited (P : Span → Prop) (b : Body) : Prop where
  name : P b.name.span
  labels : ∀ label ∈ b.labels, P label.1.span
  statements : ∀ s ∈ b.statements, P s.span ∧ ∀ span ∈ s.value.spans, P span

structure Program.Sited (P : Span → Prop) (p : Program) : Prop where
  classes : ∀ c ∈ p.classes, ∀ s ∈ c.spans, P s
  statics : ∀ f ∈ p.statics, ∀ s ∈ f.spans, P s
  bodies : ∀ b ∈ p.bodies, b.Sited P
  invariants : ∀ i ∈ p.invariants, i.value.Sited P

def Body.LabelsInOrder (b : Body) : Prop :=
  b.labels.Pairwise (·.2 ≤ ·.2) ∧ ∀ label ∈ b.labels, label.2 ≤ b.statements.length

variable {p : Program} {b : Body} {P : Span → Prop}

theorem Body.LabelsInOrder.label (h : b.LabelsInOrder) (name : Name) :
    { b with labels := b.labels ++ [(name, b.statements.length)] }.LabelsInOrder := by
  refine ⟨List.pairwise_append.2 ⟨h.1, List.pairwise_singleton _ _, fun label hlabel => ?_⟩, ?_⟩
  · simpa using h.2 label hlabel
  · exact List.forall_mem_append.2 ⟨h.2, by simp⟩

theorem Body.LabelsInOrder.statement (h : b.LabelsInOrder) (s : Located Stmt) :
    { b with statements := b.statements ++ [s] }.LabelsInOrder := by
  refine ⟨h.1, fun label hlabel => ?_⟩
  rw [List.length_append]
  exact Nat.le_add_right_of_le (h.2 label hlabel)

theorem atLabel_reads : Reads P atLabel fun _ => True := by
  refine .look fun first => .look fun second => ?_
  split
  · exact .pure trivial
  · exact .pure trivial

variable (hupTo : ∀ a b : Span, P a → P (a.upTo b))

include hupTo

theorem bodyLines_reads (h : b.LabelsInOrder) (hb : b.Sited P) (fuel : Nat) :
    Reads P (bodyLines b fuel) fun c =>
      (c.LabelsInOrder ∧ c.kind = b.kind ∧ c.filtered = b.filtered) ∧ c.Sited P := by
  induction fuel generalizing b with
  | zero => exact .refuse (by simp)
  | succ fuel ih =>
    refine skipLineEnds_tied.bind fun _ _ =>
      .accept (expectLineEnd_tied.bind fun _ _ => .pure ⟨⟨h, rfl, rfl⟩, hb⟩) (.look fun next => ?_)
    split
    · exact .refuse (by simpa using hb.name)
    · refine atLabel_reads.bind fun labelled _ => ?_
      split
      · refine (expectWord_tied _).bind fun label hlabel => Tied.bind next_tied fun _ _ =>
          expectLineEnd_tied.bind fun _ _ => ih (h.label label) ⟨hb.name, ?_, hb.statements⟩
        exact List.forall_mem_append.2 ⟨hb.labels, List.forall_mem_singleton.2 hlabel⟩
      · refine (statement_reads hupTo).loose.bind fun s hs => expectLineEnd_tied.bind fun _ _ =>
          ih (h.statement s) ⟨hb.name, hb.labels, ?_⟩
        exact List.forall_mem_append.2 ⟨hb.statements, List.forall_mem_singleton.2 hs⟩

theorem body_reads {kind : BodyKind} {filtered : Bool} (h : kind = .thread → filtered = false) :
    Reads P (body kind filtered) fun b => b.isShaped = true ∧ b.Sited P := by
  refine (expectWord_tied _).bind fun name hname => (expectSign_tied _ _).bind fun _ _ =>
    expectLineEnd_tied.bind fun _ _ => .look fun fuel => ?_
  refine (bodyLines_reads hupTo ⟨.nil, by simp⟩ ⟨hname, by simp, by simp⟩ fuel).imp ?_
  rintro b ⟨⟨⟨horder, hwithin⟩, hkind, hfiltered⟩, hb⟩
  refine ⟨?_, hb⟩
  simp only [Body.isShaped, Bool.and_eq_true, Bool.not_eq_true', Bool.and_eq_false_iff,
    decide_eq_true_eq, decide_eq_false_iff_not, List.all_eq_true]
  refine ⟨⟨horder, hwithin⟩, ?_⟩
  rw [hkind, hfiltered]
  by_cases hthread : kind = .thread
  · exact .inr (h hthread)
  · exact .inl hthread

omit hupTo in
theorem Program.isShaped_iff : p.isShaped = true ↔
    (∀ f ∈ p.statics, f.isStatic = true) ∧ ∀ b ∈ p.bodies, b.isShaped = true := by
  simp [Program.isShaped]

theorem declaration_reads (p : Program) (filtered : Bool) {keyword : Name} (hkeyword : P keyword.span) :
    Reads P (declaration p filtered keyword) fun p' =>
      (p.isShaped = true → p'.isShaped = true) ∧ (p.Sited P → p'.Sited P) := by
  have hbody : ∀ kind filtered, (kind = .thread → filtered = false) →
      Reads P (do return { p with bodies := p.bodies ++ [← body kind filtered] }) fun p' =>
        (p.isShaped = true → p'.isShaped = true) ∧ (p.Sited P → p'.Sited P) := by
    intro kind filtered hkind
    refine (body_reads hupTo hkind).bind fun b hb =>
      .pure ⟨fun h => ?_, fun h => { h with bodies := ?_ }⟩
    · rw [Program.isShaped_iff] at h ⊢
      exact ⟨h.1, List.forall_mem_append.2 ⟨h.2, List.forall_mem_singleton.2 hb.1⟩⟩
    · exact List.forall_mem_append.2 ⟨h.bodies, List.forall_mem_singleton.2 hb.2⟩
  unfold declaration
  split
  · refine classDeclaration_reads.bind fun c hc => .pure ⟨id, fun h => { h with classes := ?_ }⟩
    exact List.forall_mem_append.2 ⟨h.classes, List.forall_mem_singleton.2 hc⟩
  · refine (field_reads _ true).loose.bind fun f hf =>
      .pure ⟨fun h => ?_, fun h => { h with statics := ?_ }⟩
    · rw [Program.isShaped_iff] at h ⊢
      exact ⟨List.forall_mem_append.2 ⟨h.1, List.forall_mem_singleton.2 hf.1⟩, h.2⟩
    · exact List.forall_mem_append.2 ⟨h.statics, List.forall_mem_singleton.2 hf.2⟩
  · exact hbody .method _ (by simp)
  · exact hbody .thread false fun _ => rfl
  · refine expression_reads.bind fun e he => .look fun last => expectLineEnd_tied.bind fun _ _ =>
      .pure ⟨id, fun h => { h with invariants := ?_ }⟩
    exact List.forall_mem_append.2 ⟨h.invariants, List.forall_mem_singleton.2 he⟩
  · have hspan : ∀ s ∈ some keyword.span, P s := by simpa using hkeyword
    split
    · exact .refuse hspan
    · split
      · exact .refuse hspan
      · exact .refuse hspan

theorem declarations_reads (h : p.isShaped = true) (hp : p.Sited P) (fuel : Nat) :
    Reads P (declarations fuel p) fun p => p.isShaped = true ∧ p.Sited P := by
  induction fuel generalizing p with
  | zero => exact .refuse (by simp)
  | succ fuel ih =>
    refine skipLineEnds_tied.bind fun _ _ => .look fun next => ?_
    split
    · exact .pure ⟨h, hp⟩
    · exact filteredMark_reads.bind fun filtered _ => (expectWord_tied _).bind fun keyword hkeyword =>
        (declaration_reads hupTo p filtered hkeyword).bind fun p' hp' => ih (hp'.1 h) (hp'.2 hp)

omit hupTo in
theorem Program.empty_sited : Program.empty.Sited P := ⟨by simp [Program.empty], by simp [Program.empty],
  by simp [Program.empty], by simp [Program.empty]⟩

omit hupTo in
theorem read_shaped {tokens : List Token} (h : read tokens = .ok p) : p.isShaped = true := by
  obtain ⟨c', hrun⟩ := read_eq_ok h
  exact ((declarations_reads (fun _ _ _ => trivial) rfl Program.empty_sited tokens.length).gives _ _ _
    hrun).1

end Interleave.Tree
