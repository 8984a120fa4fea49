import Interleave.Proofs.Program.Faults
import Interleave.Proofs.Source.Lossless
import Interleave.Proofs.Tree.Progress

set_option autoImplicit false

namespace Interleave

/-- The span starts at a character of the lines, which are numbered from `first`, or right after a
line or the whole text. -/
def Span.StartsIn (first : Nat) (lines : List (List Char)) (s : Span) : Prop :=
  first ≤ s.startLine ∧ s.startLine ≤ first + lines.length ∧ 1 ≤ s.startCol ∧
    s.startCol ≤ (lines.getD (s.startLine - first) []).length + 1

section Texts

variable {first n col : Nat} {line : List Char} {lines : List (List Char)} {s : Span} {e : SourceError}

theorem Span.startsIn_of_mem (h : (line, n) ∈ lines.zipIdx first) (hline : s.startLine = n)
    (hcol : 1 ≤ s.startCol) (hlast : s.startCol ≤ line.length + 1) : s.StartsIn first lines := by
  obtain ⟨hfirst, hget⟩ := List.mk_mem_zipIdx_iff_le_and_getElem?_sub.1 h
  have hlt := (List.getElem?_eq_some_iff.1 hget).1
  refine ⟨by omega, by omega, hcol, ?_⟩
  rwa [hline, List.getD_eq_getElem?_getD, hget]

theorem Lossless.startsIn {tokens : List Token} (h : Lossless first lines tokens) {t : Token}
    (ht : t ∈ tokens) : t.span.StartsIn first lines := by
  cases hmark : t.kind.isMark with
  | false =>
    obtain ⟨⟨line, n⟩, hmem, before, chars, after, hline, hspan, _⟩ := h.placed t ht hmark
    have hlen := congrArg List.length hline
    simp only [List.length_append] at hlen
    rw [hspan]
    exact Span.startsIn_of_mem hmem rfl (Nat.le_add_left 1 _) (by simp only [Span.onLine]; omega)
  | true =>
    have hmem : t ∈ tokens.filter (·.kind.isMark) := List.mem_filter.2 ⟨ht, hmark⟩
    rw [h.marks, List.mem_append, List.mem_map, List.mem_singleton] at hmem
    rcases hmem with ⟨⟨line, n⟩, hmem, rfl⟩ | rfl
    · exact Span.startsIn_of_mem hmem rfl (Nat.le_add_left 1 _) (Nat.le_refl _)
    · exact ⟨Nat.le_add_right _ _, Nat.le_refl _, Nat.le_refl _, Nat.le_add_left 1 _⟩

theorem lexeme_error {c : Char} {rest : List Char} (h : lexeme n col c rest = .error e) :
    ∃ last, e.span = some (.onLine n col last) := by
  unfold lexeme at h
  split at h
  · cases h
  · split at h
    · cases h
    · split at h
      · dsimp only at h
        split at h <;> cases h
        exact ⟨_, rfl⟩
      · split at h
        · cases h
        · split at h
          · dsimp only at h
            split at h <;> cases h
            exact ⟨_, rfl⟩
          · cases h
            exact ⟨_, rfl⟩

theorem scanLine_error {chars : List Char} (h : scanLine n col chars = .error e) :
    ∀ s ∈ e.span, s.startLine = n ∧ col ≤ s.startCol ∧ s.startCol < col + chars.length := by
  fun_induction scanLine n col chars with
  | case1 | case3 | case6 => cases h
  | case2 col c rest hblank ih =>
    intro s hs
    obtain ⟨hline, hcol, hlt⟩ := ih h s hs
    rw [List.length_cons]
    omega
  | case4 col c rest hblank hcomment e' hlexeme =>
    cases h
    obtain ⟨last, hspan⟩ := lexeme_error hlexeme
    simp [hspan, Span.onLine]
  | case5 col c rest hblank hcomment kind more hlexeme e' hrest ih =>
    cases h
    intro s hs
    obtain ⟨hline, hcol, hlt⟩ := ih hrest s hs
    rw [List.length_drop] at hlt
    rw [List.length_cons]
    omega

theorem scanLines_error (h : scanLines first lines = .error e) :
    ∀ s ∈ e.span, s.StartsIn first lines := by
  induction lines generalizing first with
  | nil => cases h
  | cons line rest ih =>
    unfold scanLines at h
    split at h
    · next hline =>
      cases h
      intro s hs
      obtain ⟨hline, hcol, hlt⟩ := scanLine_error hline s hs
      exact Span.startsIn_of_mem (show (line, first) ∈ _ by simp) hline hcol (by omega)
    · split at h
      · next hrest =>
        cases h
        intro s hs
        obtain ⟨hfirst, hlast, hcol, hend⟩ := ih hrest s hs
        refine ⟨by omega, by rw [List.length_cons]; omega, hcol, ?_⟩
        rwa [show s.startLine - first = s.startLine - (first + 1) + 1 by omega, List.getD_cons_succ]
      · cases h

end Texts

theorem Span.StartsIn.upTo {first : Nat} {lines : List (List Char)} (a b : Span)
    (h : a.StartsIn first lines) :
    (a.upTo b).StartsIn first lines := h

/-- Reading a text takes a token in each round and in each level of brackets, and what is refused, in
scanning, reading or resolving, is pointed at inside the text. -/
theorem reading_ends_within (source path : String) :
    Tree.ReadingAdvances ∧ ∀ e, Program.ofSource source path = .error e →
      ∀ s ∈ e.span, s.StartsIn 1 (Text.lines source) := by
  refine ⟨Tree.readingAdvances, fun e he => ?_⟩
  rcases bind_eq_error he with he | ⟨tokens, hscan, he⟩
  · exact scanLines_error he
  have hleaves := (Tree.declarations_reads Span.StartsIn.upTo rfl Tree.Program.empty_sited
    tokens.length ⟨tokens, none⟩ fun t => (scanLines_lossless hscan).startsIn).2
  rcases bind_eq_error he with he | ⟨tree, hread, he⟩
  · unfold Tree.read StateT.run at he
    cases hrun : Tree.declarations tokens.length .empty ⟨tokens, none⟩ with
    | error e' =>
      rw [hrun] at he hleaves
      cases he
      exact hleaves
    | ok result =>
      rw [hrun] at he
      cases he
  · obtain ⟨c', hrun⟩ := Tree.read_eq_ok hread
    rw [hrun] at hleaves
    split at he
    · cases he
      simp
    · rcases ofTree_refuses (read_ordered hscan hread) (.inr hleaves.2.2) he with ⟨s, hs, hin⟩ | hnone
      · simpa [hs] using hin
      · simp [hnone.1]

/-- A text that breaks off inside two brackets is refused right after its last character. -/
theorem torn_refused_within :
    Program.ofSource "thread t \x7b\n  lock (a.b[" "torn" =
      .error ⟨.expected .expression, some (.onLine 2 13 13)⟩ ∧
    (Span.onLine 2 13 13).StartsIn 1 (Text.lines "thread t \x7b\n  lock (a.b[") := by
  have htorn : Program.ofSource "thread t \x7b\n  lock (a.b[" "torn" =
      .error ⟨.expected .expression, some (.onLine 2 13 13)⟩ := by
    decide +kernel
  exact ⟨htorn, (reading_ends_within _ _).2 _ htorn _ rfl⟩

end Interleave
