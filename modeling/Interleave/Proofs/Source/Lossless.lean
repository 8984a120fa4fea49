import Mathlib.Data.List.Pairwise
import Interleave.Proofs.Source.Layout

set_option autoImplicit false

/-! Scanning loses nothing of a text. Up to its comment, a line is made of blanks and of the
characters of its tokens; each token stands where its span says, and none of them could be longer. -/

namespace Interleave

/-- Whether a token is the end of a line or of the text, which has no characters of its own. -/
def TokenKind.isMark : TokenKind → Bool
  | .newline | .eof => true
  | .word _ | .int _ | .text _ | .sign _ => false

/-- The ways to write a token. They are many for a number, which may start with zeros. -/
def TokenKind.WrittenAs (chars : List Char) : TokenKind → Prop
  | .newline | .eof => False
  | .word name => chars = name.toList ∧ isWord name = true
  | .int value => decimalValue chars = value ∧ chars ≠ [] ∧ ∀ c ∈ chars, c.isDigit = true
  | .text content => chars = '"' :: content.toList ++ ['"'] ∧ '"' ∉ content.toList
  | .sign s => chars = s.spelling

/-- A token ends before these characters: they go on with no word and no number, and none of them
makes a sign longer. -/
def TokenKind.EndsAt (after : List Char) (k : TokenKind) : Prop :=
  ∀ c ∈ after.head?, match k with
    | .word _ => continuesWord c = false
    | .int _ => c.isDigit = false
    | .sign s => ∀ s', s.spelling ++ [c] ≠ Sign.spelling s'
    | .newline | .eof | .text _ => True

/-- A token starts after these characters: no letter could be the first one of its word, and no digit
the first one of its number. -/
def TokenKind.StartsAt (before : List Char) (k : TokenKind) : Prop :=
  ∀ c ∈ before.getLast?, match k with
    | .word _ => startsWord c = false
    | .int _ => c.isDigit = false
    | .newline | .eof | .text _ | .sign _ => True

/-- The characters at the token's span, on a line with this number, spell the token. -/
def Token.StandsIn (t : Token) (n : Nat) (line : List Char) : Prop :=
  ∃ before chars after, line = before ++ chars ++ after ∧
    t.span = .onLine n (before.length + 1) (before.length + chars.length) ∧
    t.kind.WrittenAs chars ∧ t.kind.StartsAt before ∧ t.kind.EndsAt after

def Span.Covers (span : Span) (n col : Nat) : Prop :=
  span.startLine = n ∧ span.startCol ≤ col ∧ col ≤ span.endCol

def Span.EndsBefore (a b : Span) : Prop :=
  a.endLine < b.startLine ∨ a.endLine = b.startLine ∧ a.endCol < b.startCol

section Places

variable {c : Char} {chars before after : List Char} {k : TokenKind}

theorem continuesWord_of_isDigit (h : c.isDigit = true) : continuesWord c = true := by
  have hnumeral : Text.isNumeral c = true := by
    have hfirst : Text.numeric.bounds = (0x30, 0x39) :: Text.numeric.bounds.tail := rfl
    rw [← Text.decimal_has] at h
    simp only [Text.decimal, Text.Ranges.has, List.any_cons, List.any_nil, Bool.or_false] at h
    rw [Text.isNumeral, Text.Ranges.has, hfirst, List.any_cons, h, Bool.true_or]
  simp [continuesWord, Text.isLetterOrNumeral, hnumeral]

theorem continuesWord_of_isBlank (h : Text.isBlank c = true) : continuesWord c = false := by
  have hletter : Text.isLetter c = false :=
    Text.Ranges.has_eq_false (a := Text.whiteSpace) (b := Text.alphabetic) (by decide +kernel) h
  have hnumeral : Text.isNumeral c = false :=
    Text.Ranges.has_eq_false (a := Text.whiteSpace) (b := Text.numeric) (by decide +kernel) h
  have hline : c ≠ '_' := by
    rintro rfl
    revert h
    decide
  simp [continuesWord, Text.isLetterOrNumeral, hletter, hnumeral, hline]

theorem continuesWord_of_mem_signStarts (h : c ∈ '"' :: signStarts) : continuesWord c = false := by
  have hall : (('"' :: signStarts).all fun c => !continuesWord c) = true := by decide +kernel
  simpa using List.all_eq_true.1 hall c h

def Boundary (before after : List Char) : Prop :=
  ∀ x ∈ before.getLast?, continuesWord x = true →
    ∀ c ∈ after.head?, continuesWord c = true → x.isDigit = true ∧ c.isDigit = false

theorem Boundary.stop (hc : continuesWord c = false) (before after : List Char) :
    Boundary (before ++ [c]) after := by
  intro x hx hcontinues
  rw [List.getLast?_concat, Option.mem_some_iff] at hx
  rw [← hx, hc] at hcontinues
  cases hcontinues

theorem Boundary.startsAt (h : Boundary before (chars ++ after)) (hk : k.WrittenAs chars) :
    k.StartsAt before := by
  intro x hx
  cases k with
  | newline | eof | text | sign => trivial
  | word name =>
    obtain ⟨rfl, hword⟩ := hk
    unfold isWord at hword
    split at hword
    · cases hword
    · next c rest hname =>
      have hc := continuesWord_of_startsWord (Bool.and_eq_true _ _ ▸ hword).1
      rw [hname] at h
      refine Bool.eq_false_iff.2 fun hstarts => ?_
      obtain ⟨hdigit, _⟩ := h x hx (continuesWord_of_startsWord hstarts) c rfl hc
      rw [isDigit_of_startsWord hstarts] at hdigit
      cases hdigit
  | int value =>
    obtain ⟨_, hne, hdigits⟩ := hk
    obtain ⟨c, rest, rfl⟩ := List.exists_cons_of_ne_nil hne
    have hc := hdigits c List.mem_cons_self
    refine Bool.eq_false_iff.2 fun hx' => ?_
    have hdigit := (h x hx (continuesWord_of_isDigit hx') c rfl (continuesWord_of_isDigit hc)).2
    rw [hc] at hdigit
    cases hdigit

theorem Boundary.ofWritten (hk : k.WrittenAs chars) (hends : k.EndsAt after) (before : List Char) :
    Boundary (before ++ chars) after := by
  cases k with
  | newline | eof => cases hk
  | word =>
    intro _ _ _ c hc hcontinues
    rw [show continuesWord c = false from hends c hc] at hcontinues
    cases hcontinues
  | int =>
    obtain ⟨_, hne, hdigits⟩ := hk
    intro x hx _ c hc _
    rw [List.getLast?_append, Option.or_of_isSome (List.getLast?_isSome.2 hne)] at hx
    exact ⟨hdigits x (List.mem_of_getLast? hx), hends c hc⟩
  | text content =>
    rw [hk.1, ← List.append_assoc]
    exact .stop (continuesWord_of_mem_signStarts List.mem_cons_self) _ _
  | sign s =>
    obtain ⟨init, c, hspelling, hc⟩ : ∃ init c, s.spelling = init ++ [c] ∧ c ∈ signStarts := by
      cases s <;> first | exact ⟨[], _, rfl, by decide⟩ | exact ⟨[_], _, rfl, by decide⟩
    rw [show chars = s.spelling from hk, hspelling, ← List.append_assoc]
    exact .stop (continuesWord_of_mem_signStarts (List.mem_cons_of_mem _ hc)) _ _

end Places

theorem takeWhile_splits (p : Char → Bool) (chars : List Char) :
    ∃ more after, chars.takeWhile p = more ∧ chars = more ++ after ∧ (∀ c ∈ more, p c = true) ∧
      ∀ c ∈ after.head?, p c = false := by
  refine ⟨_, chars.dropWhile p, rfl, List.takeWhile_append_dropWhile.symm,
    List.all_eq_true.1 List.all_takeWhile, fun c hc => ?_⟩
  have hstop := List.head?_dropWhile_not p chars
  rw [Option.mem_def.1 hc] at hstop
  exact hstop

theorem Sign.ofTwo?_iff {s : Sign} {c d : Char} : Sign.ofTwo? c d = some s ↔ s.spelling = [c, d] := by
  constructor
  · intro h
    unfold Sign.ofTwo? at h
    split at h <;> cases h <;> rfl
  · intro h
    cases s <;> cases h <;> rfl

theorem lexeme_eq_ok {line col n : Nat} {c : Char} {rest : List Char} {k : TokenKind}
    (h : lexeme line col c rest = .ok (k, n)) :
    ∃ more after, rest = more ++ after ∧ more.length = n ∧ k.WrittenAs (c :: more) ∧
      k.EndsAt after := by
  unfold lexeme at h
  split at h
  · next s htwo =>
    cases h
    obtain ⟨d, hd, hs⟩ := Option.bind_eq_some_iff.1 htwo
    obtain ⟨after, rfl⟩ := List.head?_eq_some_iff.1 hd
    rw [Sign.ofTwo?_iff] at hs
    refine ⟨[d], after, rfl, rfl, hs.symm, fun x _ s' heq => ?_⟩
    rcases spelling_cases s' with ⟨_, hs'⟩ | ⟨_, _, hs'⟩
    all_goals simp [hs, hs'] at heq
  · next htwo =>
    split at h
    · next s hone =>
      cases h
      have hs : s.spelling = [c] := by
        unfold Sign.ofOne? at hone
        split at hone <;> cases hone <;> rfl
      refine ⟨[], rest, rfl, rfl, hs.symm, fun d hd s' heq => ?_⟩
      rw [hs, List.singleton_append, eq_comm, ← Sign.ofTwo?_iff] at heq
      rw [Option.mem_def.1 hd, Option.bind_some, heq] at htwo
      cases htwo
    · split at h
      · next hdigit =>
        obtain ⟨more, after, htake, rfl, hmore, hafter⟩ := takeWhile_splits Char.isDigit rest
        simp only [htake] at h
        split at h <;> cases h
        exact ⟨more, after, rfl, rfl, ⟨rfl, by simp, List.forall_mem_cons.2 ⟨hdigit, hmore⟩⟩, hafter⟩
      · split at h
        · next hword =>
          obtain ⟨more, after, htake, rfl, hmore, hafter⟩ := takeWhile_splits continuesWord rest
          simp only [htake] at h
          cases h
          refine ⟨more, after, rfl, rfl, ⟨String.toList_ofList.symm, ?_⟩, hafter⟩
          simpa [isWord, hword] using hmore
        · split at h
          · next hquote =>
            obtain ⟨more, after, htake, rfl, hmore, hafter⟩ := takeWhile_splits (· ≠ '"') rest
            simp only [htake] at h
            split at h <;> cases h
            next hclosed =>
            obtain ⟨d, after, rfl⟩ := List.exists_cons_of_ne_nil (l := after)
              (by rintro rfl; simp at hclosed)
            obtain rfl : d = '"' := by simpa using hafter d rfl
            refine ⟨more ++ ['"'], after, by simp, by simp, ⟨?_, ?_⟩, fun _ _ => trivial⟩
            · rw [hquote, String.toList_ofList, List.cons_append]
            · rw [String.toList_ofList]
              exact fun hmem => by simpa using hmore _ hmem
          · cases h

def isComment : List Char → Bool
  | [] => false
  | c :: rest => startsComment c rest

def lineEnd (n : Nat) (line : List Char) : Token :=
  ⟨.newline, .onLine n (line.length + 1) (line.length + 1)⟩

def textEnd (n : Nat) : Token := ⟨.eof, .onLine n 1 1⟩

/-- Between two places of a line all characters are blank or inside a token, and the rest of the line
is a comment without tokens. -/
structure Accounts (tokens : List Token) (n : Nat) (line : List Char) (start stop : Nat) : Prop where
  body : ∀ i c, start ≤ i → i < stop → (line)[i]? = some c → Text.isBlank c = true ∨
    ∃ t ∈ tokens, t.kind.isMark = false ∧ t.span.Covers n (i + 1)
  tail : line.drop stop = [] ∨ isComment (line.drop stop) = true
  outside : ∀ t ∈ tokens, t.kind.isMark = false → t.span.startLine = n → t.span.endCol ≤ stop

structure Row (n : Nat) (line : List Char) (start stop : Nat) (tokens : List Token) : Prop
    extends Accounts tokens n line start stop where
  le : start ≤ stop
  spans : ∀ t ∈ tokens, t.span.startLine = n ∧ t.span.endLine = n ∧ start < t.span.startCol ∧
    t.span.startCol ≤ t.span.endCol
  increasing : tokens.Pairwise fun a b => a.span.endCol < b.span.startCol
  placed : ∀ t ∈ tokens, t.kind.isMark = false → t.StandsIn n line
  marks : tokens.filter (·.kind.isMark) = [lineEnd n line]

section Rows

variable {n start stop : Nat} {line before chars : List Char} {tokens : List Token}

theorem Row.ends (hstart : start ≤ line.length)
    (h : line.drop start = [] ∨ isComment (line.drop start) = true) :
    Row n line start start [lineEnd n line] := by
  have hcol : start < line.length + 1 := by omega
  exact ⟨⟨fun i c hi hlt => by omega, h, by simp [lineEnd, TokenKind.isMark]⟩, Nat.le_refl _,
    by simp [lineEnd, Span.onLine, hcol], List.pairwise_singleton _ _,
    by simp [lineEnd, TokenKind.isMark], rfl⟩

theorem Row.blank {c : Char} (hc : Text.isBlank c = true) (hline : (line)[start]? = some c)
    (h : Row n line (start + 1) stop tokens) : Row n line start stop tokens := by
  have hle := h.le
  refine ⟨⟨fun i d hi hlt hd => ?_, h.tail, h.outside⟩, by omega, fun t ht => ?_, h.increasing,
    h.placed, h.marks⟩
  · rcases Nat.eq_or_lt_of_le hi with rfl | hi
    · cases hline.symm.trans hd
      exact .inl hc
    · exact h.body i d hi hlt hd
  · obtain ⟨hstart, hend, hafter, hcols⟩ := h.spans t ht
    exact ⟨hstart, hend, by omega, hcols⟩

theorem Row.token {t : Token} {last : Nat} (hmark : t.kind.isMark = false) (ht : t.StandsIn n line)
    (hspan : t.span = .onLine n (start + 1) last) (hlast : start < last)
    (h : Row n line last stop tokens) : Row n line start stop (t :: tokens) := by
  have hle := h.le
  refine ⟨⟨fun i c hi hlt hc => ?_, h.tail, List.forall_mem_cons.2 ⟨fun _ _ => ?_, h.outside⟩⟩,
    by omega, List.forall_mem_cons.2 ⟨?_, fun u hu => ?_⟩,
    List.pairwise_cons.2 ⟨fun u hu => ?_, h.increasing⟩,
    List.forall_mem_cons.2 ⟨fun _ => ht, h.placed⟩, ?_⟩
  · by_cases hin : i < last
    · exact .inr ⟨t, List.mem_cons_self, hmark, by
        simp only [Span.Covers, hspan, Span.onLine, true_and]
        omega⟩
    · rcases h.body i c (by omega) hlt hc with hblank | ⟨u, hu, hcovers⟩
      · exact .inl hblank
      · exact .inr ⟨u, List.mem_cons_of_mem _ hu, hcovers⟩
  · rw [hspan]
    exact hle
  · simp only [hspan, Span.onLine, true_and]
    omega
  · obtain ⟨hstart, hend, hafter, hcols⟩ := h.spans u hu
    exact ⟨hstart, hend, by omega, hcols⟩
  · rw [hspan]
    exact (h.spans u hu).2.2.1
  · rw [List.filter_cons_of_neg (by simp [hmark]), h.marks]

theorem scanLine_row {col : Nat} (h : scanLine n col chars = .ok tokens)
    (hcol : col = before.length + 1) (hline : line = before ++ chars)
    (hbefore : Boundary before chars) : ∃ stop, Row n line before.length stop tokens := by
  fun_induction scanLine n col chars generalizing before tokens with
  | case1 col =>
    cases h
    subst hcol hline
    have hrow : Row n before before.length before.length [lineEnd n before] :=
      .ends (Nat.le_refl _) (by simp)
    exact ⟨_, by simpa [lineEnd] using hrow⟩
  | case2 col c rest hblank ih =>
    have hnext : col + 1 = (before ++ [c]).length + 1 := by simp [hcol]
    obtain ⟨stop, hrow⟩ := ih h hnext (by simp [hline])
      (.stop (continuesWord_of_isBlank hblank) before rest)
    rw [List.length_append, List.length_singleton] at hrow
    exact ⟨stop, hrow.blank hblank (by simp [hline])⟩
  | case3 col c rest hblank hcomment =>
    have hlast : col + (rest.length + 1) = line.length + 1 := by
      simp only [hcol, hline, List.length_append, List.length_cons]
      omega
    cases h
    change ∃ stop, Row n line before.length stop [⟨.newline, .onLine n (col + _) (col + _)⟩]
    rw [hlast]
    exact ⟨_, .ends (by simp [hline]) (.inr (by rw [hline, List.drop_left]; exact hcomment))⟩
  | case4 | case5 => cases h
  | case6 col c rest hblank hcomment kind more hlexeme tokens' hrest ih =>
    cases h
    obtain ⟨chars, after, rfl, rfl, hwritten, hends⟩ := lexeme_eq_ok hlexeme
    rw [← List.cons_append] at hbefore hline
    rw [List.drop_left] at ih hrest
    have hnext : before.length + 1 + chars.length = (before ++ c :: chars).length := by
      rw [List.length_append, List.length_cons]
      omega
    subst hcol
    obtain ⟨stop, hrow⟩ := ih hrest (congrArg (· + 1) hnext) (by simp [hline])
      (.ofWritten hwritten hends before)
    refine ⟨stop, hrow.token ?_ ⟨before, c :: chars, after, by simp [hline], ?_, hwritten,
      hbefore.startsAt hwritten, hends⟩ (by rw [hnext]) (by simp)⟩
    · cases kind with
      | newline | eof => cases hwritten
      | word | int | text | sign => rfl
    · rw [hnext, List.length_append]

end Rows

/-- The tokens of lines that are numbered from `first`. -/
structure Lossless (first : Nat) (lines : List (List Char)) (tokens : List Token) : Prop where
  spans : ∀ t ∈ tokens, first ≤ t.span.startLine ∧ t.span.endLine = t.span.startLine ∧
    t.span.startCol ≤ t.span.endCol
  increasing : tokens.Pairwise fun a b => a.span.EndsBefore b.span
  placed : ∀ t ∈ tokens, t.kind.isMark = false → ∃ x ∈ lines.zipIdx first, t.StandsIn x.2 x.1
  covered : ∀ x ∈ lines.zipIdx first, ∃ stop, Accounts tokens x.2 x.1 0 stop
  marks : tokens.filter (·.kind.isMark) =
    (lines.zipIdx first).map (fun x => lineEnd x.2 x.1) ++ [textEnd (first + lines.length)]
  last : tokens.getLast? = some (textEnd (first + lines.length))

section Texts

variable {first : Nat} {lines : List (List Char)} {tokens : List Token}

theorem Accounts.append {n start stop : Nat} {line : List Char} {more : List Token}
    (h : Accounts tokens n line start stop) (hmore : ∀ t ∈ more, t.span.startLine ≠ n)
    {all : List Token} (hall : ∀ t, t ∈ all ↔ t ∈ tokens ∨ t ∈ more) :
    Accounts all n line start stop := by
  refine ⟨fun i c hi hlt hc => ?_, h.tail, fun t ht hmark hn => ?_⟩
  · refine (h.body i c hi hlt hc).imp_right ?_
    rintro ⟨t, ht, hcovers⟩
    exact ⟨t, (hall t).2 (.inl ht), hcovers⟩
  · rcases (hall t).1 ht with ht | ht
    · exact h.outside t ht hmark hn
    · exact absurd hn (hmore t ht)

theorem Lossless.cons {line : List Char} {stop : Nat} {row : List Token}
    (hrow : Row first line 0 stop row) (h : Lossless (first + 1) lines tokens) :
    Lossless first (line :: lines) (row ++ tokens) := by
  have hnumber : first + (line :: lines).length = first + 1 + lines.length := by
    rw [List.length_cons]
    omega
  refine ⟨List.forall_mem_append.2 ⟨fun t ht => ?_, fun t ht => ?_⟩,
    List.pairwise_append.2 ⟨?_, h.increasing, fun a ha b hb => ?_⟩, ?_, ?_, ?_, ?_⟩
  · obtain ⟨hstart, hend, _, hcols⟩ := hrow.spans t ht
    exact ⟨Nat.le_of_eq hstart.symm, hend.trans hstart.symm, hcols⟩
  · obtain ⟨hstart, hspan⟩ := h.spans t ht
    exact ⟨Nat.le_of_succ_le hstart, hspan⟩
  · refine hrow.increasing.imp_of_mem fun ha hb hlt => .inr ⟨?_, hlt⟩
    rw [(hrow.spans _ ha).2.1, (hrow.spans _ hb).1]
  · exact .inl (by rw [(hrow.spans a ha).2.1]; exact (h.spans b hb).1)
  · rw [List.zipIdx_cons]
    refine List.forall_mem_append.2 ⟨fun t ht hmark => ?_, fun t ht hmark => ?_⟩
    · exact ⟨_, List.mem_cons_self, hrow.placed t ht hmark⟩
    · obtain ⟨x, hx, hstands⟩ := h.placed t ht hmark
      exact ⟨x, List.mem_cons_of_mem _ hx, hstands⟩
  · rw [List.zipIdx_cons, List.forall_mem_cons]
    refine ⟨⟨stop, hrow.toAccounts.append (fun t ht heq => ?_) fun _ => List.mem_append⟩,
      fun x hx => ?_⟩
    · exact Nat.ne_of_gt (h.spans t ht).1 heq
    · obtain ⟨stop, hcovered⟩ := h.covered x hx
      refine ⟨stop, hcovered.append (fun t ht heq => ?_) fun t => List.mem_append.trans or_comm⟩
      have hlater := List.le_snd_of_mem_zipIdx hx
      rw [← heq, (hrow.spans t ht).1] at hlater
      omega
  · rw [List.filter_append, hrow.marks, h.marks, List.zipIdx_cons, hnumber]
    rfl
  · rw [List.getLast?_append, h.last, Option.some_or, hnumber]

theorem scanLines_lossless (h : scanLines first lines = .ok tokens) :
    Lossless first lines tokens := by
  induction lines generalizing first tokens with
  | nil =>
    cases h
    exact ⟨by simp [Span.onLine], List.pairwise_singleton _ _, by simp [TokenKind.isMark], by simp,
      rfl, rfl⟩
  | cons line rest ih =>
    unfold scanLines at h
    split at h
    · cases h
    · next row hrow =>
      split at h <;> cases h
      next more hmore =>
      obtain ⟨stop, hrow⟩ := scanLine_row hrow (congrArg (· + 1) List.length_nil.symm) rfl
        (by simp [Boundary])
      exact .cons hrow (ih hmore)

/-- Tokens that cover a common place are one and the same. -/
theorem Lossless.unique (h : Lossless first lines tokens) {t t' : Token} (ht : t ∈ tokens)
    (ht' : t' ∈ tokens) {n col : Nat} (hcovers : t.span.Covers n col)
    (hcovers' : t'.span.Covers n col) : t = t' := by
  have hsymm : Std.Symm fun a b : Token => a.span.Covers n col → b.span.Covers n col → a = b :=
    ⟨fun a b hab hb ha => (hab ha hb).symm⟩
  have hall : tokens.Pairwise fun a b : Token =>
      a.span.Covers n col → b.span.Covers n col → a = b := by
    refine h.increasing.imp_of_mem fun ha _ hbefore hcovers hcovers' => ?_
    have hspan := h.spans _ ha
    simp only [Span.EndsBefore, Span.Covers] at hbefore hcovers hcovers'
    omega
  exact hall.forall_of_forall (fun _ _ _ _ => rfl) ht ht' hcovers hcovers'

end Texts

/-- Of a text that can be scanned, nothing is lost: apart from comments and the blanks between
tokens, every character stands in the span of exactly one token, which it helps to spell. -/
theorem scan_lossless {source : String} {tokens : List Token} (h : Token.scan source = .ok tokens) :
    Lossless 1 (Text.lines source) tokens ∧
      ∀ t ∈ tokens, ∀ t' ∈ tokens, ∀ n col, t.span.Covers n col → t'.span.Covers n col → t = t' := by
  have hlossless := scanLines_lossless h
  exact ⟨hlossless, fun t ht t' ht' n col => hlossless.unique ht ht'⟩

/-- Marks of a comment inside a text and the other way round, signs without blanks, an empty line. -/
def tangled : String := "ab1<=007 \"#//\" === //\"x\n\n#"

theorem tangled_lossless : ∃ tokens, Token.scan tangled = .ok tokens ∧
    tokens.map (·.kind) = [.word "ab1", .sign .le, .int 7, .text "#//", .sign .eq, .sign .assign,
      .newline, .newline, .newline, .eof] ∧
    Lossless 1 (Text.lines tangled) tokens ∧
    ∀ t ∈ tokens, ∀ t' ∈ tokens, ∀ n col, t.span.Covers n col → t'.span.Covers n col → t = t' := by
  have hkinds : (Token.scan tangled).toOption.map (List.map (·.kind)) = some [.word "ab1", .sign .le,
      .int 7, .text "#//", .sign .eq, .sign .assign, .newline, .newline, .newline, .eof] := by
    decide +kernel
  cases hscan : Token.scan tangled with
  | error e =>
    rw [hscan] at hkinds
    cases hkinds
  | ok tokens =>
    rw [hscan] at hkinds
    exact ⟨tokens, rfl, Option.some.inj hkinds, scan_lossless hscan⟩

end Interleave
