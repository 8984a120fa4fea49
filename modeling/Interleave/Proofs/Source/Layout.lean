import Interleave.Source.Lexer

set_option autoImplicit false

namespace Interleave

/-- How a token is written. The ends of lines and of the text are not written by themselves. -/
def TokenKind.spelling : TokenKind → List Char
  | .newline | .eof => []
  | .word chars => chars.toList
  | .int value => Nat.toDigits 10 value
  | .text content => '"' :: content.toList ++ ['"']
  | .sign s => s.spelling

def isWord (text : String) : Bool :=
  match text.toList with
  | [] => false
  | c :: rest => startsWord c && rest.all continuesWord

def TokenKind.isWritable : TokenKind → Bool
  | .newline | .eof => false
  | .word chars => isWord chars
  | .int value => value ≤ maxLiteral
  | .text content => content.toList.all fun c => c ≠ '"' && c ≠ '\n'
  | .sign _ => true

def Sign.joinsBefore : Sign → Bool
  | .dot | .comma | .colon | .closeParen | .openBracket | .closeBracket => true
  | _ => false

def Sign.joinsAfter : Sign → Bool
  | .dot | .openParen | .openBracket | .atSign => true
  | _ => false

def TokenKind.joins : TokenKind → TokenKind → Bool
  | .word _, .sign .openParen => true
  | .sign s, .sign s' => s.joinsAfter || s'.joinsBefore
  | .sign s, _ => s.joinsAfter
  | _, .sign s' => s'.joinsBefore
  | _, _ => false

def layout : List TokenKind → List Char
  | [] => []
  | [k] => k.spelling
  | k :: k' :: rest => k.spelling ++ (if k.joins k' then [] else [' ']) ++ layout (k' :: rest)

def layoutLines (lines : List (List TokenKind)) : String :=
  String.ofList (lines.flatMap fun line => layout line ++ ['\n'])

namespace Text

variable {c : Char}

theorem Ranges.has_eq_false {a b : Ranges}
    (h : (a.bounds.all fun r => b.bounds.all fun r' => r.2 < r'.1 || r'.2 < r.1) = true)
    (hc : a.has c = true) : b.has c = false := by
  simp only [Ranges.has, List.any_eq_true, List.any_eq_false, List.all_eq_true, Bool.and_eq_true,
    Bool.or_eq_true, decide_eq_true_eq] at *
  obtain ⟨r, hr, hlow, hhigh⟩ := hc
  intro r' hr' hmeet
  rcases h r hr r' hr' with hbefore | hafter <;> omega

def decimal : Ranges := ⟨[(0x30, 0x39)]⟩

theorem decimal_has (c : Char) : decimal.has c = c.isDigit := by
  rw [Bool.eq_iff_iff]
  simp only [decimal, Ranges.has, List.any_cons, List.any_nil, Bool.or_false, Bool.and_eq_true,
    decide_eq_true_eq, Char.isDigit, ge_iff_le, UInt32.le_iff_toNat_le]
  exact Iff.rfl

theorem isBlank_of_isLetter (h : isLetter c = true) : isBlank c = false :=
  Ranges.has_eq_false (a := alphabetic) (b := whiteSpace) (by decide +kernel) h

theorem isDigit_of_isLetter (h : isLetter c = true) : c.isDigit = false := by
  rw [← decimal_has]
  exact Ranges.has_eq_false (a := alphabetic) (b := decimal) (by decide +kernel) h

theorem isBlank_of_isDigit (h : c.isDigit = true) : isBlank c = false := by
  rw [← decimal_has] at h
  exact Ranges.has_eq_false (a := decimal) (b := whiteSpace) (by decide +kernel) h

end Text

variable {c : Char} {s : Sign} {k : TokenKind} {ks : List TokenKind} {chars : List Char}
  {lines : List (List TokenKind)}

theorem startsWord_cases (h : startsWord c = true) : Text.isLetter c = true ∨ c = '_' := by
  simpa [startsWord] using h

theorem isDigit_of_startsWord (h : startsWord c = true) : c.isDigit = false := by
  rcases startsWord_cases h with hletter | rfl
  · exact Text.isDigit_of_isLetter hletter
  · decide

theorem continuesWord_of_startsWord (h : startsWord c = true) : continuesWord c = true := by
  rcases startsWord_cases h with hc | rfl
  · simp [continuesWord, Text.isLetterOrNumeral, hc]
  · decide +kernel

def signStarts : List Char :=
  ['=', '!', '<', '>', '@', '+', '-', '*', '/', '%', ':', ',', '.', '(', ')', '{', '}', '[', ']',
    '&', '|']

theorem mem_signStarts_of_ofTwo? {d : Char} (h : Sign.ofTwo? c d = some s) : c ∈ signStarts := by
  unfold Sign.ofTwo? at h
  split at h
  case h_7 => cases h
  all_goals decide

theorem mem_signStarts_of_ofOne? (h : Sign.ofOne? c = some s) : c ∈ signStarts := by
  unfold Sign.ofOne? at h
  split at h
  case h_20 => cases h
  all_goals decide

def startsOther (c : Char) : Bool := startsWord c || c.isDigit || c == '"'

theorem not_mem_signStarts (h : startsOther c = true) : c ∉ signStarts := by
  have hsigns : (signStarts.all fun x => !startsOther x) = true := by decide +kernel
  intro hc
  have hother := List.all_eq_true.1 hsigns c hc
  rw [h] at hother
  cases hother

theorem plain_of_startsOther (h : startsOther c = true) :
    Text.isBlank c = false ∧ c ≠ '#' ∧ c ≠ '/' := by
  refine ⟨?_, ?_, ?_⟩
  · simp only [startsOther, startsWord, Bool.or_eq_true, beq_iff_eq] at h
    rcases h with ((hletter | rfl) | hdigit) | rfl
    · exact Text.isBlank_of_isLetter hletter
    · decide
    · exact Text.isBlank_of_isDigit hdigit
    · decide
  · rintro rfl
    revert h
    decide +kernel
  · exact fun hc => not_mem_signStarts h (hc ▸ by decide)

def TokenKind.endsBefore (k : TokenKind) (c : Char) : Bool :=
  match k with
  | .word _ => !continuesWord c
  | .int _ => !c.isDigit
  | .sign s => s.spelling.all fun x => (Sign.ofTwo? x c).isNone && !(x == '/' && c == '/')
  | _ => true

def ScansTo (chars : List Char) (ks : List TokenKind) : Prop :=
  ∀ line col, ∃ tokens, scanLine line col chars = .ok tokens ∧
    tokens.map (·.kind) = ks ++ [.newline]

section Scanning

variable {line col : Nat} {c : Char} {more rest : List Char} {k : TokenKind} {ks : List TokenKind}
  {s : Sign}

theorem ScansTo.nil : ScansTo [] [] := fun line col =>
  ⟨_, by rw [scanLine], rfl⟩

theorem ScansTo.blank (hc : Text.isBlank c = true) (h : ScansTo rest ks) :
    ScansTo (c :: rest) ks := by
  intro line col
  obtain ⟨tokens, hscan, hkinds⟩ := h line (col + 1)
  refine ⟨tokens, ?_, hkinds⟩
  rw [scanLine, if_pos hc, hscan]

theorem ScansTo.cons {n : Nat} (hblank : Text.isBlank c = false)
    (hcomment : startsComment c rest = false)
    (hlex : ∀ line col, lexeme line col c rest = .ok (k, n)) (h : ScansTo (rest.drop n) ks) :
    ScansTo (c :: rest) (k :: ks) := by
  intro line col
  obtain ⟨tokens, hscan, hkinds⟩ := h line (col + n + 1)
  refine ⟨⟨k, .onLine line col (col + n)⟩ :: tokens, ?_, by simp [hkinds]⟩
  rw [scanLine, hblank, hcomment, hlex]
  simp [hscan]

theorem takeWhile_append_stop {p : Char → Bool} (hmore : ∀ c ∈ more, p c = true)
    (hrest : ∀ c ∈ rest.head?, p c = false) : (more ++ rest).takeWhile p = more := by
  rw [List.takeWhile_append_of_pos hmore]
  cases rest with
  | nil => simp
  | cons c rest => simp [hrest c rfl]

theorem no_sign (h : startsOther c = true) (rest : List Char) :
    rest.head?.bind (Sign.ofTwo? c) = none ∧ Sign.ofOne? c = none := by
  rw [Option.bind_eq_none_iff]
  refine ⟨fun d _ => ?_, ?_⟩
  · exact Option.eq_none_iff_forall_ne_some.2 fun s hs =>
      not_mem_signStarts h (mem_signStarts_of_ofTwo? hs)
  · exact Option.eq_none_iff_forall_ne_some.2 fun s hs =>
      not_mem_signStarts h (mem_signStarts_of_ofOne? hs)

theorem lexeme_word (hc : startsWord c = true) (hmore : ∀ x ∈ more, continuesWord x = true)
    (hrest : ∀ x ∈ rest.head?, continuesWord x = false) :
    lexeme line col c (more ++ rest) = .ok (.word (String.ofList (c :: more)), more.length) := by
  have hother : startsOther c = true := by simp [startsOther, hc]
  obtain ⟨htwo, hone⟩ := no_sign hother (more ++ rest)
  unfold lexeme
  simp only [htwo, hone, isDigit_of_startsWord hc, Bool.false_eq_true, if_false, hc, if_true,
    takeWhile_append_stop hmore hrest]

theorem lexeme_int (hc : c.isDigit = true) (hmore : ∀ x ∈ more, x.isDigit = true)
    (hrest : ∀ x ∈ rest.head?, x.isDigit = false) (hvalue : decimalValue (c :: more) ≤ maxLiteral) :
    lexeme line col c (more ++ rest) = .ok (.int (decimalValue (c :: more)), more.length) := by
  have hother : startsOther c = true := by simp [startsOther, hc]
  obtain ⟨htwo, hone⟩ := no_sign hother (more ++ rest)
  unfold lexeme
  simp only [htwo, hone, hc, if_true, takeWhile_append_stop hmore hrest, hvalue]

theorem lexeme_text (hmore : ∀ x ∈ more, x ≠ '"') (rest : List Char) :
    lexeme line col '"' (more ++ '"' :: rest) = .ok (.text (String.ofList more), more.length + 1) := by
  obtain ⟨htwo, hone⟩ := no_sign (c := '"') (by decide +kernel) (more ++ '"' :: rest)
  have hword : startsWord '"' = false := by decide +kernel
  have hstop : (more ++ '"' :: rest).takeWhile (· ≠ '"') = more :=
    takeWhile_append_stop (by simpa using hmore) (by simp)
  have hclosed : more.length < (more ++ '"' :: rest).length := by simp
  unfold lexeme
  simp only [htwo, hone, hword, hstop, hclosed, show '"'.isDigit = false from rfl,
    Bool.false_eq_true, if_false, if_true]

theorem lexeme_sign (hs : s.spelling = [c]) (hrest : ∀ x ∈ rest.head?, Sign.ofTwo? c x = none) :
    lexeme line col c rest = .ok (.sign s, 0) := by
  have hone : Sign.ofOne? c = some s := by
    cases s <;> cases hs <;> rfl
  have htwo : rest.head?.bind (Sign.ofTwo? c) = none := Option.bind_eq_none_iff.2 hrest
  unfold lexeme
  rw [htwo, hone]

theorem lexeme_longSign {d : Char} (hs : s.spelling = [c, d]) (rest : List Char) :
    lexeme line col c (d :: rest) = .ok (.sign s, 1) := by
  have htwo : Sign.ofTwo? c d = some s := by
    cases s <;> cases hs <;> rfl
  unfold lexeme
  rw [List.head?_cons, Option.bind_some, htwo]

theorem spelling_cases (s : Sign) : (∃ c, s.spelling = [c]) ∨ ∃ c d, s.spelling = [c, d] := by
  cases s <;> simp [Sign.spelling]

theorem spelling_start (h : s.spelling = c :: more) :
    Text.isBlank c = false ∧ c ≠ '#' ∧ (c = '/' → more = []) := by
  cases s <;> cases h <;> decide

/-- A token is read back from its spelling, when the next character does not belong to it. -/
theorem ScansTo.token (hk : k.isWritable = true) (hrest : ∀ x ∈ rest.head?, k.endsBefore x = true)
    (h : ScansTo rest ks) : ScansTo (k.spelling ++ rest) (k :: ks) := by
  cases k with
  | newline | eof => cases hk
  | word chars =>
    simp only [TokenKind.isWritable, isWord] at hk
    split at hk
    · cases hk
    · next c more hchars =>
      rw [Bool.and_eq_true, List.all_eq_true] at hk
      obtain ⟨hblank, hhash, hslash⟩ := plain_of_startsOther (c := c) (by simp [startsOther, hk.1])
      have hends : ∀ x ∈ rest.head?, continuesWord x = false := by
        simpa [TokenKind.endsBefore] using hrest
      have hlex : ∀ line col, lexeme line col c (more ++ rest) = .ok (.word chars, more.length) := by
        intro line col
        rw [lexeme_word hk.1 hk.2 hends, ← hchars, String.ofList_toList]
      rw [TokenKind.spelling, hchars]
      exact .cons hblank (by simp [startsComment, hhash, hslash]) hlex (by simpa using h)
  | int value =>
    obtain ⟨c, more, hdigits⟩ := List.exists_cons_of_ne_nil (Nat.toDigits_ne_nil (n := value) (b := 10))
    have hall : ∀ x ∈ c :: more, x.isDigit = true := by
      rw [← hdigits]
      exact fun x hx => Nat.isDigit_of_mem_toDigits (by decide) (by decide) hx
    rw [List.forall_mem_cons] at hall
    have hvalue : decimalValue (c :: more) = value := by
      rw [← hdigits]
      exact Nat.ofDigitChars_toDigits (by decide) (by decide)
    have hsmall : value ≤ maxLiteral := of_decide_eq_true hk
    obtain ⟨hblank, hhash, hslash⟩ := plain_of_startsOther (c := c) (by simp [startsOther, hall.1])
    have hends : ∀ x ∈ rest.head?, x.isDigit = false := by
      simpa [TokenKind.endsBefore] using hrest
    have hlex : ∀ line col, lexeme line col c (more ++ rest) = .ok (.int value, more.length) := by
      intro line col
      rw [lexeme_int hall.1 hall.2 hends (hvalue ▸ hsmall), hvalue]
    rw [TokenKind.spelling, hdigits]
    exact .cons hblank (by simp [startsComment, hhash, hslash]) hlex (by simpa using h)
  | text content =>
    have hquotes : ∀ x ∈ content.toList, x ≠ '"' := by
      simp only [TokenKind.isWritable, List.all_eq_true, Bool.and_eq_true, decide_eq_true_eq] at hk
      exact fun x hx => (hk x hx).1
    have hlex : ∀ line col, lexeme line col '"' (content.toList ++ '"' :: rest) =
        .ok (.text content, content.toList.length + 1) := by
      intro line col
      rw [lexeme_text hquotes, String.ofList_toList]
    rw [TokenKind.spelling, List.cons_append, List.cons_append, List.append_assoc,
      List.singleton_append]
    refine .cons (by decide) (by simp [startsComment]) hlex ?_
    rw [← List.drop_drop, List.drop_left]
    exact h
  | sign s =>
    rcases spelling_cases s with ⟨c, hs⟩ | ⟨c, d, hs⟩
    · simp only [TokenKind.endsBefore, hs, List.all_cons, List.all_nil, Bool.and_true,
        Bool.and_eq_true, Option.isNone_iff_eq_none] at hrest
      obtain ⟨hblank, hhash, _⟩ := spelling_start hs
      have hcomment : startsComment c rest = false := by
        cases rest with
        | nil => simp [startsComment, hhash]
        | cons x rest => simpa [startsComment, hhash, Decidable.imp_iff_not_or] using (hrest x rfl).2
      rw [TokenKind.spelling, hs]
      exact .cons hblank hcomment (fun _ _ => lexeme_sign hs fun x hx => (hrest x hx).1) h
    · obtain ⟨hblank, hhash, hslash⟩ := spelling_start hs
      have hcomment : startsComment c (d :: rest) = false := by
        have hc : c ≠ '/' := fun hc => by simpa using hslash hc
        simp [startsComment, hhash, hc]
      rw [TokenKind.spelling, hs]
      exact .cons hblank hcomment (fun _ _ => lexeme_longSign hs rest) h

end Scanning

def separators : List Char := [' ', '.', ',', ':', ')', '[', ']']

theorem TokenKind.endsBefore_separator (k : TokenKind) (hc : c ∈ separators) :
    k.endsBefore c = true := by
  have hall : separators.all k.endsBefore = true := by
    cases k with
    | newline | eof | text => rfl
    | word =>
      change (separators.all fun c => !continuesWord c) = true
      decide +kernel
    | int =>
      change (separators.all fun c => !c.isDigit) = true
      decide
    | sign s => cases s <;> decide
  exact List.all_eq_true.1 hall c hc

theorem Sign.endsBefore_of_joinsAfter (h : s.joinsAfter = true) (c : Char) :
    (TokenKind.sign s).endsBefore c = true := by
  cases s <;> cases h <;>
    simp [TokenKind.endsBefore, Sign.spelling, Sign.ofTwo?]

theorem TokenKind.spelling_ne_nil (hk : k.isWritable = true) : k.spelling ≠ [] := by
  cases k with
  | newline | eof => cases hk
  | word chars =>
    intro hnil
    simp only [TokenKind.spelling] at hnil
    simp [TokenKind.isWritable, isWord, hnil] at hk
  | int value => exact Nat.toDigits_ne_nil
  | text => simp [TokenKind.spelling]
  | sign s => cases s <;> decide

theorem Sign.mem_separators (h : s.joinsBefore = true) (hc : c ∈ s.spelling.head?) : c ∈ separators := by
  cases s <;> cases h <;> cases hc <;> decide

theorem TokenKind.endsBefore_of_joins {k' : TokenKind} (h : k.joins k' = true)
    (hc : c ∈ k'.spelling.head?) : k.endsBefore c = true := by
  unfold TokenKind.joins at h
  split at h
  · cases hc
    change (!continuesWord '(') = true
    decide +kernel
  · next s s' =>
    rcases Bool.or_eq_true _ _ ▸ h with hafter | hbefore
    · exact Sign.endsBefore_of_joinsAfter hafter c
    · exact endsBefore_separator _ (Sign.mem_separators hbefore hc)
  · exact Sign.endsBefore_of_joinsAfter h c
  · exact endsBefore_separator _ (Sign.mem_separators h hc)
  · cases h

theorem layout_head? (hk : k.isWritable = true) (rest : List TokenKind) :
    (layout (k :: rest)).head? = k.spelling.head? := by
  obtain ⟨c, more, hspelling⟩ := List.exists_cons_of_ne_nil (TokenKind.spelling_ne_nil hk)
  cases rest with
  | nil => rfl
  | cons k' rest => rw [layout, hspelling, List.append_assoc, List.cons_append, List.head?_cons,
      List.head?_cons]

theorem layout_scansTo (h : ∀ k ∈ ks, k.isWritable = true) : ScansTo (layout ks) ks := by
  induction ks with
  | nil => exact .nil
  | cons k rest ih =>
    rw [List.forall_mem_cons] at h
    cases rest with
    | nil =>
      have hlast : ScansTo (k.spelling ++ []) [k] := .token h.1 (by simp) .nil
      rwa [List.append_nil] at hlast
    | cons k' rest =>
      have hk' := (List.forall_mem_cons.1 h.2).1
      rw [layout, List.append_assoc]
      split
      · next hjoins =>
        refine .token h.1 (fun c hc => TokenKind.endsBefore_of_joins hjoins ?_) (ih h.2)
        rwa [List.nil_append, layout_head? hk'] at hc
      · refine .token h.1 (fun c hc => ?_) (.blank (by decide) (ih h.2))
        obtain rfl : ' ' = c := Option.some.inj hc
        exact k.endsBefore_separator (by decide)

theorem TokenKind.spelling_line (hk : k.isWritable = true) :
    '\n' ∉ k.spelling ∧ k.spelling.getLast? ≠ some '\r' := by
  have hall : ∀ {p : Char → Bool} {chars : List Char}, (∀ c ∈ chars, p c = true) → p '\n' = false →
      p '\r' = false → '\n' ∉ chars ∧ chars.getLast? ≠ some '\r' := by
    intro p chars hchars hfeed hreturn
    refine ⟨fun hmem => ?_, fun hlast => ?_⟩
    · simp [hchars _ hmem] at hfeed
    · simp [hchars _ (List.mem_of_getLast? hlast)] at hreturn
  cases k with
  | newline | eof => cases hk
  | word chars =>
    simp only [TokenKind.isWritable, isWord] at hk
    split at hk
    · cases hk
    · next c more hchars =>
      rw [Bool.and_eq_true, List.all_eq_true] at hk
      rw [TokenKind.spelling, hchars]
      exact hall (List.forall_mem_cons.2 ⟨continuesWord_of_startsWord hk.1, hk.2⟩)
        (by decide +kernel) (by decide +kernel)
  | int value =>
    exact hall (fun c hc => Nat.isDigit_of_mem_toDigits (by decide) (by decide) hc) (by decide)
      (by decide)
  | text content =>
    simp only [TokenKind.isWritable, List.all_eq_true, Bool.and_eq_true, decide_eq_true_eq] at hk
    refine ⟨fun hmem => ?_, ?_⟩
    · simp only [TokenKind.spelling, List.cons_append, List.mem_cons, List.mem_append,
        List.not_mem_nil, or_false] at hmem
      rcases hmem with hquote | hmem | hquote
      · cases hquote
      · exact (hk _ hmem).2 rfl
      · cases hquote
    · rw [TokenKind.spelling, List.getLast?_append, List.getLast?_singleton, Option.some_or]
      decide
  | sign s => cases s <;> decide

theorem layout_line (h : ∀ k ∈ ks, k.isWritable = true) :
    '\n' ∉ layout ks ∧ (layout ks).getLast? ≠ some '\r' := by
  induction ks with
  | nil => simp [layout]
  | cons k rest ih =>
    rw [List.forall_mem_cons] at h
    obtain ⟨hfeed, hreturn⟩ := TokenKind.spelling_line h.1
    cases rest with
    | nil => exact ⟨hfeed, hreturn⟩
    | cons k' rest =>
      obtain ⟨hfeed', hreturn'⟩ := ih h.2
      refine ⟨?_, ?_⟩
      · rw [layout, List.mem_append, List.mem_append, not_or, not_or]
        refine ⟨⟨hfeed, ?_⟩, hfeed'⟩
        split <;> decide
      · have hmore : layout (k' :: rest) ≠ [] := by
          intro hnil
          have hhead := layout_head? (List.forall_mem_cons.1 h.2).1 rest
          rw [hnil, List.head?_nil, eq_comm, List.head?_eq_none_iff] at hhead
          exact TokenKind.spelling_ne_nil (List.forall_mem_cons.1 h.2).1 hhead
        rwa [layout, List.getLast?_append, Option.or_of_isSome (List.getLast?_isSome.2 hmore)]

theorem linesFrom_append (h : '\n' ∉ chars) (before rest : List Char) :
    Text.linesFrom before (chars ++ '\n' :: rest) =
      Text.closeLine (chars.reverse ++ before) :: Text.linesFrom [] rest := by
  induction chars generalizing before with
  | nil => simp [Text.linesFrom]
  | cons c chars ih =>
    rw [List.mem_cons, not_or] at h
    rw [List.cons_append, Text.linesFrom, if_neg (Ne.symm h.1), ih h.2]
    simp

theorem closeLine_reverse (h : chars.getLast? ≠ some '\r') :
    Text.closeLine chars.reverse = chars := by
  unfold Text.closeLine
  split
  · next rest hrest =>
    rw [← List.head?_reverse, hrest] at h
    exact absurd rfl h
  · exact List.reverse_reverse chars

theorem lines_of_lines {lines : List (List Char)}
    (h : ∀ chars ∈ lines, '\n' ∉ chars ∧ chars.getLast? ≠ some '\r') :
    Text.linesFrom [] (lines.flatMap (· ++ ['\n'])) = lines := by
  induction lines with
  | nil => simp [Text.linesFrom]
  | cons chars rest ih =>
    rw [List.forall_mem_cons] at h
    rw [List.flatMap_cons, List.append_assoc, List.singleton_append, linesFrom_append h.1.1,
      List.append_nil, closeLine_reverse h.1.2, ih h.2]

theorem scanLines_layout (h : ∀ ks ∈ lines, ∀ k ∈ ks, k.isWritable = true) (line : Nat) :
    ∃ tokens, scanLines line (lines.map layout) = .ok tokens ∧
      tokens.map (·.kind) = lines.flatMap (· ++ [.newline]) ++ [.eof] := by
  induction lines generalizing line with
  | nil => exact ⟨_, rfl, rfl⟩
  | cons ks rest ih =>
    rw [List.forall_mem_cons] at h
    obtain ⟨tokens, hscan, hkinds⟩ := layout_scansTo h.1 line 1
    obtain ⟨more, hmore, hmoreKinds⟩ := ih h.2 (line + 1)
    refine ⟨tokens ++ more, ?_, ?_⟩
    · rw [List.map_cons, scanLines, hscan, hmore]
    · rw [List.map_append, hkinds, hmoreKinds, List.flatMap_cons, List.append_assoc,
        List.append_assoc, List.append_assoc]

/-- Scanning lines that are laid out gives their tokens back. -/
theorem scan_layoutLines (h : ∀ ks ∈ lines, ∀ k ∈ ks, k.isWritable = true) :
    ∃ tokens, Token.scan (layoutLines lines) = .ok tokens ∧
      tokens.map (·.kind) = lines.flatMap (· ++ [.newline]) ++ [.eof] := by
  have hlines : Text.lines (layoutLines lines) = lines.map layout := by
    have htext : (lines.flatMap fun line => layout line ++ ['\n']) =
        (lines.map layout).flatMap (· ++ ['\n']) := by rw [List.flatMap_map]
    unfold Text.lines layoutLines
    rw [String.toList_ofList, htext]
    refine lines_of_lines fun chars hchars => ?_
    obtain ⟨ks, hks, rfl⟩ := List.mem_map.1 hchars
    exact layout_line (h ks hks)
  unfold Token.scan
  rw [hlines]
  exact scanLines_layout h 1

end Interleave
