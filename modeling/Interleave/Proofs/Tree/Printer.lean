import Interleave.Program.Listing
import Interleave.Proofs.Source.Layout
import Interleave.Tree.Statement

set_option autoImplicit false

namespace Interleave

def UnOp.asSign : UnOp → Sign
  | .neg => .minus
  | .not => .bang

def BinOp.asSign : BinOp → Sign
  | .add => .plus
  | .sub => .minus
  | .mul => .star
  | .div => .slash
  | .rem => .percent
  | .eq => .eq
  | .ne => .ne
  | .lt => .lt
  | .le => .le
  | .gt => .gt
  | .ge => .ge
  | .and => .both
  | .or => .either

def BinOp.level : BinOp → Nat
  | .or => 0
  | .and => 1
  | .eq | .ne | .lt | .le | .gt | .ge => 2
  | .add | .sub => 3
  | .mul | .div | .rem => 4

/-- How tightly a left operand must bind: a comparison is no operand of a comparison, and the other
operators group to the left. -/
def BinOp.leftLevel (op : BinOp) : Nat :=
  if op.level = 2 then 3 else op.level

namespace Tree

/-- How tightly an expression binds when it is printed: the levels of the operators, then signed
expressions, then selections, and what needs no parentheses anywhere. -/
def Expr.level : Expr → Nat
  | .binary op _ _ => op.level
  | .unary _ _ => 5
  | .int value => if value < 0 then 5 else 7
  | .member _ _ | .index _ _ => 6
  | .null | .name _ | .call _ _ => 7

def Expr.isInt : Expr → Bool
  | .int _ => true
  | _ => false

def parenthesize (needed : Bool) (ks : List TokenKind) : List TokenKind :=
  if needed then .sign .openParen :: (ks ++ [.sign .closeParen]) else ks

def commaSeparated : List (List TokenKind) → List TokenKind
  | [] => []
  | [ks] => ks
  | ks :: ks' :: rest => ks ++ .sign .comma :: commaSeparated (ks' :: rest)

def literal (value : Int64) : List TokenKind :=
  if value < 0 then [.sign .minus, .int value.toInt.natAbs] else [.int value.toInt.natAbs]

mutual

def Expr.tokens : Expr → List TokenKind
  | .int value => literal value
  | .null => [.word "null"]
  | .name n => [.word n.value]
  | .member object n =>
    parenthesize (object.level < 6 || object.isInt) object.tokens ++ [.sign .dot, .word n.value]
  | .index array i =>
    parenthesize (array.level < 6 || array.isInt) array.tokens ++
      .sign .openBracket :: (i.tokens ++ [.sign .closeBracket])
  | .call function args =>
    .word function.value :: .sign .openParen ::
      (commaSeparated (Expr.tokensOf args) ++ [.sign .closeParen])
  | .unary op e =>
    .sign op.asSign :: parenthesize (e.level < 5 || (op = .neg && e.isInt)) e.tokens
  | .binary op left right =>
    parenthesize (left.level < op.leftLevel) left.tokens ++
      .sign op.asSign :: parenthesize (right.level ≤ op.level) right.tokens

def Expr.tokensOf : List Expr → List (List TokenKind)
  | [] => []
  | e :: rest => e.tokens :: Expr.tokensOf rest

end

def Rvalue.tokens : Rvalue → List TokenKind
  | .expr e => e.tokens
  | .new n => [.word "new", .word n.value]
  | .newArray element length =>
    .word "new" :: .word element.text :: .sign .openBracket ::
      (length.tokens ++ [.sign .closeBracket])
  | .newSet => [.word "newset"]
  | .newBag => [.word "newbag"]
  | .choose min max =>
    .word "choose" :: .sign .openParen ::
      (literal min ++ .sign .comma :: (literal max ++ [.sign .closeParen]))

def Stmt.tokens : Stmt → List TokenKind
  | .assign target value =>
    parenthesize (target.level < 6) target.tokens ++ .sign .assign :: value.tokens
  | .insert collection item =>
    .word "add" :: (collection.tokens ++ .sign .comma :: item.tokens)
  | .remove collection item =>
    .word "remove" :: (collection.tokens ++ .sign .comma :: item.tokens)
  | .lock e => .word "lock" :: e.tokens
  | .unlock e => .word "unlock" :: e.tokens
  | .assert e none => .word "assert" :: e.tokens
  | .assert e (some message) => .word "assert" :: (e.tokens ++ [.sign .comma, .text message])
  | .ifGoto e label => .word "if" :: (e.tokens ++ [.word "goto", .word label.value])
  | .goto label => [.word "goto", .word label.value]
  | .call n => [.word "call", .word n.value]
  | .return => [.word "return"]
  | .yield => [.word "yield"]

def mark (filtered : Bool) : List TokenKind :=
  if filtered then [.sign .atSign, .word "filtered"] else []

def Initial.tokens : Option Initial → List TokenKind
  | none => []
  | some ⟨none, _⟩ => [.sign .assign, .word "null"]
  | some ⟨some value, _⟩ => .sign .assign :: literal value

def Field.tokens (f : Field) : List TokenKind :=
  mark f.filtered ++ (if f.isStatic then [.word "static"] else []) ++
    .word f.type.text :: .word f.name.value :: Initial.tokens f.initial

def Class.lines (c : Class) : List (List TokenKind) :=
  [.word "class", .word c.name.value, .sign .openBrace] ::
    (c.fields.map Field.tokens ++ [[.sign .closeBrace]])

def BodyKind.word : BodyKind → String
  | .method => "method"
  | .thread => "thread"

inductive BodyLine where
  | label (name : Name)
  | statement (s : Located Stmt)

def BodyLine.tokens : BodyLine → List TokenKind
  | .label n => [.word n.value, .sign .colon]
  | .statement s => s.value.tokens

def bodyLinesFrom (pc : Nat) (labels : List (Name × Nat)) : List (Located Stmt) → List BodyLine
  | [] => labels.map (.label ·.1)
  | s :: rest =>
    (labels.takeWhile (·.2 ≤ pc)).map (.label ·.1) ++
      .statement s :: bodyLinesFrom (pc + 1) (labels.dropWhile (·.2 ≤ pc)) rest

def Body.lines (b : Body) : List (List TokenKind) :=
  (mark b.filtered ++ [.word b.kind.word, .word b.name.value, .sign .openBrace]) ::
    ((bodyLinesFrom 0 b.labels b.statements).map BodyLine.tokens ++ [[.sign .closeBrace]])

inductive Declaration where
  | ofClass (c : Class)
  | ofStatic (f : Field)
  | ofBody (b : Body)
  | ofInvariant (i : Located Expr)

def Declaration.lines : Declaration → List (List TokenKind)
  | .ofClass c => c.lines
  | .ofStatic f => [f.tokens]
  | .ofBody b => b.lines
  | .ofInvariant i => [.word "invariant" :: i.value.tokens]

def Program.declarations (p : Program) : List Declaration :=
  p.classes.map .ofClass ++ p.statics.map .ofStatic ++ p.bodies.map .ofBody ++
    p.invariants.map .ofInvariant

def Program.lines (p : Program) : List (List TokenKind) := p.declarations.flatMap Declaration.lines

def Program.print (p : Program) : String := layoutLines p.lines

def keywords : List String :=
  ["null", "true", "false", "lock", "unlock", "assert", "if", "goto", "call", "return", "yield",
    "add", "remove", "new", "newset", "newbag", "choose"] ++ reservedWords

def isName (n : Name) : Bool := isWord n.value && n.value ∉ keywords

def isLiteral (value : Int64) : Bool := value ≠ Int64.minValue

mutual

def Expr.isPrintable : Expr → Bool
  | .int value => isLiteral value
  | .null => true
  | .name n => isName n
  | .member object n => object.isPrintable && isName n
  | .index array i => array.isPrintable && i.isPrintable
  | .call function args => isName function && Expr.arePrintable args
  | .unary _ e => e.isPrintable
  | .binary _ left right => left.isPrintable && right.isPrintable

def Expr.arePrintable : List Expr → Bool
  | [] => true
  | e :: rest => e.isPrintable && Expr.arePrintable rest

end

def Rvalue.isPrintable : Rvalue → Bool
  | .expr e | .newArray _ e => e.isPrintable
  | .new n => isName n
  | .newSet | .newBag => true
  | .choose min max => isLiteral min && isLiteral max

def isMessage (message : String) : Bool :=
  message.toList.all fun c => c ≠ '"' && c ≠ '\n'

def Stmt.isPrintable : Stmt → Bool
  | .assign target value => target.isPrintable && value.isPrintable
  | .insert collection item | .remove collection item =>
    collection.isPrintable && item.isPrintable
  | .lock e | .unlock e => e.isPrintable
  | .assert e message => e.isPrintable && message.all isMessage
  | .ifGoto e label => e.isPrintable && isName label
  | .goto n | .call n => isName n
  | .return | .yield => true

def Field.isPrintable (f : Field) : Bool :=
  isName f.name && f.initial.all fun initial => initial.value.all isLiteral

def Class.isPrintable (c : Class) : Bool := isName c.name && c.fields.all Field.isPrintable

def Body.isPrintable (b : Body) : Bool :=
  isName b.name && b.labels.all (isName ·.1) && b.statements.all (·.value.isPrintable)

def Program.isPrintable (p : Program) : Bool :=
  p.classes.all Class.isPrintable && p.statics.all Field.isPrintable &&
    p.bodies.all Body.isPrintable && p.invariants.all (·.value.isPrintable)

/-- Labels in the order of the text, none of them after the end of the body; no filtered thread. -/
def Body.isShaped (b : Body) : Bool :=
  decide (b.labels.Pairwise (·.2 ≤ ·.2)) && b.labels.all (·.2 ≤ b.statements.length) &&
    !(b.kind = .thread && b.filtered)

def Program.isShaped (p : Program) : Bool :=
  p.statics.all (·.isStatic) && p.bodies.all Body.isShaped

end Tree

def Located.erase {α : Type} (x : Located α) : Located α := ⟨x.value, .onLine 0 0 0⟩

namespace Tree

mutual

def Expr.erase : Expr → Expr
  | .int value => .int value
  | .null => .null
  | .name n => .name n.erase
  | .member object n => .member object.erase n.erase
  | .index array i => .index array.erase i.erase
  | .call function args => .call function.erase (Expr.eraseAll args)
  | .unary op e => .unary op e.erase
  | .binary op left right => .binary op left.erase right.erase

def Expr.eraseAll : List Expr → List Expr
  | [] => []
  | e :: rest => e.erase :: Expr.eraseAll rest

end

def Rvalue.erase : Rvalue → Rvalue
  | .expr e => .expr e.erase
  | .new n => .new n.erase
  | .newArray element length => .newArray element length.erase
  | .newSet => .newSet
  | .newBag => .newBag
  | .choose min max => .choose min max

def Stmt.erase : Stmt → Stmt
  | .assign target value => .assign target.erase value.erase
  | .insert collection item => .insert collection.erase item.erase
  | .remove collection item => .remove collection.erase item.erase
  | .lock e => .lock e.erase
  | .unlock e => .unlock e.erase
  | .assert e message => .assert e.erase message
  | .ifGoto e label => .ifGoto e.erase label.erase
  | .goto label => .goto label.erase
  | .call n => .call n.erase
  | .return => .return
  | .yield => .yield

def Body.erase (b : Body) : Body :=
  { b with
    name := b.name.erase
    statements := b.statements.map fun s => Located.erase ⟨s.value.erase, s.span⟩
    labels := b.labels.map fun label => (label.1.erase, label.2) }

def Field.erase (f : Field) : Field :=
  { f with name := f.name.erase, initial := f.initial.map Located.erase }

def Class.erase (c : Class) : Class := ⟨c.name.erase, c.fields.map Field.erase⟩

def Program.erase (p : Program) : Program where
  classes := p.classes.map Class.erase
  statics := p.statics.map Field.erase
  bodies := p.bodies.map Body.erase
  invariants := p.invariants.map fun i => Located.erase ⟨i.value.erase, i.span⟩

end Tree

def TokenKind.isInner : TokenKind → Bool
  | .sign .colon | .sign .closeBrace => false
  | k => k.isWritable

theorem TokenKind.isWritable_of_isInner {k : TokenKind} (h : k.isInner = true) :
    k.isWritable = true := by
  unfold isInner at h
  split at h
  · cases h
  · cases h
  · exact h

namespace Tree

variable {value : Int64}

theorem isWord_of_isName {n : Name} (h : isName n = true) : isWord n.value = true := by
  rw [isName, Bool.and_eq_true] at h
  exact h.1

def Inner (ks : List TokenKind) : Prop := ∀ k ∈ ks, k.isInner = true

section Inner

variable {ks ks' : List TokenKind}

theorem Inner.nil : Inner [] := fun _ hk => (by cases hk)

theorem Inner.cons {k : TokenKind} (hk : k.isInner = true) (h : Inner ks) : Inner (k :: ks) :=
  List.forall_mem_cons.2 ⟨hk, h⟩

theorem Inner.append (h : Inner ks) (h' : Inner ks') : Inner (ks ++ ks') :=
  List.forall_mem_append.2 ⟨h, h'⟩

theorem Inner.word {text : String} (htext : isWord text = true) (h : Inner ks) :
    Inner (.word text :: ks) := h.cons htext

theorem Inner.name {n : Name} (hn : isName n = true) (h : Inner ks) :
    Inner (.word n.value :: ks) := h.word (isWord_of_isName hn)

theorem Inner.sign {s : Sign} (hs : (TokenKind.sign s).isInner = true) (h : Inner ks) :
    Inner (.sign s :: ks) := h.cons hs

theorem Inner.parenthesize (h : Inner ks) (needed : Bool) : Inner (parenthesize needed ks) := by
  cases needed with
  | false => exact h
  | true => exact .sign rfl (h.append (.sign rfl .nil))

theorem Inner.commaSeparated {kss : List (List TokenKind)} (h : ∀ ks ∈ kss, Inner ks) :
    Inner (commaSeparated kss) := by
  fun_induction Tree.commaSeparated kss with
  | case1 => exact .nil
  | case2 ks => exact h ks List.mem_cons_self
  | case3 ks ks' rest ih =>
    rw [List.forall_mem_cons] at h
    exact h.1.append (.sign rfl (ih h.2))

end Inner

theorem natAbs_le_maxLiteral (h : isLiteral value = true) : value.toInt.natAbs ≤ maxLiteral := by
  have hlow := Int64.le_toInt value
  have hhigh := Int64.toInt_lt value
  have hne : value.toInt ≠ Int64.minValue.toInt := fun heq => by
    rw [isLiteral, decide_eq_true_eq] at h
    exact h (Int64.toInt_inj.1 heq)
  rw [Int64.toInt_minValue] at hne
  have hmax : maxLiteral = 9223372036854775807 := rfl
  omega

theorem literal_inner (h : isLiteral value = true) : Inner (literal value) := by
  have hint : Inner [.int value.toInt.natAbs] :=
    Inner.nil.cons (decide_eq_true (natAbs_le_maxLiteral h))
  rw [literal]
  split
  · exact hint.sign rfl
  · exact hint

mutual

theorem Expr.tokens_inner (e : Expr) (h : e.isPrintable = true) : Inner e.tokens := by
  cases e with
  | int value => exact literal_inner h
  | null => exact .word (by decide +kernel) .nil
  | name n =>
    rw [Expr.isPrintable] at h
    exact .name h .nil
  | member object n =>
    rw [Expr.isPrintable, Bool.and_eq_true] at h
    exact ((Expr.tokens_inner object h.1).parenthesize _).append (.sign rfl (.name h.2 .nil))
  | index array i =>
    rw [Expr.isPrintable, Bool.and_eq_true] at h
    exact ((Expr.tokens_inner array h.1).parenthesize _).append
      (.sign rfl ((Expr.tokens_inner i h.2).append (.sign rfl .nil)))
  | call function args =>
    rw [Expr.isPrintable, Bool.and_eq_true] at h
    exact .name h.1 (.sign rfl ((Inner.commaSeparated (Expr.tokensOf_inner args h.2)).append
      (.sign rfl .nil)))
  | unary op operand =>
    rw [Expr.isPrintable] at h
    exact .sign (by cases op <;> rfl) ((Expr.tokens_inner operand h).parenthesize _)
  | binary op left right =>
    rw [Expr.isPrintable, Bool.and_eq_true] at h
    exact ((Expr.tokens_inner left h.1).parenthesize _).append
      (.sign (by cases op <;> rfl) ((Expr.tokens_inner right h.2).parenthesize _))

theorem Expr.tokensOf_inner (es : List Expr) (h : Expr.arePrintable es = true) :
    ∀ ks ∈ Expr.tokensOf es, Inner ks := by
  cases es with
  | nil => simp [Expr.tokensOf]
  | cons e rest =>
    rw [Expr.arePrintable, Bool.and_eq_true] at h
    exact List.forall_mem_cons.2 ⟨Expr.tokens_inner e h.1, Expr.tokensOf_inner rest h.2⟩

end

theorem isWord_text (type : FieldType) : isWord type.text = true := by
  cases type <;> decide +kernel

theorem Rvalue.tokens_inner {value : Rvalue} (h : value.isPrintable = true) :
    Inner value.tokens := by
  cases value with
  | expr e => exact e.tokens_inner h
  | new n => exact .word (by decide +kernel) (.name h .nil)
  | newArray element length =>
    exact .word (by decide +kernel) (.word (isWord_text element)
      (.sign rfl ((length.tokens_inner h).append (.sign rfl .nil))))
  | newSet | newBag => exact .word (by decide +kernel) .nil
  | choose min max =>
    rw [Rvalue.isPrintable, Bool.and_eq_true] at h
    exact .word (by decide +kernel) (.sign rfl ((literal_inner h.1).append
      (.sign rfl ((literal_inner h.2).append (.sign rfl .nil)))))

theorem Stmt.tokens_inner {s : Stmt} (h : s.isPrintable = true) : Inner s.tokens := by
  cases s with
  | assign target value =>
    rw [Stmt.isPrintable, Bool.and_eq_true] at h
    exact ((target.tokens_inner h.1).parenthesize _).append (.sign rfl (Rvalue.tokens_inner h.2))
  | insert collection item | remove collection item =>
    rw [Stmt.isPrintable, Bool.and_eq_true] at h
    exact .word (by decide +kernel)
      ((collection.tokens_inner h.1).append (.sign rfl (item.tokens_inner h.2)))
  | lock e | unlock e => exact .word (by decide +kernel) (e.tokens_inner h)
  | assert e message =>
    rw [Stmt.isPrintable, Bool.and_eq_true] at h
    cases message with
    | none => exact .word (by decide +kernel) (e.tokens_inner h.1)
    | some text =>
      exact .word (by decide +kernel)
        ((e.tokens_inner h.1).append (.sign rfl (Inner.nil.cons h.2)))
  | ifGoto e label =>
    rw [Stmt.isPrintable, Bool.and_eq_true] at h
    exact .word (by decide +kernel)
      ((e.tokens_inner h.1).append (.word (by decide +kernel) (.name h.2 .nil)))
  | goto n | call n => exact .word (by decide +kernel) (.name h .nil)
  | «return» | yield => exact .word (by decide +kernel) .nil

end Tree

end Interleave
