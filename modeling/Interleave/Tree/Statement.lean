import Interleave.Tree.Expression

set_option autoImplicit false

namespace Interleave.Tree

open Reader

def reservedWords : List String := ["spawn", "wait", "notify", "while", "import"]

def fieldType? : String → Option FieldType
  | "int" => some .int
  | "ref" => some .ref
  | _ => none

def rvalue : Reader Rvalue := do
  if ← acceptWord "newset" then
    return .newSet
  else if ← acceptWord "newbag" then
    return .newBag
  else if ← acceptWord "new" then
    let name ← expectWord .classAfterNew
    if ← acceptSign .openBracket then
      match fieldType? name.value with
      | none => refuse (.unknownElementType name.value) name.span
      | some element =>
        let length ← expression
        expectSign .closeBracket .closingBracket
        return .newArray element length
    else
      return .new name
  else if (← peek) = some (.word "choose") ∧ (← peekSecond) = some (.sign .openParen) then
    let _ ← next
    let _ ← next
    let min ← expectInt .lowerBound
    expectSign .comma .comma
    let max ← expectInt .upperBound
    expectSign .closeParen .closingParen
    return .choose min max
  else
    return .expr (← expression)

def assertionMessage : Reader (Option String) := do
  if ← acceptSign .comma then
    match ← next with
    | some ⟨.text content, _⟩ => return some content
    | token => refuse (.expected .assertionMessage) (token.map (·.span))
  else
    return none

def collectionAndItem : Reader (Expr × Expr) := do
  let collection ← expression
  expectSign .comma .collectionComma
  return (collection, ← expression)

def keywordStatement? : String → Option (Reader Stmt)
  | "lock" => some do return .lock (← expression)
  | "unlock" => some do return .unlock (← expression)
  | "assert" => some do
    let condition ← expression
    return .assert condition (← assertionMessage)
  | "if" => some do
    let condition ← expression
    unless ← acceptWord "goto" do
      refuse (.expected .gotoAfterCondition) (← peekSpan)
    return .ifGoto condition (← expectWord .label)
  | "goto" => some do return .goto (← expectWord .label)
  | "call" => some do return .call (← expectWord .methodName)
  | "return" => some do return .return
  | "yield" => some do return .yield
  | "add" => some do
    let (collection, item) ← collectionAndItem
    return .insert collection item
  | "remove" => some do
    let (collection, item) ← collectionAndItem
    return .remove collection item
  | _ => none

def assignment : Reader Stmt := do
  let target ← selectionWithBrackets
  expectSign .assign .assignSign
  return .assign target (← rvalue)

def statementAt (start : Span) : Reader Stmt := do
  match ← peek with
  | some (.word word) =>
    match keywordStatement? word with
    | some readRest =>
      let _ ← next
      readRest
    | none =>
      if word ∈ reservedWords then
        refuse (.unsupportedWord word) start
      else
        assignment
  | _ => assignment

def statement : Reader (Located Stmt) := do
  match ← peekSpan with
  | none => refuse .unexpectedEnd none
  | some start =>
    let stmt ← statementAt start
    return ⟨stmt, start.upTo (← lastSpan start)⟩

def atLabel : Reader Bool := do
  match ← peek, ← peekSecond with
  | some (.word _), some (.sign .colon) => return true
  | _, _ => return false

def bodyLines (body : Body) : Nat → Reader Body
  | 0 => refuse .unexpectedEnd none
  | fuel + 1 => do
    skipLineEnds
    if ← acceptSign .closeBrace then
      expectLineEnd
      return body
    else if (← peek) = some .eof then
      refuse (.bodyNotClosed body.name.value) body.name.span
    else if ← atLabel then
      let label ← expectWord .label
      let _ ← next
      expectLineEnd
      bodyLines { body with labels := body.labels ++ [(label, body.statements.length)] } fuel
    else
      let stmt ← statement
      expectLineEnd
      bodyLines { body with statements := body.statements ++ [stmt] } fuel

def body (kind : BodyKind) (filtered : Bool) : Reader Body := do
  let name ← expectWord .bodyName
  expectSign .openBrace .bodyBrace
  expectLineEnd
  bodyLines { kind, name, filtered, statements := [], labels := [] } (← remaining)

def initialValue (name : Name) : Reader (Option Initial) := do
  if ← acceptSign .assign then
    let start ← peekSpan
    let value ← if ← acceptWord "null" then pure none else some <$> expectInt .initialValue
    return some ⟨value, start.getD name.span⟩
  else
    return none

def field (filtered isStatic : Bool) : Reader Field := do
  let typeName ← expectWord .fieldType
  match fieldType? typeName.value with
  | none => refuse (.unknownFieldType typeName.value) typeName.span
  | some type =>
    let name ← expectWord .fieldName
    let initial ← initialValue name
    expectLineEnd
    return { name, type, filtered, isStatic, initial }

def filteredMark : Reader Bool := do
  if ← acceptSign .atSign then
    let name ← expectWord .annotationName
    if name.value = "filtered" then
      return true
    else
      refuse (.unsupportedMark name.value) name.span
  else
    return false

def classLines (name : Name) : Nat → List Field → Reader (List Field)
  | 0, _ => refuse (.expected .fieldType) none
  | fuel + 1, fields => do
    skipLineEnds
    if ← acceptSign .closeBrace then
      expectLineEnd
      return fields
    else if (← peek) = some .eof then
      refuse (.classNotClosed name.value) name.span
    else
      let filtered ← filteredMark
      let isStatic ← acceptWord "static"
      classLines name fuel (fields ++ [← field filtered isStatic])

def classDeclaration : Reader Class := do
  let name ← expectWord .className
  expectSign .openBrace .classBrace
  expectLineEnd
  return ⟨name, ← classLines name (← remaining) []⟩

def declaration (program : Program) (filtered : Bool) (keyword : Name) : Reader Program := do
  match keyword.value, filtered with
  | "class", false => return { program with classes := program.classes ++ [← classDeclaration] }
  | "static", _ => return { program with statics := program.statics ++ [← field filtered true] }
  | "method", _ => return { program with bodies := program.bodies ++ [← body .method filtered] }
  | "thread", false => return { program with bodies := program.bodies ++ [← body .thread false] }
  | "invariant", false =>
    let condition ← expression
    let span := keyword.span.upTo (← lastSpan keyword.span)
    expectLineEnd
    return { program with invariants := program.invariants ++ [⟨condition, span⟩] }
  | word, _ =>
    if word ∈ reservedWords then
      refuse (.unsupportedWord word) keyword.span
    else if filtered then
      refuse (.notAnnotatable word) keyword.span
    else
      refuse (.unexpectedDeclaration word) keyword.span

def declarations : Nat → Program → Reader Program
  | 0, _ => refuse (.expected .declaration) none
  | fuel + 1, program => do
    skipLineEnds
    if (← peek) = some .eof then
      return program
    else
      let filtered ← filteredMark
      let keyword ← expectWord .declaration
      declarations fuel (← declaration program filtered keyword)

/-- The parsed program of a token list. Each declaration takes a token, so the number of tokens
bounds the number of declarations. -/
def read (tokens : List Token) : Except SourceError Program :=
  (fun result => result.1) <$>
    (declarations tokens.length .empty).run ⟨tokens, none⟩

end Interleave.Tree
