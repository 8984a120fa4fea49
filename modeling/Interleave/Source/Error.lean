import Interleave.Source.Span
import Interleave.Text.Printable

set_option autoImplicit false

namespace Interleave

inductive Expected where
  | declaration
  | annotationName
  | className
  | classBrace
  | fieldType
  | fieldName
  | initialValue
  | bodyName
  | bodyBrace
  | label
  | assertionMessage
  | gotoAfterCondition
  | methodName
  | collectionComma
  | assignSign
  | classAfterNew
  | closingBracket
  | lowerBound
  | comma
  | upperBound
  | closingParen
  | fieldAfterDot
  | commaOrParen
  | expression
  | lineEnd
deriving DecidableEq

def Expected.phrase : Expected → String
  | declaration => "declaration"
  | annotationName => "annotation name"
  | className => "class name"
  | classBrace => "'\x7b' after class name"
  | fieldType => "field type (int or ref)"
  | fieldName => "field name"
  | initialValue => "initial value"
  | bodyName => "name"
  | bodyBrace => "'\x7b'"
  | label => "label"
  | assertionMessage => "assertion message string"
  | gotoAfterCondition => "'goto' after condition"
  | methodName => "method name"
  | collectionComma => "',' between collection and item"
  | assignSign => "'='"
  | classAfterNew => "class name after 'new'"
  | closingBracket => "']'"
  | lowerBound => "lower bound"
  | comma => "','"
  | upperBound => "upper bound"
  | closingParen => "')'"
  | fieldAfterDot => "field name after '.'"
  | commaOrParen => "',' or ')'"
  | expression => "expression"
  | lineEnd => "end of line"

inductive Refusal where
  -- characters
  | integerTooLarge (digits : String)
  | unterminatedText
  | unexpectedCharacter (c : Char)
  -- grammar
  | expected (what : Expected)
  | unexpectedEnd
  | unsupportedWord (word : String)
  | unsupportedMark (name : String)
  | notAnnotatable (word : String)
  | unexpectedDeclaration (word : String)
  | classNotClosed (name : String)
  | bodyNotClosed (name : String)
  | unknownFieldType (name : String)
  | unknownElementType (name : String)
  | emptyInput
  -- names
  | intFieldNull (name : String)
  | refFieldNotNull (name : String)
  | duplicateStatic (name : String)
  | duplicateClass (name : String)
  | duplicateField (owner name : String)
  | duplicateBody (name : String)
  | duplicateLabel (name : String)
  | undefinedStatic (name : String)
  | undefinedMember (owner name : String)
  | undefinedClass (name : String)
  | undefinedLabel (name : String)
  | undefinedMethod (name : String)
  | emptyRange (min max : Int64)
  | notAssignable
  | wrongArity (name : String) (arity : Nat)
  | unsupportedFunction (name : String)
  | noThread
deriving DecidableEq

namespace Refusal

def isUnsupported : Refusal → Bool
  | unsupportedWord _ | unsupportedMark _ | unsupportedFunction _ => true
  | _ => false

def message : Refusal → String
  | integerTooLarge digits => "integer too large: " ++ digits
  | unterminatedText => "unterminated string literal"
  | unexpectedCharacter c => "unexpected character: " ++ Text.quoteChar c
  | expected what => "expected " ++ what.phrase
  | unexpectedEnd => "unexpected end of input"
  | unsupportedWord word => "unsupported syntax: " ++ word
  | unsupportedMark name => "unsupported annotation: @" ++ name
  | notAnnotatable word => "@filtered cannot annotate " ++ word
  | unexpectedDeclaration word => "unexpected declaration: " ++ word
  | classNotClosed name => "class " ++ name ++ " is not closed"
  | bodyNotClosed name => name ++ " is not closed"
  | unknownFieldType name => "unknown field type: " ++ name
  | unknownElementType name => "unknown array element type: " ++ name
  | emptyInput => "empty input"
  | intFieldNull name => "int field " ++ name ++ " cannot be null"
  | refFieldNotNull name => "ref field " ++ name ++ " can only start as null"
  | duplicateStatic name => "duplicate static: " ++ name
  | duplicateClass name => "duplicate class: " ++ name
  | duplicateField owner name => "duplicate field: " ++ owner ++ "." ++ name
  | duplicateBody name => "duplicate method or thread: " ++ name
  | duplicateLabel name => "duplicate label: " ++ name
  | undefinedStatic name => "undefined static: " ++ name
  | undefinedMember owner name => "undefined static: " ++ owner ++ "." ++ name
  | undefinedClass name => "undefined class: " ++ name
  | undefinedLabel name => "undefined label: " ++ name
  | undefinedMethod name => "undefined method: " ++ name
  | emptyRange min max => "empty choice range: " ++ toString min.toInt ++ ".." ++ toString max.toInt
  | notAssignable => "left side of assignment is not assignable"
  | wrongArity name arity => name ++ " expects " ++ toString arity ++ " argument(s)"
  | unsupportedFunction name => "unsupported function: " ++ name
  | noThread => "no thread declared"

end Refusal

structure SourceError where
  reason : Refusal
  span : Option Span
deriving DecidableEq

def SourceError.text (e : SourceError) (path : String) : String :=
  match e.span with
  | some span =>
    path ++ ":" ++ toString span.startLine ++ ":" ++ toString span.startCol ++ ": "
      ++ e.reason.message
  | none => e.reason.message

end Interleave
