import Interleave.Source.Span

set_option autoImplicit false

namespace Interleave

inductive Sign where
  | atSign | assign | eq | ne | lt | le | gt | ge
  | plus | minus | star | slash | percent
  | both | either | bang
  | colon | comma | dot
  | openParen | closeParen | openBrace | closeBrace | openBracket | closeBracket
deriving DecidableEq

namespace Sign

def spelling : Sign → List Char
  | .atSign => ['@'] | .assign => ['='] | .eq => ['=', '='] | .ne => ['!', '=']
  | .lt => ['<'] | .le => ['<', '='] | .gt => ['>'] | .ge => ['>', '=']
  | .plus => ['+'] | .minus => ['-'] | .star => ['*'] | .slash => ['/'] | .percent => ['%']
  | .both => ['&', '&'] | .either => ['|', '|'] | .bang => ['!']
  | .colon => [':'] | .comma => [','] | .dot => ['.']
  | .openParen => ['('] | .closeParen => [')'] | .openBrace => ['{'] | .closeBrace => ['}']
  | .openBracket => ['['] | .closeBracket => [']']

def ofTwo? : Char → Char → Option Sign
  | '=', '=' => some eq
  | '!', '=' => some ne
  | '<', '=' => some le
  | '>', '=' => some ge
  | '&', '&' => some both
  | '|', '|' => some either
  | _, _ => none

def ofOne? : Char → Option Sign
  | '=' => some assign
  | '!' => some bang
  | '<' => some lt
  | '>' => some gt
  | '@' => some atSign
  | '+' => some plus
  | '-' => some minus
  | '*' => some star
  | '/' => some slash
  | '%' => some percent
  | ':' => some colon
  | ',' => some comma
  | '.' => some dot
  | '(' => some openParen
  | ')' => some closeParen
  | '{' => some openBrace
  | '}' => some closeBrace
  | '[' => some openBracket
  | ']' => some closeBracket
  | _ => none

end Sign

inductive TokenKind where
  | newline
  | eof
  | word (text : String)
  | int (value : Nat)
  | text (content : String)
  | sign (s : Sign)
deriving DecidableEq

structure Token where
  kind : TokenKind
  span : Span
deriving DecidableEq

end Interleave
