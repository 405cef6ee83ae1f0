import Assembler.Source.Location
/-!
# Tokens

The kinds of tokens, and how a token is written again as source text.
-/

namespace Assembler

namespace Token

inductive Kind
  | identifier | integer | string | directive | label | register | localSlot | interpolation
  | newline | openBrace | closeBrace | openParen | closeParen | openBracket | closeBracket | comma
  | unknown
  deriving DecidableEq, Repr, Inhabited

namespace Kind

def all : List Kind :=
  [.identifier, .integer, .string, .directive, .label, .register, .localSlot, .interpolation,
    .newline, .openBrace, .closeBrace, .openParen, .closeParen, .openBracket, .closeBracket, .comma,
    .unknown]

def name : Kind → String
  | identifier => "identifier"
  | integer => "integer"
  | string => "string"
  | directive => "directive"
  | label => "label"
  | register => "register"
  | localSlot => "local"
  | interpolation => "interpolation"
  | newline => "newline"
  | openBrace => "\x7b"
  | closeBrace => "\x7d"
  | openParen => "("
  | closeParen => ")"
  | openBracket => "["
  | closeBracket => "]"
  | comma => ","
  | unknown => "unknown"

/-- The kind of a character that is a token by itself. -/
def ofPunctuation? (c : Char) : Option Kind :=
  if c = '\x7b' then some openBrace
  else if c = '\x7d' then some closeBrace
  else if c = '(' then some openParen
  else if c = ')' then some closeParen
  else if c = '[' then some openBracket
  else if c = ']' then some closeBracket
  else if c = ',' then some comma
  else none

end Kind

end Token

/-- A token: its kind, what it says, and where its text begins. -/
structure Token where
  kind : Token.Kind
  value : String
  location : Location
  deriving DecidableEq, Repr, Inhabited

namespace Token

/-- A character of a string literal, escaped if it could not stand there. -/
def escapeChar (c : Char) : List Char :=
  if c = '"' then ['\\', '"']
  else if c = '\\' then ['\\', '\\']
  else if c = '\n' then ['\\', 'n']
  else if c = '\r' then ['\\', 'r']
  else if c = '\t' then ['\\', 't']
  else if c = '\x00' then ['\\', '0']
  else [c]

/-- A string literal with the given value. -/
def stringLiteral (value : String) : String :=
  String.ofList ('"' :: value.toList.flatMap escapeChar ++ ['"'])

/-- Source text that reads as the token again. -/
def repr (t : Token) : String :=
  match t.kind with
  | .string => stringLiteral t.value
  | .directive => "." ++ t.value
  | .label => t.value ++ ":"
  | .register => "$" ++ t.value
  | .localSlot => "%" ++ t.value
  | .interpolation => "$\x7b" ++ t.value ++ "\x7d"
  | .newline => "\n"
  | .identifier | .integer | .unknown => t.value
  | .openBrace | .closeBrace | .openParen | .closeParen | .openBracket | .closeBracket | .comma =>
    t.kind.name

/-- A token as a log names it. -/
def shown (t : Token) : String :=
  match t.kind with
  | .newline => t.kind.name ++ "(\\n)"
  | _ => t.kind.name ++ "(" ++ t.value ++ ")"

end Token

end Assembler
