import Assembler.Source.Location
/-!
# Diagnostics

What is wrong with a program, how bad it is, and where. A list of diagnostics keeps the order in
which they were reported until it is sorted by location.
-/

namespace Assembler

inductive Severity
  | info | warning | error | fatal
  deriving DecidableEq, Repr, Inhabited

namespace Severity

def all : List Severity := [.info, .warning, .error, .fatal]

def name : Severity → String
  | info => "info"
  | warning => "warning"
  | error => "error"
  | fatal => "fatal"

/-- Whether a diagnostic this severe keeps bytecode from being made. -/
def isFatal : Severity → Bool
  | info | warning => false
  | error | fatal => true

end Severity

/-- What can be wrong. Some causes carry a context: a token, a name, or an explanation. -/
inductive Cause
  | expectedIdentifier
  | expectedToken
  | expectedEndOfStatement
  | unexpectedEof
  | unexpectedEol
  | unexpectedToken
  | unresolvedIdentifier
  | undeclaredIdentifier
  | illegalExpression
  deriving DecidableEq, Repr, Inhabited

namespace Cause

def all : List Cause :=
  [.expectedIdentifier, .expectedToken, .expectedEndOfStatement, .unexpectedEof, .unexpectedEol,
    .unexpectedToken, .unresolvedIdentifier, .undeclaredIdentifier, .illegalExpression]

def name : Cause → String
  | expectedIdentifier => "expected_identifier"
  | expectedToken => "expected_token"
  | expectedEndOfStatement => "expected_end_of_statement"
  | unexpectedEof => "unexpected_eof"
  | unexpectedEol => "unexpected_eol"
  | unexpectedToken => "unexpected_token"
  | unresolvedIdentifier => "unresolved_identifier"
  | undeclaredIdentifier => "undeclared_identifier"
  | illegalExpression => "illegal_expression"

/-- The wording of a cause; one that names its context names the empty text if it has none. -/
def message (cause : Cause) (context : Option String) : String :=
  let named := context.getD ""
  match cause with
  | expectedIdentifier => "expected an identifier"
  | expectedToken => "expected token of type '" ++ named ++ "'"
  | expectedEndOfStatement => "expected end of statement"
  | unexpectedEof => "unexpected end of file"
  | unexpectedEol => "unexpected end of line"
  | unexpectedToken => "unexpected token '" ++ named ++ "'"
  | unresolvedIdentifier => "could not resolve identifier '" ++ named ++ "' in interpolation"
  | undeclaredIdentifier => "undeclared identifier '" ++ named ++ "'"
  | illegalExpression =>
    match context with
    | some explanation => "illegal expression: " ++ explanation
    | none => "illegal expression"

end Cause

structure Diagnostic where
  severity : Severity := .error
  cause : Cause
  location : Location
  context : Option String := none
  deriving DecidableEq, Repr, Inhabited

namespace Diagnostic

def message (d : Diagnostic) : String := d.cause.message d.context

def text (d : Diagnostic) : String :=
  d.location.text ++ ": " ++ d.severity.name ++ ": " ++ d.message

def isFatal (d : Diagnostic) : Bool := d.severity.isFatal

end Diagnostic

namespace Diagnostics

/-- By location; diagnostics at one location keep their order. -/
def sorted (ds : List Diagnostic) : List Diagnostic :=
  ds.mergeSort fun a b => a.location.le b.location

def hasFatal (ds : List Diagnostic) : Bool := ds.any (·.isFatal)

def fatalCount (ds : List Diagnostic) : Nat := ds.countP (·.isFatal)

def countOf (cause : Cause) (ds : List Diagnostic) : Nat := ds.countP (·.cause = cause)

/-- One line for each diagnostic. -/
def text (ds : List Diagnostic) : String := String.join (ds.map fun d => d.text ++ "\n")

end Diagnostics

end Assembler
