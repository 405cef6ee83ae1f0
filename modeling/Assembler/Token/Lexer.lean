import Assembler.Log.Event
import Assembler.Source.Cursor
import Assembler.Token.Lexeme
/-!
# Lexing

A source text as a list of tokens, each located where its lexeme begins.
-/

namespace Assembler

/-- What the log says of a fault in a lexeme at a position; of an open comment, at that of the token before. -/
def Fault.event (fault : Fault) (at_ : Position) : Event :=
  let line := ("line", LogValue.nat at_.line)
  let column := ("column", LogValue.nat at_.column)
  let warning (message : String) (fields : List (String × LogValue)) : Event :=
    ⟨.warn, .phase .lexer, message, fields⟩
  match fault with
  | unclosedComment => warning "Unterminated block comment" [line]
  | unclosedString => warning "Unterminated string literal" [line, column]
  | emptyHexEscape => warning "Malformed \\x escape" [line]
  | unclosedCodePoint => warning "Unterminated \\u\x7b...\x7d escape" [line]
  | hexOutOfRange digits => warning "Hex literal out of range" [("literal", .plain digits)]
  | unclosedInterpolation => warning "Unterminated interpolation" [line, column]
  | unknownCharacter c =>
    ⟨.debug, .phase .lexer, "Unrecognized character",
      [("ch", .plain (String.ofList (Text.escapeChar c))), line]⟩

/-- A lexer at work: what is left of the text, where that begins, and where the last token began. -/
structure Lexer where
  file : String
  rest : List Char
  position : Position
  anchor : Position
  deriving DecidableEq, Repr

namespace Lexer

/-- A lexer at the head of a text whose first character has the given line and column. -/
def ofText (file : String) (text : List Char) (line column : Nat := 1) : Lexer :=
  ⟨file, text, ⟨line, column, 0⟩, ⟨line, column, 0⟩⟩

def ofSource (source : Source) : Lexer := ofText source.file source.text

/-- The next token, if the text holds one, and what there is to say of the text read for it. -/
def next (l : Lexer) : Option (Token × Lexer) × List Event :=
  let trivia := Trivia.read l.rest
  let start := l.position.after trivia.text
  let events := if trivia.unclosed then [Fault.unclosedComment.event l.anchor] else []
  match trivia.rest with
  | [] => (none, events)
  | c :: rest =>
    let lexeme := Lexeme.read c rest
    let token : Token := ⟨lexeme.kind, String.ofList lexeme.value, .ofPosition l.file start⟩
    (some (token, ⟨l.file, lexeme.rest, start.after lexeme.text, start⟩),
      events ++ lexeme.faults.map (·.event start))

theorem length_rest_lt_of_next {l l' : Lexer} {t : Token} (h : l.next.1 = some (t, l')) :
    l'.rest.length < l.rest.length := by
  unfold next at h
  dsimp only at h
  have htrivia := Trivia.length_rest_le l.rest
  split at h
  · simp at h
  · rename_i c rest heq
    have := Lexeme.length_rest_le c rest
    simp only [Option.some.injEq, Prod.mk.injEq] at h
    rw [heq, List.length_cons] at htrivia
    rw [← h.2]
    exact Nat.lt_of_le_of_lt this htrivia

/-- The first tokens, as many as asked for if there are so many. -/
def take (n : Nat) (l : Lexer) : List Token :=
  match n with
  | 0 => []
  | n + 1 =>
    match l.next.1 with
    | none => []
    | some (t, l) => t :: take n l

def scannedEvent (t : Token) : Event :=
  ⟨.trace, .phase .lexer, "Scanned token",
    [("token", .plain t.shown), ("line", .nat t.location.line), ("column", .nat t.location.column)]⟩

/-- All tokens, and the log of reading them. -/
def readAll (l : Lexer) : List Token × List Event :=
  match h : l.next with
  | (none, events) => ([], events)
  | (some (t, l'), events) =>
    have : l'.rest.length < l.rest.length := length_rest_lt_of_next (congrArg Prod.fst h)
    let (tokens, later) := readAll l'
    (t :: tokens, events ++ scannedEvent t :: later)
termination_by l.rest.length

/-- All tokens, and the log of reading them through the line that ends it. -/
def run (l : Lexer) : List Token × List Event :=
  let (tokens, events) := l.readAll
  (tokens, events ++ [⟨.debug, .phase .lexer, "Lexing finished",
    [("file", .plain l.file), ("count", .nat tokens.length)]⟩])

end Lexer

end Assembler
