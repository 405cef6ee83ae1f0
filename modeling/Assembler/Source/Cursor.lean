import Assembler.Source.File
import Assembler.Source.Location
/-!
# Cursors

Reading a text character by character while keeping count of lines, columns and bytes.
-/

namespace Assembler

/-- What is left of a text, and the position it begins at. -/
structure Cursor where
  file : String
  rest : List Char
  position : Position := {}
  deriving DecidableEq, Repr

namespace Cursor

/-- A cursor at the start of a file, which may count from another position than the first. -/
def ofSource (source : Source) (start : Position := {}) : Cursor := ⟨source.file, source.text, start⟩

def peek (c : Cursor) (ahead : Nat) : Option Char := c.rest[ahead]?

def next? (c : Cursor) : Option (Char × Cursor) :=
  match c.rest with
  | [] => none
  | x :: rest => some (x, { c with rest, position := c.position.advance x })

/-- The next character, if there is one and it passes the test. -/
def nextIf? (c : Cursor) (test : Char → Bool) : Option (Char × Cursor) :=
  c.next?.filter fun (x, _) => test x

def atEnd (c : Cursor) : Bool := c.rest.isEmpty

def location (c : Cursor) : Location := .ofPosition c.file c.position

end Cursor

end Assembler
