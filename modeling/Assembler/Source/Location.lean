import Assembler.Text.Digits
/-!
# Positions and locations

A position is where reading has come to in a text; a location names a place in a file.
Lines and columns count from one, columns in characters.
-/

namespace Assembler

structure Position where
  line : Nat := 1
  column : Nat := 1
  byteOffset : Nat := 0
  deriving DecidableEq, Repr, Inhabited

/-- The position after one more character. -/
def Position.advance (p : Position) (c : Char) : Position :=
  if c = '\n' then ⟨p.line + 1, 1, p.byteOffset + c.utf8Size⟩
  else ⟨p.line, p.column + 1, p.byteOffset + c.utf8Size⟩

/-- The position after a text. -/
def Position.after (p : Position) (text : List Char) : Position := text.foldl Position.advance p

structure Location where
  file : String := "<unknown>"
  line : Nat := 1
  column : Nat := 1
  deriving DecidableEq, Repr, Inhabited

namespace Location

def ofPosition (file : String) (p : Position) : Location := ⟨file, p.line, p.column⟩

/-- The location some columns further on the same line. -/
def shifted (l : Location) (columns : Nat) : Location := { l with column := l.column + columns }

/-- Locations are ordered by file, then line, then column. -/
def le (a b : Location) : Bool :=
  a.file < b.file || (a.file == b.file && (a.line < b.line || (a.line == b.line && a.column ≤ b.column)))

def text (l : Location) : String :=
  l.file ++ ":" ++ Text.decimal l.line ++ ":" ++ Text.decimal l.column

end Location

end Assembler
