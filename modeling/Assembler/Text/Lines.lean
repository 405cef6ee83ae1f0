/-!
# Lines

A text cut at its line feeds, and text padded to a width.
-/

namespace Assembler.Text

/-- The parts between line feeds; one more than there are line feeds. -/
def segments : List Char → List (List Char)
  | [] => [[]]
  | c :: rest =>
    if c = '\n' then [] :: segments rest
    else match segments rest with
      | part :: parts => (c :: part) :: parts
      | [] => [[c]]

/-- A line without the carriage return before its line feed. -/
def trimCarriageReturn (line : List Char) : List Char :=
  if line.getLast? = some '\r' then line.dropLast else line

/-- The lines of a text without their line ends; what follows the last line feed is a line if it is not empty. -/
def lines (s : List Char) : List (List Char) :=
  let parts := segments s
  parts.dropLast.map trimCarriageReturn ++ (parts.getLast?.toList.filter (!·.isEmpty))

def padLeft (width : Nat) (fill : Char) (s : String) : String :=
  String.ofList (List.replicate (width - s.length) fill) ++ s

def padRight (width : Nat) (fill : Char) (s : String) : String :=
  s ++ String.ofList (List.replicate (width - s.length) fill)

theorem segments_ne_nil (s : List Char) : segments s ≠ [] := by
  cases s with
  | nil => simp [segments]
  | cons c rest =>
    simp only [segments]
    split
    · simp
    · split <;> simp

end Assembler.Text
