import Assembler.Text.Digits
import Assembler.Text.Lines
/-!
# Excerpts

The lines around a place in a text, numbered, with a mark under its column.
-/

namespace Assembler.Excerpt

/-- How many lines are shown before and after the one in question. -/
def around : Nat := 2

/-- The lines around one of the lines of a text; nothing if there is no such line. -/
def render (text : List Char) (line column : Nat) : String :=
  let lines := Text.lines text
  if line = 0 ∨ lines.length < line then ""
  else
    let first := max (line - around) 1
    let last := min (line + around) lines.length
    let width := (Text.decimal last).length
    let rule := String.ofList (List.replicate (width + 1) '-') ++ "|--\n"
    let numbered (n : Nat) : String :=
      Text.padLeft width ' ' (Text.decimal n) ++ " | " ++ String.ofList (lines.getD (n - 1) []) ++ "\n"
    let mark := Text.padLeft width ' ' "" ++ " | " ++ Text.padLeft (column - 1) ' ' "" ++ "^\n"
    let shown := (List.range' first (last + 1 - first)).map fun n =>
      if n = line then numbered n ++ mark else numbered n
    rule ++ String.join shown ++ rule

end Assembler.Excerpt
