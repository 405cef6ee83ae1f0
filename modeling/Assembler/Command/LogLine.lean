import Assembler.Log.Event
import Assembler.Text.Lines
/-!
# Log lines

An event as one line: its level, its message and its fields.
-/

namespace Assembler.LogLine

/-- The level as a line begins with it, in capitals and aligned to the right. -/
def level (l : LogLevel) : String := Text.padLeft 5 ' ' (l.name.map Char.toUpper)

/-- A character of a message; one that a terminal might obey is written as its code. -/
def messageChar (c : Char) : List Char :=
  let n := c.toNat
  if n = 0x07 ∨ n = 0x08 ∨ n = 0x0C ∨ n = 0x1B ∨ n = 0x7F then
    ['\\', 'x'] ++ (Text.hexByte (UInt8.ofNat n)).toList
  else if 0x80 ≤ n ∧ n ≤ 0x9F then
    ['\\', 'u', '\x7b'] ++ Nat.toDigits 16 n ++ ['\x7d']
  else [c]

def render (e : Event) : String :=
  level e.level ++ " " ++ String.ofList (e.message.toList.flatMap messageChar)
    ++ String.join (e.fields.map fun (name, value) => " " ++ name ++ "=" ++ value.shown) ++ "\n"

end Assembler.LogLine
