/-!
# Blank characters

Unicode's `White_Space` property, and the part of it that does not end a line.
-/

namespace Assembler.Text

/-- The characters of Unicode's `White_Space` property. -/
def isBlank (c : Char) : Bool :=
  let n := c.toNat
  (0x9 ≤ n && n ≤ 0xD) || n == 0x20 || n == 0x85 || n == 0xA0 || n == 0x1680
    || (0x2000 ≤ n && n ≤ 0x200A) || n == 0x2028 || n == 0x2029 || n == 0x202F
    || n == 0x205F || n == 0x3000

/-- A blank that leaves the line as it is; a line feed is a token of its own. -/
def isInlineBlank (c : Char) : Bool := c != '\n' && isBlank c

end Assembler.Text
