import Assembler.Text.Utf8
/-!
# Source files
-/

namespace Assembler

/-- A file to assemble: its name as it is to be shown, and its bytes. -/
structure Source where
  file : String
  bytes : List UInt8
  deriving DecidableEq, Repr

namespace Source

def ofChars (file : String) (text : List Char) : Source := ⟨file, Text.Utf8.encode text⟩

/-- The text of the file, whatever its bytes are. -/
def text (s : Source) : List Char := Text.Utf8.decodeLossy s.bytes

end Source

end Assembler
