import Assembler.Bytecode.Opcode
import Assembler.Text.Quoted
import Assembler.Text.Utf8
/-!
# Instructions

The instructions of bytecode, how they are laid out in bytes, and how they are read back. Texts are
preceded by their length in bytes; a directive has the number of its arguments before them.
-/

namespace Assembler

inductive Instruction
  | loadInt (place : Place) (value : Int64)
  | loadString (place : Place) (value : String)
  | label (place : Place)
  | directive (name : String) (arguments : List Place) (body : String)
  | jump (condition : Condition) (target : Place)
  | compare (left right : Place)
  | halt
  deriving DecidableEq, Repr, Inhabited

/-! ## Operands in bytes -/

def encodeInt64 (n : Int64) : List UInt8 := littleEndian 8 n.toUInt64.toNat

/-- A number in 32 bits; what does not fit is cut off. -/
def encodeUInt32 (n : Nat) : List UInt8 := littleEndian 4 n

def encodeText (s : String) : List UInt8 :=
  let bytes := Text.Utf8.encode s.toList
  encodeUInt32 bytes.length ++ bytes

namespace Instruction

def opcode : Instruction → Opcode
  | loadInt .. => .loadInt
  | loadString .. => .loadString
  | label _ => .label
  | directive .. => .directive
  | jump condition _ => .jump condition
  | compare .. => .compare
  | halt => .halt

def encodeOperands : Instruction → List UInt8
  | loadInt place value => place.encode ++ encodeInt64 value
  | loadString place value => place.encode ++ encodeText value
  | label place => place.encode
  | directive name arguments body =>
    encodeText name ++ [UInt8.ofNat arguments.length] ++ arguments.flatMap Place.encode
      ++ encodeText body
  | jump _ target => target.encode
  | compare left right => left.encode ++ right.encode
  | halt => []

def encode (i : Instruction) : List UInt8 := i.opcode.byte :: i.encodeOperands

/-- The operands as a listing shows them. -/
def operandText : Instruction → String
  | loadInt place value => place.text ++ " " ++ Text.signed value.toInt
  | loadString place value => place.text ++ " " ++ Text.quoted value
  | label place => place.text
  | directive name arguments body =>
    "." ++ name ++ String.join (arguments.map fun a => " " ++ a.text)
      ++ if body.isEmpty then "" else " \x7b " ++ body ++ "\x7d"
  | jump _ target => target.text
  | compare left right => left.text ++ " " ++ right.text
  | halt => ""

end Instruction

/-! ## Reading bytes -/

/-- A reader of bytes: what it finds at their head and the bytes after it, if they suffice. -/
abbrev ByteReader (α : Type) := StateT (List UInt8) Option α

namespace ByteReader

/-- The next bytes, as many as asked for. -/
def bytes (n : Nat) : ByteReader (List UInt8) := fun s =>
  if n ≤ s.length then some (s.take n, s.drop n) else none

def number (width : Nat) : ByteReader Nat := do return ofLittleEndian (← bytes width)

def int64 : ByteReader Int64 := do return (UInt64.ofNat (← number 8)).toInt64

def text : ByteReader String := do
  let length ← number 4
  return String.ofList (Text.Utf8.decodeLossy (← bytes length))

def place : ByteReader Place := do Place.decode? (← bytes 5)

def places : (count : Nat) → ByteReader (List Place)
  | 0 => return []
  | count + 1 => do return (← place) :: (← places count)

/-- The operands of an instruction with a given opcode; the opcode that is invalid has none. -/
def operands : Opcode → ByteReader (Option Instruction)
  | .loadInt => do return some (.loadInt (← place) (← int64))
  | .loadString => do return some (.loadString (← place) (← text))
  | .label => do return some (.label (← place))
  | .directive => do
    let name ← text
    let count ← number 1
    return some (.directive name (← places count) (← text))
  | .jump condition => do return some (.jump condition (← place))
  | .compare => do return some (.compare (← place) (← place))
  | .halt => return some .halt
  | .invalid => return none

end ByteReader

end Assembler
