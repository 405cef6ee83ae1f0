import Assembler.Node
/-!
# Opcodes

The first byte of an instruction says which instruction it is.
-/

namespace Assembler

inductive Opcode
  | loadInt | loadString | label | directive
  | jump (condition : Condition)
  | compare | halt | invalid
  deriving DecidableEq, Repr, Inhabited

namespace Opcode

/-- The opcodes of instructions. -/
def known : List Opcode :=
  [.loadInt, .loadString, .label, .directive] ++ Condition.all.map .jump ++ [.compare, .halt]

def name : Opcode → String
  | loadInt => "LOAD_INT"
  | loadString => "LOAD_STRING"
  | label => "LABEL"
  | directive => "DIRECTIVE"
  | jump .always => "JMP"
  | jump .equal => "JE"
  | jump .notEqual => "JNE"
  | jump .greater => "JG"
  | jump .greaterOrEqual => "JGE"
  | compare => "CMP"
  | halt => "HALT"
  | invalid => "INVALID"

def byte : Opcode → UInt8
  | loadInt => 0x10
  | loadString => 0x11
  | label => 0x20
  | directive => 0x30
  | jump .always => 0x40
  | jump .equal => 0x41
  | jump .notEqual => 0x42
  | jump .greater => 0x43
  | jump .greaterOrEqual => 0x44
  | compare => 0x50
  | halt => 0xF0
  | invalid => 0xFF

/-- The opcode that a byte is; a byte that begins no instruction is invalid. -/
def ofByte (b : UInt8) : Opcode := (known.find? (·.byte = b)).getD .invalid

/-- How many bytes of operands follow, for instructions that have a fixed length. -/
def operandSize? : Opcode → Option Nat
  | loadInt => some 13
  | loadString | directive => none
  | label | jump _ => some 5
  | compare => some 10
  | halt | invalid => some 0

def isJump : Opcode → Bool
  | jump _ => true
  | _ => false

end Opcode

end Assembler
