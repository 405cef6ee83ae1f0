import Assembler.Bytecode.Instruction
/-!
# Chunks

Bytecode with the source line of every byte, unless lines are not wanted.
-/

namespace Assembler

structure Chunk where
  code : List UInt8 := []
  lines : List Nat := []
  tracksLines : Bool := true
  deriving DecidableEq, Repr, Inhabited

namespace Chunk

/-- Adds bytes that come from one source line. -/
def append (c : Chunk) (bytes : List UInt8) (line : Nat) : Chunk :=
  { c with
    code := c.code ++ bytes
    lines := if c.tracksLines then c.lines ++ List.replicate bytes.length line else c.lines }

def writeOpcode (c : Chunk) (op : Opcode) (line : Nat) : Chunk := c.append [op.byte] line

def writeByte (c : Chunk) (b : UInt8) (line : Nat) : Chunk := c.append [b] line

def writeUInt32 (c : Chunk) (n : UInt32) (line : Nat) : Chunk := c.append (encodeUInt32 n.toNat) line

def writeInt64 (c : Chunk) (n : Int64) (line : Nat) : Chunk := c.append (encodeInt64 n) line

def writeText (c : Chunk) (s : String) (line : Nat) : Chunk := c.append (encodeText s) line

def writePlace (c : Chunk) (p : Place) (line : Nat) : Chunk := c.append p.encode line

/-- Adds an instruction that comes from a source line. -/
def writeInstruction (c : Chunk) (i : Instruction) (line : Nat) : Chunk := c.append i.encode line

/-- Adds instructions, each with its source line. -/
def writeAll (c : Chunk) (is : List (Instruction × Nat)) : Chunk :=
  is.foldl (fun c (i, line) => c.writeInstruction i line) c

def lineAt? (c : Chunk) (offset : Nat) : Option Nat := c.lines[offset]?

end Chunk

end Assembler
