import Assembler.Text.Digits
/-!
# Places

Where an operand is found when the bytecode runs: a store and a slot in it. A place takes five
bytes, the store's byte and the slot in little-endian order.
-/

namespace Assembler

inductive Store
  | null | static | localSlot | register
  deriving DecidableEq, Repr, Inhabited

namespace Store

def all : List Store := [.null, .static, .localSlot, .register]

def name : Store → String
  | null => "NULL"
  | static => "STATIC"
  | localSlot => "LOCAL"
  | register => "REGISTER"

def byte : Store → UInt8
  | null => 0
  | static => 1
  | localSlot => 2
  | register => 3

def ofByte? (b : UInt8) : Option Store := all.find? (·.byte = b)

end Store

/-- A number as bytes, least significant first. -/
def littleEndian : (width : Nat) → (n : Nat) → List UInt8
  | 0, _ => []
  | width + 1, n => UInt8.ofNat n :: littleEndian width (n / 256)

/-- The number that bytes make, least significant first. -/
def ofLittleEndian (bytes : List UInt8) : Nat :=
  bytes.foldr (fun b n => b.toNat + 256 * n) 0

structure Place where
  store : Store
  slot : UInt32
  deriving DecidableEq, Repr, Inhabited

namespace Place

def static (slot : UInt32) : Place := ⟨.static, slot⟩

def text (p : Place) : String :=
  p.store.name ++ "[" ++ Text.decimal p.slot.toNat ++ "]"

def encode (p : Place) : List UInt8 := p.store.byte :: littleEndian 4 p.slot.toNat

/-- The place at the head of some bytes, which may go on after it. -/
def decode? : List UInt8 → Option Place
  | b :: s0 :: s1 :: s2 :: s3 :: _ =>
    (Store.ofByte? b).map (⟨·, UInt32.ofNat (ofLittleEndian [s0, s1, s2, s3])⟩)
  | _ => none

end Place

end Assembler
