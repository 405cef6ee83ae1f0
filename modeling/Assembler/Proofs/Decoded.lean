import Mathlib.Algebra.Group.Nat.Defs
import Assembler.Bytecode.Listing
import Assembler.Proofs.Characters
/-!
# Reading code back

Each reader of operands reads what was written of them and stops there (`ByteReader.Reads`). So the
code of instructions whose texts and argument lists are not too long is read as these instructions,
from its first byte to its last (`decodeFrom_flatMap_encode`).
-/

namespace Assembler

/-! ## Numbers -/

@[simp] theorem length_littleEndian (width n : Nat) : (littleEndian width n).length = width := by
  induction width generalizing n with
  | zero => rfl
  | succ width ih => simp [littleEndian, ih]

theorem ofLittleEndian_littleEndian (width n : Nat) : ofLittleEndian (littleEndian width n) = n % 256 ^ width := by
  induction width generalizing n with
  | zero => simp [littleEndian, ofLittleEndian, Nat.mod_one]
  | succ width ih =>
    have hcons : ofLittleEndian (littleEndian (width + 1) n) =
        (UInt8.ofNat n).toNat + 256 * ofLittleEndian (littleEndian width (n / 256)) := rfl
    rw [hcons, ih, Nat.pow_succ', Nat.mod_mul]
    simp

/-- A text whose length can be written. -/
def FitsInCode (s : String) : Prop := (Text.Utf8.encode s.toList).length < 2 ^ 32

instance (s : String) : Decidable (FitsInCode s) := Nat.decLt _ _

/-! ## Readers -/

namespace ByteReader

/-- A reader finds a value in some bytes, and leaves what follows them. -/
def Reads {α : Type} (r : ByteReader α) (bytes : List UInt8) (a : α) : Prop :=
  ∀ rest, r (bytes ++ rest) = some (a, rest)

variable {α β : Type}

theorem Reads.pure (a : α) : Reads (Pure.pure a) [] a := fun _ => rfl

theorem Reads.bind {r : ByteReader α} {f : α → ByteReader β} {bytes bytes' : List UInt8} {a : α} {b : β}
    (h : Reads r bytes a) (h' : Reads (f a) bytes' b) : Reads (r >>= f) (bytes ++ bytes') b := by
  intro rest
  simp only [Bind.bind, StateT.bind, List.append_assoc, h (bytes' ++ rest)]
  exact h' rest

/-- A value that is made of what was read. -/
theorem Reads.map {r : ByteReader α} {bytes : List UInt8} {a : α} (h : Reads r bytes a) (f : α → β) :
    Reads (do return f (← r)) bytes (f a) := by
  have hread := h.bind (f := fun a => Pure.pure (f a)) (Reads.pure (f a))
  rwa [List.append_nil] at hread

theorem reads_bytes (s : List UInt8) : Reads (bytes s.length) s s := by
  intro rest
  simp [bytes]

theorem reads_number {width n : Nat} (h : n < 256 ^ width) : Reads (number width) (littleEndian width n) n := by
  have hread := (reads_bytes (littleEndian width n)).map ofLittleEndian
  rwa [length_littleEndian, ofLittleEndian_littleEndian, Nat.mod_eq_of_lt h] at hread

theorem reads_int64 (n : Int64) : Reads int64 (encodeInt64 n) n := by
  have hlt : n.toUInt64.toNat < 256 ^ 8 := n.toUInt64.toNat_lt
  have hread := (reads_number hlt).map fun k => (UInt64.ofNat k).toInt64
  rwa [UInt64.ofNat_toNat, Int64.toInt64_toUInt64] at hread

theorem reads_text {s : String} (h : FitsInCode s) : Reads text (encodeText s) s := by
  have hread := (reads_bytes (Text.Utf8.encode s.toList)).map fun bytes => String.ofList (Text.Utf8.decodeLossy bytes)
  rw [Text.Utf8.decodeLossy_encode, String.ofList_toList] at hread
  have hlength : (Text.Utf8.encode s.toList).length < 256 ^ 4 := h
  exact (reads_number hlength).bind hread

theorem decode?_encode (p : Place) : Place.decode? p.encode = some p := by
  have hlt : p.slot.toNat < 256 ^ 4 := p.slot.toNat_lt
  have hslot : ofLittleEndian (littleEndian 4 p.slot.toNat) = p.slot.toNat := by
    rw [ofLittleEndian_littleEndian, Nat.mod_eq_of_lt hlt]
  have hstore : Store.ofByte? p.store.byte = some p.store := by cases p.store <;> rfl
  have hdecode : Place.decode? p.encode = (Store.ofByte? p.store.byte).map
      (⟨·, UInt32.ofNat (ofLittleEndian (littleEndian 4 p.slot.toNat))⟩) := rfl
  rw [hdecode, hslot, hstore, UInt32.ofNat_toNat]
  rfl

theorem reads_place (p : Place) : Reads place p.encode p := by
  intro rest
  have hlength : p.encode.length = 5 := by simp [Place.encode]
  have hbytes := reads_bytes p.encode rest
  rw [hlength] at hbytes
  simp [place, Bind.bind, StateT.bind, hbytes, decode?_encode, liftM, monadLift, MonadLift.monadLift, StateT.lift]

theorem reads_places (ps : List Place) : Reads (places ps.length) (ps.flatMap Place.encode) ps := by
  induction ps with
  | nil => exact Reads.pure []
  | cons p ps ih => exact (reads_place p).bind (ih.map (p :: ·))

end ByteReader

/-! ## Instructions -/

namespace Instruction

/-- The texts of an instruction. -/
def texts : Instruction → List String
  | loadString _ value => [value]
  | directive name _ body => [name, body]
  | _ => []

/-- An instruction whose lengths and counts can be written as they are. -/
structure Writable (i : Instruction) : Prop where
  texts : ∀ s ∈ i.texts, FitsInCode s
  arguments : ∀ name arguments body, i = .directive name arguments body → arguments.length ≤ 255

theorem ofByte_opcode (i : Instruction) : Opcode.ofByte i.opcode.byte = i.opcode := by
  cases i with
  | jump condition => cases condition <;> rfl
  | _ => rfl

open ByteReader

theorem reads_operands {i : Instruction} (h : i.Writable) : Reads (operands i.opcode) i.encodeOperands (some i) := by
  cases i with
  | loadInt p value => exact (reads_place p).bind ((reads_int64 value).map _)
  | loadString p value => exact (reads_place p).bind ((reads_text (h.texts value List.mem_cons_self)).map _)
  | label p => exact (reads_place p).map _
  | directive name arguments body =>
    have hname := reads_text (h.texts name List.mem_cons_self)
    have hbody := reads_text (h.texts body (List.mem_cons_of_mem _ List.mem_cons_self))
    have hcount : arguments.length < 256 ^ 1 := Nat.lt_succ_of_le (h.arguments name arguments body rfl)
    simp only [encodeOperands, List.append_assoc]
    exact hname.bind (Reads.bind (reads_number hcount) ((reads_places arguments).bind (hbody.map _)))
  | jump condition target => exact (reads_place target).map _
  | compare left right => exact (reads_place left).bind ((reads_place right).map _)
  | halt => exact Reads.pure _

theorem decodeHead_encode {i : Instruction} (h : i.Writable) (rest : List UInt8) :
    decodeHead i.opcode.byte (i.encodeOperands ++ rest) = (.instruction i, rest) := by
  rw [decodeHead, ofByte_opcode, reads_operands h rest]

/-- Instructions with their offsets, the first of which is given. -/
def located (offset : Nat) : List Instruction → List (Nat × Decoded)
  | [] => []
  | i :: is => (offset, .instruction i) :: located (offset + i.encode.length) is

end Instruction

/-- Code that was written is read as the instructions that were written, each where its bytes begin. -/
theorem decodeFrom_flatMap_encode {is : List Instruction} (h : ∀ i ∈ is, i.Writable) (offset : Nat) :
    decodeFrom offset (is.flatMap Instruction.encode) = Instruction.located offset is := by
  induction is generalizing offset with
  | nil => rw [List.flatMap_nil, decodeFrom, Instruction.located]
  | cons i is ih =>
    have hi := h i List.mem_cons_self
    rw [List.flatMap_cons, Instruction.encode, List.cons_append, decodeFrom, Instruction.decodeHead_encode hi,
      ih fun j hj => h j (List.mem_cons_of_mem _ hj), Instruction.located]
    congr 2
    simp [Instruction.encode]
    omega

end Assembler
