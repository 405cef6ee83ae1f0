import Assembler.Bytecode.Chunk
import Assembler.Log.Event
import Assembler.Text.Lines
/-!
# Listings

Any bytes as a list of instructions, one line each. A byte that begins no instruction is listed by
itself; where the operands of an instruction cannot be read, the listing ends.
-/

namespace Assembler

/-! ## Reading leaves the end of the bytes -/

/-- A reader that uses bytes from the head of those it is given. -/
def ByteReader.UsesHead {α : Type} (r : ByteReader α) : Prop :=
  ∀ ⦃s a s'⦄, r s = some (a, s') → s' <:+ s

namespace ByteReader

variable {α β : Type}

theorem usesHead_pure (a : α) : UsesHead (pure a) := by
  intro s b s' h
  have h : some (a, s) = some (b, s') := h
  exact (Prod.mk.inj (Option.some.inj h)).2 ▸ List.suffix_rfl

theorem UsesHead.bind {r : ByteReader α} {f : α → ByteReader β} (hr : UsesHead r)
    (hf : ∀ a, UsesHead (f a)) : UsesHead (r >>= f) := by
  intro s b s' h
  simp only [Bind.bind, StateT.bind] at h
  cases hrs : r s with
  | none => simp [hrs] at h
  | some found =>
    obtain ⟨a, s₁⟩ := found
    rw [hrs] at h
    exact (hf a h).trans (hr hrs)

theorem usesHead_bytes (n : Nat) : UsesHead (bytes n) := by
  intro s a s' h
  unfold bytes at h
  split at h
  · simp only [Option.some.injEq, Prod.mk.injEq] at h
    exact h.2 ▸ List.drop_suffix ..
  · simp at h

theorem usesHead_lift (a : Option α) : UsesHead (liftM a) := by
  intro s b s' h
  cases a with
  | none => simp [liftM, monadLift, MonadLift.monadLift, StateT.lift] at h
  | some a =>
    simp [liftM, monadLift, MonadLift.monadLift, StateT.lift] at h
    exact h.2 ▸ List.suffix_rfl

theorem usesHead_number (width : Nat) : UsesHead (number width) :=
  (usesHead_bytes width).bind fun _ => usesHead_pure _

theorem usesHead_int64 : UsesHead int64 := (usesHead_number 8).bind fun _ => usesHead_pure _

theorem usesHead_text : UsesHead text :=
  (usesHead_number 4).bind fun n => (usesHead_bytes n).bind fun _ => usesHead_pure _

theorem usesHead_place : UsesHead place := (usesHead_bytes 5).bind fun _ => usesHead_lift _

theorem usesHead_places (count : Nat) : UsesHead (places count) := by
  induction count with
  | zero => exact usesHead_pure _
  | succ count ih => exact usesHead_place.bind fun _ => ih.bind fun _ => usesHead_pure _

theorem usesHead_operands (op : Opcode) : UsesHead (operands op) := by
  cases op with
  | loadInt => exact usesHead_place.bind fun _ => usesHead_int64.bind fun _ => usesHead_pure _
  | loadString => exact usesHead_place.bind fun _ => usesHead_text.bind fun _ => usesHead_pure _
  | label => exact usesHead_place.bind fun _ => usesHead_pure _
  | directive =>
    exact usesHead_text.bind fun _ => (usesHead_number 1).bind fun count =>
      (usesHead_places count).bind fun _ => usesHead_text.bind fun _ => usesHead_pure _
  | jump => exact usesHead_place.bind fun _ => usesHead_pure _
  | compare => exact usesHead_place.bind fun _ => usesHead_place.bind fun _ => usesHead_pure _
  | halt => exact usesHead_pure _
  | invalid => exact usesHead_pure _

end ByteReader

/-! ## Decoding -/

/-- What stands at some offset of bytecode. -/
inductive Decoded
  | instruction (i : Instruction)
  | unknown (byte : UInt8)
  | truncated (op : Opcode)
  deriving DecidableEq, Repr

/-- What stands at the head of some bytes, and the bytes after it. -/
def decodeHead (b : UInt8) (rest : List UInt8) : Decoded × List UInt8 :=
  match ByteReader.operands (Opcode.ofByte b) rest with
  | some (some i, after) => (.instruction i, after)
  | some (none, after) => (.unknown b, after)
  | none => (.truncated (Opcode.ofByte b), [])

theorem decodeHead_suffix (b : UInt8) (rest : List UInt8) : (decodeHead b rest).2 <:+ rest := by
  unfold decodeHead
  split
  · exact ByteReader.usesHead_operands _ ‹_›
  · exact ByteReader.usesHead_operands _ ‹_›
  · exact List.nil_suffix

/-- What bytes hold, each with its offset; the first byte has the offset given. -/
def decodeFrom (offset : Nat) (bytes : List UInt8) : List (Nat × Decoded) :=
  match bytes with
  | [] => []
  | b :: rest =>
    (offset, (decodeHead b rest).1)
      :: decodeFrom (offset + 1 + (rest.length - (decodeHead b rest).2.length)) (decodeHead b rest).2
termination_by bytes.length
decreasing_by exact Nat.lt_succ_of_le (decodeHead_suffix b rest).length_le

/-! ## Text -/

namespace Decoded

def name : Decoded → String
  | instruction i => i.opcode.name
  | unknown _ => Opcode.invalid.name
  | truncated op => op.name

def operandText : Decoded → String
  | instruction i => i.operandText
  | unknown byte => "0x" ++ (Text.hexByte byte).map Char.toUpper
  | truncated _ => "<truncated>"

/-- The name alone where there is nothing to add to it. -/
def text (d : Decoded) : String :=
  if d.operandText.isEmpty then d.name else Text.padRight 12 ' ' d.name ++ " " ++ d.operandText

end Decoded

namespace Chunk

/-- The source line of an offset, or a mark that it is that of the byte before. -/
def lineMark (c : Chunk) (offset : Nat) : String :=
  match c.lineAt? offset with
  | none => ""
  | some line =>
    if 0 < offset ∧ c.lineAt? (offset - 1) = some line then "   | "
    else Text.padLeft 4 ' ' (Text.decimal line) ++ " "

/-- All the chunk holds under a title, one line each. -/
def listing (c : Chunk) (title : String) : String :=
  "== " ++ title ++ " ==\n" ++ String.join ((decodeFrom 0 c.code).map fun (offset, d) =>
    Text.padLeft 4 '0' (Text.decimal offset) ++ " " ++ c.lineMark offset ++ d.text ++ "\n")

/-- The listing as events of a log. -/
def listingEvents (c : Chunk) (title : String) : List Event :=
  (Text.lines (c.listing title).toList).map fun line =>
    ⟨.debug, .phase .compiler, String.ofList line, []⟩

end Chunk

end Assembler
