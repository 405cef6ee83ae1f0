import Mathlib.Logic.Basic
import Mathlib.Tactic.Push
import Assembler.Proofs.Offsets
/-!
# How far operands reach

An opcode calls for a number of bytes after it, which the lengths and the count that stand among these bytes decide
(`Opcode.operandLength`), and for a store at some of them (`Opcode.storeOffsets`). Operands can be read just if both are
there (`ByteReader.needs_operands`), so a listing marks an instruction as truncated not only where the code ends too early,
but also where a byte in the place of a store is none: `Chunk.truncated_iff`.
-/

namespace Assembler

/-! ## What an opcode calls for -/

/-- How many bytes a text takes up with its length, which stands at the head of the bytes. -/
def textLength (bytes : List UInt8) : Nat := 4 + ofLittleEndian (bytes.take 4)

namespace Opcode

/-- How many arguments a directive has; their count stands behind its name. -/
def argumentCount (bytes : List UInt8) : Nat := ofLittleEndian ((bytes.drop (textLength bytes)).take 1)

/-- How many bytes of operands follow, by the lengths and the count that stand among them. -/
def operandLength (op : Opcode) (bytes : List UInt8) : Nat :=
  match op with
  | loadInt => 13
  | loadString => 5 + textLength (bytes.drop 5)
  | label | jump _ => 5
  | directive =>
    let body := textLength bytes + (1 + 5 * argumentCount bytes)
    body + textLength (bytes.drop body)
  | compare => 10
  | halt | invalid => 0

/-- At which of the bytes that follow the stores of places stand. -/
def storeOffsets (op : Opcode) (bytes : List UInt8) : List Nat :=
  match op with
  | loadInt | loadString | label | jump _ => [0]
  | directive => (List.range (argumentCount bytes)).map fun k => textLength bytes + (1 + 5 * k)
  | compare => [0, 5]
  | halt | invalid => []

/-- The operands that are called for run past the end of the bytes. -/
def RunsPast (op : Opcode) (bytes : List UInt8) : Prop := bytes.length < op.operandLength bytes

instance (op : Opcode) (bytes : List UInt8) : Decidable (op.RunsPast bytes) := inferInstanceAs (Decidable (_ < _))

/-- A byte that is called for as a store is there, and is that of none. -/
def HasOddStore (op : Opcode) (bytes : List UInt8) : Prop :=
  ∃ o ∈ op.storeOffsets bytes, ∃ b, bytes[o]? = some b ∧ Store.ofByte? b = none

end Opcode

/-- Whether the byte at an offset is that of a store. -/
def IsStoreAt (bytes : List UInt8) (offset : Nat) : Prop := ∃ b, bytes[offset]? = some b ∧ (Store.ofByte? b).isSome

theorem isStoreAt_drop {bytes : List UInt8} {n offset : Nat} : IsStoreAt (bytes.drop n) offset ↔ IsStoreAt bytes (n + offset) := by
  rw [IsStoreAt, IsStoreAt, List.getElem?_drop]

/-! ## What readers need -/

namespace ByteReader

variable {α β : Type}

/-- From some bytes a reader takes a number of them, and finds something just if there are so many and a store stands at
each of some offsets. -/
structure Needs (r : ByteReader α) (bytes : List UInt8) (n : Nat) (stores : List Nat) : Prop where
  isSome_iff : (r bytes).isSome ↔ n ≤ bytes.length ∧ ∀ o ∈ stores, IsStoreAt bytes o
  rest : ∀ a s', r bytes = some (a, s') → s' = bytes.drop n

variable {r : ByteReader α} {f : α → ByteReader β} {bytes : List UInt8} {n m : Nat} {stores stores' : List Nat}

theorem Needs.iff_of_none (h : r bytes = none) :
    Needs r bytes n stores ↔ ¬ (n ≤ bytes.length ∧ ∀ o ∈ stores, IsStoreAt bytes o) := by
  refine ⟨fun hneeds => ?_, fun hnot => ⟨iff_of_false ?_ hnot, fun a s' hrun => ?_⟩⟩
  · rw [← hneeds.isSome_iff, h]
    exact Bool.false_ne_true
  · rw [h]
    exact Bool.false_ne_true
  · cases h.symm.trans hrun

theorem needs_pure (a : α) (bytes : List UInt8) : Needs (pure a) bytes 0 [] where
  isSome_iff := iff_of_true rfl ⟨Nat.zero_le _, fun o ho => by cases ho⟩
  rest := by
    rintro _ _ ⟨⟩
    rfl

theorem bind_of_none (h : r bytes = none) : (r >>= f) bytes = none := by
  show (r bytes).bind _ = none
  rw [h]
  rfl

theorem bind_of_some {a : α} {s' : List UInt8} (h : r bytes = some (a, s')) : (r >>= f) bytes = f a s' := by
  show (r bytes).bind _ = f a s'
  rw [h]
  rfl

/-- What the second reader needs may depend on what the first one finds. -/
theorem Needs.bind (hr : Needs r bytes n stores) (hf : ∀ a, r bytes = some (a, bytes.drop n) → Needs (f a) (bytes.drop n) m stores') :
    Needs (r >>= f) bytes (n + m) (stores ++ stores'.map (n + ·)) := by
  cases hrun : r bytes with
  | none =>
    -- What the first reader lacks, both lack.
    rw [Needs.iff_of_none hrun] at hr
    rw [Needs.iff_of_none (bind_of_none hrun)]
    rintro ⟨hlength, hstores⟩
    exact hr ⟨Nat.le_trans (Nat.le_add_right n m) hlength, fun o ho => hstores o (List.mem_append_left _ ho)⟩
  | some found =>
    obtain ⟨a, s'⟩ := found
    obtain rfl := hr.rest a s' hrun
    have hhas : n ≤ bytes.length ∧ ∀ o ∈ stores, IsStoreAt bytes o := by
      rw [← hr.isSome_iff, hrun]
      rfl
    have hnext := hf a hrun
    refine ⟨?_, fun b s' h => ?_⟩
    · rw [bind_of_some hrun, hnext.isSome_iff, List.length_drop, List.forall_mem_append, List.forall_mem_map]
      simp only [isStoreAt_drop]
      have hlength : m ≤ bytes.length - n ↔ n + m ≤ bytes.length := by omega
      rw [hlength, and_iff_right hhas.2]
    · rw [bind_of_some hrun] at h
      rw [hnext.rest b s' h, List.drop_drop]

theorem Needs.map (hr : Needs r bytes n stores) (g : α → β) : Needs (r >>= fun a => pure (g a)) bytes n stores := by
  simpa using hr.bind (f := fun a => pure (g a)) fun a _ => needs_pure (g a) (bytes.drop n)

theorem needs_bytes (n : Nat) (bytes : List UInt8) : Needs (ByteReader.bytes n) bytes n [] where
  isSome_iff := by simp [ByteReader.bytes]
  rest := by
    intro taken s' h
    unfold ByteReader.bytes at h
    split at h <;> cases h
    rfl

theorem needs_number (width : Nat) (bytes : List UInt8) : Needs (number width) bytes width [] := (needs_bytes width bytes).map _

theorem eq_of_number {width value : Nat} {s' : List UInt8} (h : number width bytes = some (value, s')) :
    value = ofLittleEndian (bytes.take width) := by
  obtain ⟨taken, s₁, htaken, hpure⟩ := bind_eq_some h
  cases hpure
  obtain ⟨rfl, rfl⟩ := bytes_eq_some htaken
  rw [List.take_left]

theorem needs_int64 (bytes : List UInt8) : Needs int64 bytes 8 [] := (needs_number 8 bytes).map _

theorem needs_text (bytes : List UInt8) : Needs text bytes (textLength bytes) [] := by
  show Needs text bytes (4 + ofLittleEndian (bytes.take 4)) ([] ++ [].map (4 + ·))
  refine (needs_number 4 bytes).bind fun length hlength => ?_
  rw [eq_of_number hlength]
  exact (needs_bytes _ _).map _

/-- A place can be read just if its store is one, whatever its slot. -/
theorem needs_place (bytes : List UInt8) : Needs place bytes 5 [0] := by
  match bytes with
  | b :: s₀ :: s₁ :: s₂ :: s₃ :: rest =>
    have hplace : place (b :: s₀ :: s₁ :: s₂ :: s₃ :: rest) =
        (Store.ofByte? b).map fun store => (⟨store, UInt32.ofNat (ofLittleEndian [s₀, s₁, s₂, s₃])⟩, rest) := by
      cases hstore : Store.ofByte? b <;>
        simp [place, Bind.bind, StateT.bind, ByteReader.bytes, Place.decode?, hstore, liftM, monadLift, MonadLift.monadLift,
          StateT.lift, Pure.pure]
    refine ⟨?_, fun p s' h => ?_⟩
    · rw [hplace, Option.isSome_map]
      simp [IsStoreAt]
    · rw [hplace] at h
      obtain ⟨store, -, hfound⟩ := Option.map_eq_some_iff.1 h
      exact (Prod.mk.inj hfound).2.symm
  | [] | [_] | [_, _] | [_, _, _] | [_, _, _, _] =>
    exact (Needs.iff_of_none rfl).2 fun h => absurd h.1 (by simp)

theorem needs_places (count : Nat) (bytes : List UInt8) :
    Needs (places count) bytes (5 * count) ((List.range count).map (5 * ·)) := by
  induction count generalizing bytes with
  | zero => exact needs_pure [] bytes
  | succ count ih =>
    have hstores : (List.range (count + 1)).map (5 * ·) = [0] ++ ((List.range count).map (5 * ·)).map (5 + ·) := by
      rw [List.range_succ_eq_map, List.map_cons, List.map_map, List.map_map]
      exact congrArg (0 :: ·) (List.map_congr_left fun k _ => by simp only [Function.comp]; omega)
    rw [hstores, show 5 * (count + 1) = 5 + 5 * count by omega]
    exact (needs_place bytes).bind fun p _ => (ih (bytes.drop 5)).map _

/-- Operands can be read just if there are as many bytes as the opcode calls for, with a store where it calls for one. -/
theorem needs_operands (op : Opcode) (bytes : List UInt8) :
    Needs (operands op) bytes (op.operandLength bytes) (op.storeOffsets bytes) := by
  cases op with
  | loadInt => exact (needs_place bytes).bind fun _ _ => (needs_int64 _).map _
  | loadString => exact (needs_place bytes).bind fun _ _ => (needs_text _).map _
  | label => exact (needs_place bytes).map _
  | directive =>
    let count := Opcode.argumentCount bytes
    let body := textLength bytes + (1 + 5 * count)
    have hlength : Opcode.directive.operandLength bytes =
        textLength bytes + (1 + (5 * count + textLength (bytes.drop body))) := by
      show body + textLength (bytes.drop body) = _
      omega
    have hstores : Opcode.directive.storeOffsets bytes =
        [] ++ ([] ++ ((List.range count).map (5 * ·)).map (1 + ·)).map (textLength bytes + ·) := by
      simp [Opcode.storeOffsets, count]
    rw [hlength, hstores]
    refine (needs_text bytes).bind fun _ _ => (needs_number 1 _).bind fun k hk => ?_
    -- From here on the count that was read is the one that stands behind the name.
    obtain rfl : k = count := eq_of_number hk
    have hbody : bytes.drop body = ((bytes.drop (textLength bytes)).drop 1).drop (5 * count) := by
      rw [List.drop_drop, List.drop_drop]
    rw [hbody, ← List.append_nil ((List.range count).map (5 * ·))]
    exact (needs_places count _).bind fun _ _ => (needs_text _).map _
  | jump => exact (needs_place bytes).map _
  | compare => exact (needs_place bytes).bind fun _ _ => (needs_place _).map _
  | halt => exact needs_pure _ bytes
  | invalid => exact needs_pure _ bytes

/-- The byte of a store that is called for is one of the bytes that are called for. -/
theorem lt_of_mem_storeOffsets {op : Opcode} {o : Nat} (h : o ∈ op.storeOffsets bytes) : o < op.operandLength bytes := by
  cases op with
  | directive =>
    obtain ⟨k, hk, rfl⟩ := List.mem_map.1 h
    have hcount := List.mem_range.1 hk
    simp only [Opcode.operandLength]
    omega
  | halt | invalid => cases h
  | compare =>
    rcases List.mem_cons.1 h with rfl | h
    · exact Nat.zero_lt_succ _
    · obtain rfl := List.mem_singleton.1 h
      show 5 < 10
      decide
  | _ =>
    obtain rfl := List.mem_singleton.1 h
    simp only [Opcode.operandLength]
    omega

theorem operands_eq_none_iff {op : Opcode} : operands op bytes = none ↔ op.RunsPast bytes ∨ op.HasOddStore bytes := by
  rw [← Option.not_isSome_iff_eq_none, (needs_operands op bytes).isSome_iff, not_and_or, Nat.not_le]
  refine ⟨?_, .imp_right ?_⟩
  · rintro (hshort | hnone)
    · exact .inl hshort
    · push Not at hnone
      obtain ⟨o, ho, hstore⟩ := hnone
      cases hb : bytes[o]? with
      | none => exact .inl (Nat.lt_of_le_of_lt (List.getElem?_eq_none_iff.1 hb) (lt_of_mem_storeOffsets ho))
      | some b => exact .inr ⟨o, ho, b, hb, Option.not_isSome_iff_eq_none.1 fun hsome => hstore ⟨b, hb, hsome⟩⟩
  · rintro ⟨o, ho, b, hb, hnone⟩ hstores
    obtain ⟨b', hb', hsome⟩ := hstores o ho
    cases hb.symm.trans hb'
    rw [hnone] at hsome
    cases hsome

end ByteReader

/-! ## Listings -/

/-- Operands that cannot be read end the listing, and others are followed by what comes behind as many bytes as were called for. -/
theorem decodeHead_eq (b : UInt8) (rest : List UInt8) :
    ((Opcode.ofByte b).RunsPast rest ∨ (Opcode.ofByte b).HasOddStore rest) ∧
        decodeHead b rest = (.truncated (.ofByte b), []) ∨
      ¬ ((Opcode.ofByte b).RunsPast rest ∨ (Opcode.ofByte b).HasOddStore rest) ∧
        (∀ op, (decodeHead b rest).1 ≠ .truncated op) ∧
        (decodeHead b rest).2 = rest.drop ((Opcode.ofByte b).operandLength rest) := by
  rw [← ByteReader.operands_eq_none_iff]
  unfold decodeHead
  cases hread : ByteReader.operands (.ofByte b) rest with
  | none => exact .inl ⟨rfl, rfl⟩
  | some found =>
    obtain ⟨i, after⟩ := found
    have hafter := (ByteReader.needs_operands _ rest).rest i after hread
    refine .inr ⟨nofun, ?_⟩
    cases i with
    | none => exact ⟨nofun, hafter⟩
    | some i => exact ⟨nofun, hafter⟩

/-- No operands are shown as the mark of those that cannot be read. -/
theorem Instruction.operandText_ne_truncated (i : Instruction) : i.operandText ≠ "<truncated>" := by
  have hplace (p : Place) (rest : String) : (p.text ++ rest).toList.head? ≠ some '<' := by
    obtain ⟨store, slot⟩ := p
    cases store <;> simp [Place.text, Store.name]
  intro h
  have hhead : i.operandText.toList.head? = some '<' := congrArg (·.toList.head?) h
  cases i with
  | loadInt p value => exact hplace p (" " ++ Text.signed value.toInt) (by simpa [operandText, String.append_assoc] using hhead)
  | loadString p value => exact hplace p (" " ++ Text.quoted value) (by simpa [operandText, String.append_assoc] using hhead)
  | label p => exact hplace p "" (by simpa [operandText] using hhead)
  | directive name arguments body => simp [operandText, String.append_assoc] at hhead
  | jump condition target => exact hplace target "" (by simpa [operandText] using hhead)
  | compare left right => exact hplace left (" " ++ right.text) (by simpa [operandText, String.append_assoc] using hhead)
  | halt => simp [operandText] at hhead

theorem Decoded.operandText_eq_truncated_iff {d : Decoded} : d.operandText = "<truncated>" ↔ ∃ op, d = .truncated op := by
  cases d with
  | instruction i => simp [operandText, i.operandText_ne_truncated]
  | unknown b =>
    refine iff_of_false (fun h => ?_) (by simp)
    have hhead := congrArg (·.toList.head?) h
    simp [operandText] at hhead
  | truncated op => simp [operandText]

namespace Chunk

variable {c : Chunk} {offset next last : Nat} {d : Decoded} {visited : List (Nat × Decoded)}

theorem Walk.exists_decodeAt? (h : c.Walk offset visited last) {o : Nat} (hmem : (o, d) ∈ visited) :
    ∃ next, c.decodeAt? o = some (d, next) := by
  induction h with
  | stop => cases hmem
  | @step offset next last d' visited hstep _ ih =>
    rcases List.mem_cons.1 hmem with heq | hmem
    · cases heq
      exact ⟨next, hstep⟩
    · exact ih hmem

/-- Wherever a listing reads an instruction, this is marked as truncated just if the operands that its opcode calls for,
with the lengths and the count as they stand there, run past the end of the code, or if a byte among them that should be a
store is that of none. Such an instruction is the last one; any other is followed by what stands behind its operands. -/
theorem truncated_iff (c : Chunk) :
    (∀ offset d, (offset, d) ∈ decodeFrom 0 c.code → ∃ next, c.decodeAt? offset = some (d, next)) ∧
    ∀ offset d next, c.decodeAt? offset = some (d, next) → ∃ b, c.code[offset]? = some b ∧
      let rest := c.code.drop (offset + 1)
      (d.operandText = "<truncated>" ↔ (Opcode.ofByte b).RunsPast rest ∨ (Opcode.ofByte b).HasOddStore rest) ∧
      (d.operandText = "<truncated>" → next = c.code.length) ∧
      (d.operandText ≠ "<truncated>" → next = offset + 1 + (Opcode.ofByte b).operandLength rest) := by
  refine ⟨fun offset d hmem => (c.walk_decodeFrom (Nat.zero_le _)).exists_decodeAt? hmem, fun offset d next h => ?_⟩
  obtain ⟨b, rest, hb, hrest, hlength, rfl, hnext⟩ := exists_decodeHead_eq h
  refine ⟨b, hb, ?_⟩
  simp only [hrest, Decoded.operandText_eq_truncated_iff, ne_eq]
  rcases decodeHead_eq b rest with ⟨hunread, hhead⟩ | ⟨hread, hmark, hafter⟩
  · rw [hhead] at hnext ⊢
    exact ⟨iff_of_true ⟨_, rfl⟩ hunread, fun _ => by simpa [hlength] using hnext, fun hmark => absurd ⟨_, rfl⟩ hmark⟩
  · have hmark : ¬ ∃ op, (decodeHead b rest).1 = .truncated op := not_exists.2 hmark
    refine ⟨iff_of_false hmark hread, fun h => absurd h hmark, fun _ => ?_⟩
    have hle : (Opcode.ofByte b).operandLength rest ≤ rest.length := Nat.not_lt.1 fun hlt => hread (.inl hlt)
    rw [hnext, hafter, List.length_drop, Nat.sub_sub_self hle]

/-- Here a jump is followed by its place, a byte that begins no instruction, a jump to a place in no store, of which
nothing is missing, and a text that is. -/
theorem truncated_iff_of_odd_store :
    let c : Chunk := { code := [0x40, 1, 2, 0, 0, 0, 7, 0x41, 9, 0, 0, 0, 0, 0x11, 1, 0, 0, 0, 0, 200, 0, 0, 0, 65] }
    decodeFrom 0 c.code =
        [(0, .instruction (.jump .always (.static 2))), (6, .unknown 7), (7, .truncated (.jump .equal))] ∧
      (c.decodeAt? 0 = some (.instruction (.jump .always (.static 2)), 6) ∧
        ¬ (Opcode.jump .always).RunsPast (c.code.drop 1) ∧ ¬ (Opcode.jump .always).HasOddStore (c.code.drop 1)) ∧
      (c.decodeAt? 7 = some (.truncated (.jump .equal), 24) ∧
        ((Opcode.jump .equal).RunsPast (c.code.drop 8) ∨ (Opcode.jump .equal).HasOddStore (c.code.drop 8))) ∧
      (c.decodeAt? 13 = some (.truncated .loadString, 24) ∧
        (Opcode.loadString.RunsPast (c.code.drop 14) ∨ Opcode.loadString.HasOddStore (c.code.drop 14))) := by
  intro c
  have hread : c.decodeAt? 0 = some (.instruction (.jump .always (.static 2)), 6) := by decide
  have hodd : c.decodeAt? 7 = some (.truncated (.jump .equal), 24) := by decide
  have hpast : c.decodeAt? 13 = some (.truncated .loadString, 24) := by decide
  obtain ⟨-, hsteps⟩ := c.truncated_iff
  refine ⟨by decide +kernel, ⟨hread, ?_⟩, ⟨hodd, ?_⟩, ⟨hpast, ?_⟩⟩
  · obtain ⟨b, hb, hmark, -⟩ := hsteps 0 _ _ hread
    cases hb
    exact not_or.1 fun h => absurd (hmark.2 h) (by decide)
  · obtain ⟨b, hb, hmark, -⟩ := hsteps 7 _ _ hodd
    cases hb
    exact hmark.1 rfl
  · obtain ⟨b, hb, hmark, -⟩ := hsteps 13 _ _ hpast
    cases hb
    exact hmark.1 rfl

/-- All five bytes of this jump's place are there, and the listing marks it as truncated and leaves out what follows. -/
theorem not_only_if_past_end :
    let c : Chunk := { code := [0x40, 9, 0, 0, 0, 0, 0xF0] }
    ¬ (Opcode.ofByte 0x40).RunsPast (c.code.drop 1) ∧ (Opcode.ofByte 0x40).operandLength (c.code.drop 1) = 5 ∧
      (decodeFrom 0 c.code).map (fun (offset, d) => (offset, d.text)) = [(0, "JMP          <truncated>")] := by
  intro c
  exact ⟨by decide, by decide, by decide +kernel⟩

end Chunk

end Assembler
