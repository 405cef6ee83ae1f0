import Assembler.Proofs.Decoded
/-!
# Stepping through code

A listing steps from offset to offset. Where each step begins and ends depends on the bytes alone
(`Chunk.decodeAt?`), and all steps together are what decoding gives (`Chunk.walk_decodeFrom`). Code that was written
piece by piece, opcode, places, numbers and texts one after the other, is stepped through instruction
by instruction, and each is shown with the operands that were written: `Chunk.walk_of_written`.
-/

namespace Assembler

namespace Chunk

/-! ## Steps -/

/-- What stands at an offset, and the offset of what comes after it; at the end stands nothing. -/
def decodeAt? (c : Chunk) (offset : Nat) : Option (Decoded × Nat) :=
  match c.code.drop offset with
  | [] => none
  | b :: rest => some ((decodeHead b rest).1, c.code.length - (decodeHead b rest).2.length)

/-- From an offset, steps lead past what they find, each at its offset, to an offset where nothing stands. -/
inductive Walk (c : Chunk) : Nat → List (Nat × Decoded) → Nat → Prop
  | stop {offset : Nat} (h : c.decodeAt? offset = none) : Walk c offset [] offset
  | step {offset next last : Nat} {d : Decoded} {visited : List (Nat × Decoded)}
      (h : c.decodeAt? offset = some (d, next)) (hwalk : Walk c next visited last) :
      Walk c offset ((offset, d) :: visited) last

/-- A step leads to the bytes that decoding leaves. -/
theorem exists_decodeAt?_eq {c : Chunk} {offset : Nat} {b : UInt8} {rest : List UInt8} (h : c.code.drop offset = b :: rest) :
    ∃ next, c.decodeAt? offset = some ((decodeHead b rest).1, next) ∧ c.code.drop next = (decodeHead b rest).2 ∧
      next = offset + 1 + (rest.length - (decodeHead b rest).2.length) ∧ next ≤ c.code.length := by
  obtain ⟨used, hused⟩ := decodeHead_suffix b rest
  have hlength : c.code.length - offset = rest.length + 1 := by
    rw [← List.length_drop, h, List.length_cons]
  have hrest : rest.length = used.length + (decodeHead b rest).2.length := by
    rw [← List.length_append, hused]
  have hnext : c.code.length - (decodeHead b rest).2.length = offset + (1 + used.length) := by omega
  refine ⟨_, by rw [decodeAt?, h], ?_, by omega, Nat.sub_le ..⟩
  rw [hnext, ← List.drop_drop, h, Nat.add_comm, List.drop_succ_cons, ← hused, List.drop_left, hused]

/-- Decoding is to step through the code to its end. -/
theorem walk_decodeFrom (c : Chunk) {offset : Nat} (hoffset : offset ≤ c.code.length) :
    c.Walk offset (decodeFrom offset (c.code.drop offset)) c.code.length := by
  generalize hs : c.code.drop offset = s
  fun_induction decodeFrom offset s with
  | case1 offset =>
    obtain rfl : offset = c.code.length := Nat.le_antisymm hoffset (List.drop_eq_nil_iff.1 hs)
    exact .stop (by rw [decodeAt?, hs])
  | case2 offset b rest ih =>
    obtain ⟨next, hstep, hdrop, hnext, hle⟩ := exists_decodeAt?_eq hs
    rw [← hnext] at ih ⊢
    exact .step hstep (ih hle hdrop)

/-! ## Writing -/

theorem append_append (c : Chunk) (bytes bytes' : List UInt8) (line : Nat) :
    (c.append bytes line).append bytes' line = c.append (bytes ++ bytes') line := by
  cases htracks : c.tracksLines <;> simp [append, htracks, List.replicate_append_replicate]

/-- Writes an instruction piece by piece. -/
def write (c : Chunk) (line : Nat) : Instruction → Chunk
  | .loadInt place value => ((c.writeOpcode .loadInt line).writePlace place line).writeInt64 value line
  | .loadString place value => ((c.writeOpcode .loadString line).writePlace place line).writeText value line
  | .label place => (c.writeOpcode .label line).writePlace place line
  | .directive name arguments body =>
    let c := ((c.writeOpcode .directive line).writeText name line).writeByte (.ofNat arguments.length) line
    (arguments.foldl (fun c place => c.writePlace place line) c).writeText body line
  | .jump condition target => (c.writeOpcode (.jump condition) line).writePlace target line
  | .compare left right => ((c.writeOpcode .compare line).writePlace left line).writePlace right line
  | .halt => c.writeOpcode .halt line

/-- Writes instructions piece by piece, each with its source line. -/
def writeEach (c : Chunk) (is : List (Instruction × Nat)) : Chunk := is.foldl (fun c (i, line) => c.write line i) c

theorem append_nil (c : Chunk) (line : Nat) : c.append [] line = c := by
  obtain ⟨code, lines, tracksLines⟩ := c
  simp [append]

theorem foldl_writePlace (c : Chunk) (places : List Place) (line : Nat) :
    places.foldl (fun c place => c.writePlace place line) c = c.append (places.flatMap Place.encode) line := by
  induction places generalizing c with
  | nil => exact (c.append_nil line).symm
  | cons place places ih => rw [List.foldl_cons, ih, writePlace, append_append, List.flatMap_cons]

/-- The pieces are what the instruction is made of. -/
theorem write_eq (c : Chunk) (line : Nat) (i : Instruction) : c.write line i = c.writeInstruction i line := by
  cases i with
  | directive name arguments body =>
    simp only [write, foldl_writePlace]
    simp [writeInstruction, writeOpcode, writeText, writeByte, append_append, Instruction.encode,
      Instruction.encodeOperands, Instruction.opcode]
  | _ =>
    simp [write, writeInstruction, writeOpcode, writePlace, writeInt64, writeText, append_append,
      Instruction.encode, Instruction.encodeOperands, Instruction.opcode]

theorem code_writeEach (c : Chunk) (is : List (Instruction × Nat)) :
    (c.writeEach is).code = c.code ++ (is.map (·.1)).flatMap Instruction.encode := by
  induction is generalizing c with
  | nil => simp [writeEach]
  | cons i is ih =>
    have hcons : c.writeEach (i :: is) = (c.write i.2 i.1).writeEach is := rfl
    rw [hcons, ih, write_eq, List.map_cons, List.flatMap_cons, ← List.append_assoc]
    rfl

end Chunk

/-! ## Showing -/

namespace Instruction

/-- An instruction as a listing shows it: its mnemonic, and its operands in a column of their own. -/
inductive Shown : Instruction → String → Prop
  | loadInt (place : Place) (value : Int64) :
      Shown (.loadInt place value) ("LOAD_INT     " ++ (place.text ++ " " ++ Text.signed value.toInt))
  | loadString (place : Place) (value : String) :
      Shown (.loadString place value) ("LOAD_STRING  " ++ (place.text ++ " " ++ Text.quoted value))
  | label (place : Place) : Shown (.label place) ("LABEL        " ++ place.text)
  | directive (name : String) (arguments : List Place) :
      Shown (.directive name arguments "")
        ("DIRECTIVE    " ++ ("." ++ name ++ String.join (arguments.map fun a => " " ++ a.text)))
  | directiveWithBody (name : String) (arguments : List Place) {body : String} (hbody : body ≠ "") :
      Shown (.directive name arguments body)
        ("DIRECTIVE    " ++
          ("." ++ name ++ String.join (arguments.map fun a => " " ++ a.text) ++ (" \x7b " ++ body ++ "\x7d")))
  | jmp (target : Place) : Shown (.jump .always target) ("JMP          " ++ target.text)
  | je (target : Place) : Shown (.jump .equal target) ("JE           " ++ target.text)
  | jne (target : Place) : Shown (.jump .notEqual target) ("JNE          " ++ target.text)
  | jg (target : Place) : Shown (.jump .greater target) ("JG           " ++ target.text)
  | jge (target : Place) : Shown (.jump .greaterOrEqual target) ("JGE          " ++ target.text)
  | compare (left right : Place) : Shown (.compare left right) ("CMP          " ++ (left.text ++ " " ++ right.text))
  | halt : Shown .halt "HALT"

/-- An instruction with operands is shown as its mnemonic, padded to the column of the operands, and these. -/
theorem Shown.of_column (op : Opcode) {i : Instruction} {column : String} (h : i.Shown (column ++ i.operandText))
    (hop : i.opcode = op) (hcolumn : Text.padRight 12 ' ' op.name ++ " " = column) (hne : i.operandText ≠ "") :
    i.Shown (Decoded.instruction i).text := by
  have hempty : ¬ (Decoded.instruction i).operandText.isEmpty := by simpa [Decoded.operandText] using hne
  rw [Decoded.text, if_neg hempty]
  rwa [← hcolumn, ← hop] at h

theorem shown_text (i : Instruction) : i.Shown (Decoded.instruction i).text := by
  have hplace (p : Place) : p.text ≠ "" := by simp [Place.text]
  cases i with
  | loadInt place value => exact .of_column .loadInt (.loadInt place value) rfl (by decide) (by simp [operandText])
  | loadString place value =>
    exact .of_column .loadString (.loadString place value) rfl (by decide) (by simp [operandText])
  | label place => exact .of_column .label (.label place) rfl (by decide) (hplace place)
  | directive name arguments body =>
    have hshown : Shown (directive name arguments body) ("DIRECTIVE    " ++ (directive name arguments body).operandText) := by
      by_cases hbody : body = ""
      · subst hbody
        simpa [operandText] using Shown.directive name arguments
      · simpa [operandText, hbody] using Shown.directiveWithBody name arguments hbody
    exact .of_column .directive hshown rfl (by decide) (by simp [operandText])
  | jump condition target =>
    have hne : (jump condition target).operandText ≠ "" := hplace target
    cases condition with
    | always => exact .of_column (.jump .always) (.jmp target) rfl (by decide) hne
    | equal => exact .of_column (.jump .equal) (.je target) rfl (by decide) hne
    | notEqual => exact .of_column (.jump .notEqual) (.jne target) rfl (by decide) hne
    | greater => exact .of_column (.jump .greater) (.jg target) rfl (by decide) hne
    | greaterOrEqual => exact .of_column (.jump .greaterOrEqual) (.jge target) rfl (by decide) hne
  | compare left right => exact .of_column .compare (.compare left right) rfl (by decide) (by simp [operandText])
  | halt => exact .halt

end Instruction

/-! ## Stepping through what was written -/

namespace Instruction

theorem length_located (offset : Nat) (is : List Instruction) : (located offset is).length = is.length := by
  induction is generalizing offset with
  | nil => rfl
  | cons i is ih => simp [located, ih]

/-- An instruction stands after the bytes of those before it. -/
theorem getElem?_located (offset : Nat) (before : List Instruction) (i : Instruction) (after : List Instruction) :
    (located offset (before ++ i :: after))[before.length]? =
      some (offset + (before.flatMap encode).length, .instruction i) := by
  induction before generalizing offset with
  | nil => simp [located]
  | cons j before ih =>
    rw [List.cons_append, located, List.length_cons, List.getElem?_cons_succ, ih, List.flatMap_cons, List.length_append,
      Nat.add_assoc]

end Instruction

/-- Steps through code that was written piece by piece go from the beginning of one instruction to that of the next,
and from the last one to the end of the code. Each finds the instruction that was written, and shows it. -/
theorem Chunk.walk_of_written {is : List (Instruction × Nat)} (h : ∀ i ∈ is, i.1.Writable) (tracksLines : Bool) :
    let written := ({ tracksLines } : Chunk).writeEach
    ∃ visited, (written is).Walk 0 visited (written is).code.length ∧ visited = decodeFrom 0 (written is).code ∧
      visited.length = is.length ∧
      ∀ before i line after, is = before ++ (i, line) :: after →
        ∃ d, visited[before.length]? = some ((written before).code.length, d) ∧ d = .instruction i ∧ i.Shown d.text := by
  intro written
  have hcode (js : List (Instruction × Nat)) : (written js).code = (js.map (·.1)).flatMap Instruction.encode := by
    simp [written, code_writeEach]
  have hvisited : decodeFrom 0 (written is).code = Instruction.located 0 (is.map (·.1)) := by
    rw [hcode]
    exact decodeFrom_flatMap_encode (by simpa using h) 0
  refine ⟨_, (written is).walk_decodeFrom (Nat.zero_le _), rfl, ?_, ?_⟩
  · rw [List.drop_zero, hvisited, Instruction.length_located, List.length_map]
  · intro before i line after his
    refine ⟨.instruction i, ?_, rfl, i.shown_text⟩
    rw [List.drop_zero, hvisited, his, List.map_append, List.map_cons, hcode]
    simpa using Instruction.getElem?_located 0 (before.map (·.1)) i (after.map (·.1))

/-- Here the directive stands after a text of three bytes, and takes up 23 bytes. -/
theorem Chunk.walk_of_written_directive :
    let is : List (Instruction × Nat) := [(.loadString (.static 0) "é\n", 1),
      (.directive "d" [.static 0, ⟨.register, 3⟩] "x ", 2), (.jump .notEqual ⟨.localSlot, 7⟩, 3)]
    (∀ i ∈ is, i.1.Writable) ∧ ∃ visited, (({} : Chunk).writeEach is).Walk 0 visited 42 ∧ visited.length = 3 ∧
      ∃ d, visited[1]? = some (13, d) ∧ d.text = "DIRECTIVE    .d STATIC[0] REGISTER[3] \x7b x \x7d" := by
  intro is
  have hwritable : ∀ i ∈ is, i.1.Writable := by
    simp only [is, List.forall_mem_cons]
    refine ⟨⟨by decide, by rintro _ _ _ ⟨⟩⟩, ⟨by decide, ?_⟩, ⟨by decide, by rintro _ _ _ ⟨⟩⟩, by simp⟩
    rintro _ _ _ ⟨⟩
    decide
  obtain ⟨visited, hwalk, -, hlength, hvisited⟩ := walk_of_written hwritable true
  obtain ⟨d, hd, rfl, -⟩ := hvisited [_] _ 2 [_] rfl
  have hend : (({} : Chunk).writeEach is).code.length = 42 := by decide
  have hstart : (({} : Chunk).writeEach (is.take 1)).code.length = 13 := by decide
  refine ⟨hwritable, visited, hend ▸ hwalk, hlength, _, hstart ▸ hd, by decide⟩

end Assembler
