import Assembler.Proofs.Stepping
/-!
# Offsets of a listing

Any bytes are listed to their end, whatever they are. A reader of operands looks at no bytes but those
that it takes (`ByteReader.IsLocal`), and takes as many as the opcode says where the opcode says so
(`ByteReader.takes_operands`). So the offsets of a listing go up from the first byte to the last, each
step stays inside the code, and what it finds is read from the bytes between its two offsets alone:
`Chunk.decodeFrom_tiles`.
-/

namespace Assembler

/-! ## What readers take -/

namespace ByteReader

variable {α β : Type}

/-- A reader that looks at no bytes but those that it takes: with these it finds the same, whatever comes after them. -/
def IsLocal (r : ByteReader α) : Prop :=
  ∀ ⦃s a s'⦄, r s = some (a, s') → ∃ used, s = used ++ s' ∧ Reads r used a

/-- A reader that takes a number of bytes if it finds anything. -/
def Takes (r : ByteReader α) (n : Nat) : Prop := ∀ ⦃s a s'⦄, r s = some (a, s') → s.length = n + s'.length

/-- Where one reader goes on after another, both have found something. -/
theorem bind_eq_some {r : ByteReader α} {f : α → ByteReader β} {s s'' : List UInt8} {b : β}
    (h : (r >>= f) s = some (b, s'')) : ∃ a s', r s = some (a, s') ∧ f a s' = some (b, s'') := by
  obtain ⟨⟨a, s'⟩, hr, hf⟩ := Option.bind_eq_some_iff.1 h
  exact ⟨a, s', hr, hf⟩

theorem isLocal_pure (a : α) : IsLocal (pure a) := by
  rintro s _ _ ⟨⟩
  exact ⟨[], rfl, .pure a⟩

theorem IsLocal.bind {r : ByteReader α} {f : α → ByteReader β} (hr : IsLocal r) (hf : ∀ a, IsLocal (f a)) :
    IsLocal (r >>= f) := by
  intro s b s'' h
  obtain ⟨a, s', hrun, hrun'⟩ := bind_eq_some h
  obtain ⟨used, rfl, hreads⟩ := hr hrun
  obtain ⟨used', rfl, hreads'⟩ := hf a hrun'
  exact ⟨used ++ used', (List.append_assoc ..).symm, hreads.bind hreads'⟩

theorem bytes_eq_some {n : Nat} {s taken s' : List UInt8} (h : bytes n s = some (taken, s')) :
    s = taken ++ s' ∧ taken.length = n := by
  unfold bytes at h
  split at h
  · rename_i hle
    cases h
    exact ⟨(List.take_append_drop ..).symm, List.length_take_of_le hle⟩
  · cases h

theorem isLocal_bytes (n : Nat) : IsLocal (bytes n) := by
  intro s taken s' h
  obtain ⟨rfl, rfl⟩ := bytes_eq_some h
  exact ⟨taken, rfl, reads_bytes taken⟩

theorem lift_eq_some {a : Option α} {s s' : List UInt8} {found : α} (h : (liftM a : ByteReader α) s = some (found, s')) :
    a = some found ∧ s = s' := by
  cases a with
  | none => cases h
  | some a =>
    cases h
    exact ⟨rfl, rfl⟩

theorem isLocal_lift (a : Option α) : IsLocal (liftM a : ByteReader α) := by
  intro s found s' h
  obtain ⟨rfl, rfl⟩ := lift_eq_some h
  exact ⟨[], rfl, fun _ => rfl⟩

theorem isLocal_number (width : Nat) : IsLocal (number width) := (isLocal_bytes width).bind fun _ => isLocal_pure _

theorem isLocal_int64 : IsLocal int64 := (isLocal_number 8).bind fun _ => isLocal_pure _

theorem isLocal_text : IsLocal text :=
  (isLocal_number 4).bind fun n => (isLocal_bytes n).bind fun _ => isLocal_pure _

theorem isLocal_place : IsLocal place := (isLocal_bytes 5).bind fun _ => isLocal_lift _

theorem isLocal_places (count : Nat) : IsLocal (places count) := by
  induction count with
  | zero => exact isLocal_pure _
  | succ count ih => exact isLocal_place.bind fun _ => ih.bind fun _ => isLocal_pure _

theorem isLocal_operands (op : Opcode) : IsLocal (operands op) := by
  cases op with
  | loadInt => exact isLocal_place.bind fun _ => isLocal_int64.bind fun _ => isLocal_pure _
  | loadString => exact isLocal_place.bind fun _ => isLocal_text.bind fun _ => isLocal_pure _
  | label => exact isLocal_place.bind fun _ => isLocal_pure _
  | directive =>
    exact isLocal_text.bind fun _ => (isLocal_number 1).bind fun count =>
      (isLocal_places count).bind fun _ => isLocal_text.bind fun _ => isLocal_pure _
  | jump => exact isLocal_place.bind fun _ => isLocal_pure _
  | compare => exact isLocal_place.bind fun _ => isLocal_place.bind fun _ => isLocal_pure _
  | halt => exact isLocal_pure _
  | invalid => exact isLocal_pure _

theorem takes_pure (a : α) : Takes (pure a) 0 := by
  rintro s _ _ ⟨⟩
  exact (Nat.zero_add _).symm

theorem Takes.bind {r : ByteReader α} {f : α → ByteReader β} {n m : Nat} (hr : Takes r n) (hf : ∀ a, Takes (f a) m) :
    Takes (r >>= f) (n + m) := by
  intro s b s'' h
  obtain ⟨a, s', hrun, hrun'⟩ := bind_eq_some h
  rw [hr hrun, hf a hrun', Nat.add_assoc]

theorem takes_bytes (n : Nat) : Takes (bytes n) n := by
  intro s taken s' h
  obtain ⟨rfl, rfl⟩ := bytes_eq_some h
  exact List.length_append

theorem takes_place : Takes place 5 := by
  refine (takes_bytes 5).bind (m := 0) fun _ s p s' h => ?_
  rw [(lift_eq_some h).2, Nat.zero_add]

theorem takes_int64 : Takes int64 8 := ((takes_bytes 8).bind fun _ => takes_pure _).bind fun _ => takes_pure _

/-- Instructions of a fixed length have operands of that length. -/
theorem takes_operands {op : Opcode} {n : Nat} (h : op.operandSize? = some n) : Takes (operands op) n := by
  cases op with
  | loadInt =>
    cases h
    exact takes_place.bind fun _ => takes_int64.bind fun _ => takes_pure _
  | loadString => cases h
  | label =>
    cases h
    exact takes_place.bind fun _ => takes_pure _
  | directive => cases h
  | jump =>
    cases h
    exact takes_place.bind fun _ => takes_pure _
  | compare =>
    cases h
    exact takes_place.bind fun _ => takes_place.bind fun _ => takes_pure _
  | halt =>
    cases h
    exact takes_pure _
  | invalid =>
    cases h
    exact takes_pure _

/-- Whatever a reader that is made up of an instruction at its end finds is an instruction. -/
theorem isSome_of_bind {r : ByteReader α} {f : α → ByteReader (Option Instruction)}
    (hf : ∀ ⦃a s found s'⦄, f a s = some (found, s') → found.isSome) ⦃s : List UInt8⦄ ⦃found : Option Instruction⦄
    ⦃s' : List UInt8⦄ (h : (r >>= f) s = some (found, s')) : found.isSome := by
  obtain ⟨a, s₁, -, hrun⟩ := bind_eq_some h
  exact hf hrun

/-- No instruction is found just if the opcode is that of none. -/
theorem eq_invalid_of_operands {op : Opcode} {s s' : List UInt8} (h : operands op s = some (none, s')) :
    op = .invalid ∧ s' = s := by
  have hpure {i : Instruction} ⦃s : List UInt8⦄ ⦃found s'⦄
      (h : (pure (some i) : ByteReader (Option Instruction)) s = some (found, s')) : found.isSome := by
    cases h
    rfl
  suffices hsome : op ≠ .invalid → (none : Option Instruction).isSome by
    by_cases hop : op = .invalid
    · subst hop
      cases h
      exact ⟨rfl, rfl⟩
    · cases hsome hop
  intro hop
  cases op with
  | loadInt => exact isSome_of_bind (fun _ => isSome_of_bind fun _ => hpure) h
  | loadString => exact isSome_of_bind (fun _ => isSome_of_bind fun _ => hpure) h
  | label => exact isSome_of_bind (fun _ => hpure) h
  | directive =>
    exact isSome_of_bind (fun _ => isSome_of_bind fun _ => isSome_of_bind fun _ => isSome_of_bind fun _ => hpure) h
  | jump => exact isSome_of_bind (fun _ => hpure) h
  | compare => exact isSome_of_bind (fun _ => isSome_of_bind fun _ => hpure) h
  | halt => exact hpure h
  | invalid => exact absurd rfl hop

end ByteReader

/-! ## Steps -/

namespace Chunk

/-- What stands at an offset, up to the next one: operands that are read from the bytes between the two alone, as many as
the opcode says if it says so; a byte that begins no instruction; or the end of the code, from which no operands can be read. -/
inductive Holds (c : Chunk) (offset next : Nat) : Decoded → Prop
  | instruction {b : UInt8} {i : Instruction} (hb : c.code[offset]? = some b)
      (hreads : (ByteReader.operands (.ofByte b)).Reads ((c.code.drop (offset + 1)).take (next - (offset + 1))) (some i))
      (hsize : ∀ n, (Opcode.ofByte b).operandSize? = some n → next = offset + 1 + n) : Holds c offset next (.instruction i)
  | unknown {b : UInt8} (hb : c.code[offset]? = some b) (hop : Opcode.ofByte b = .invalid) (hnext : next = offset + 1) :
      Holds c offset next (.unknown b)
  | truncated {b : UInt8} (hb : c.code[offset]? = some b)
      (hread : ByteReader.operands (.ofByte b) (c.code.drop (offset + 1)) = none) (hnext : next = c.code.length) :
      Holds c offset next (.truncated (.ofByte b))

variable {c : Chunk} {offset next last : Nat} {d : Decoded} {visited : List (Nat × Decoded)}

/-- A step finds what the bytes from its offset on begin with, and leads past the bytes that this uses. -/
theorem exists_decodeHead_eq (h : c.decodeAt? offset = some (d, next)) :
    ∃ b rest, c.code[offset]? = some b ∧ c.code.drop (offset + 1) = rest ∧ c.code.length = offset + 1 + rest.length ∧
      d = (decodeHead b rest).1 ∧ next = offset + 1 + (rest.length - (decodeHead b rest).2.length) := by
  cases hdrop : c.code.drop offset with
  | nil =>
    rw [decodeAt?, hdrop] at h
    cases h
  | cons b rest =>
    obtain ⟨next', hstep, -, hnext, -⟩ := exists_decodeAt?_eq hdrop
    obtain ⟨rfl, rfl⟩ : (decodeHead b rest).1 = d ∧ next' = next := by simpa using hstep.symm.trans h
    have hlength := congrArg List.length hdrop
    rw [List.length_drop, List.length_cons] at hlength
    refine ⟨b, rest, ?_, ?_, by omega, rfl, hnext⟩
    · rw [← List.head?_drop, hdrop, List.head?_cons]
    · rw [← List.drop_drop, hdrop]
      rfl

theorem holds_of_decodeAt? (h : c.decodeAt? offset = some (d, next)) :
    offset < next ∧ next ≤ c.code.length ∧ c.Holds offset next d := by
  obtain ⟨b, rest, hb, hrest, hlength, rfl, hnext⟩ := exists_decodeHead_eq h
  refine ⟨by omega, by omega, ?_⟩
  cases hread : ByteReader.operands (Opcode.ofByte b) rest with
  | none =>
    have hhead : decodeHead b rest = (.truncated (Opcode.ofByte b), []) := by rw [decodeHead, hread]
    rw [hhead] at hnext ⊢
    exact .truncated hb (hrest ▸ hread) (by simpa [hlength] using hnext)
  | some found =>
    obtain ⟨i, after⟩ := found
    obtain ⟨used, hused, hreads⟩ := ByteReader.isLocal_operands _ hread
    cases i with
    | none =>
      obtain ⟨hop, rfl⟩ := ByteReader.eq_invalid_of_operands hread
      have hhead : decodeHead b after = (.unknown b, after) := by rw [decodeHead, hread]
      rw [hhead] at hnext ⊢
      exact .unknown hb hop (by simpa using hnext)
    | some i =>
      have hhead : decodeHead b rest = (.instruction i, after) := by rw [decodeHead, hread]
      have hnext : next = offset + 1 + used.length := by
        rw [hnext, hhead, hused, List.length_append, Nat.add_sub_cancel]
      rw [hhead]
      refine .instruction hb ?_ fun n hn => ?_
      · rwa [hrest, hnext, Nat.add_sub_cancel_left, hused, List.take_left]
      · have htakes := ByteReader.takes_operands hn hread
        rw [hused, List.length_append] at htakes
        omega

/-- The offsets of steps go up to where the last one leads. -/
theorem Walk.offsets (h : c.Walk offset visited last) :
    (visited.map (·.1) ++ [last]).head? = some offset ∧ (visited.map (·.1) ++ [last]).Pairwise (· < ·) ∧
      ∀ o ∈ visited.map (·.1) ++ [last], offset ≤ o := by
  induction h with
  | stop => exact ⟨rfl, List.pairwise_singleton .., by simp⟩
  | step hstep _ ih =>
    obtain ⟨hlt, -, -⟩ := holds_of_decodeAt? hstep
    obtain ⟨-, hpairwise, hle⟩ := ih
    refine ⟨rfl, List.pairwise_cons.2 ⟨fun o ho => Nat.lt_of_lt_of_le hlt (hle o ho), hpairwise⟩, ?_⟩
    exact List.forall_mem_cons.2 ⟨Nat.le_refl _, fun o ho => Nat.le_trans (Nat.le_of_lt hlt) (hle o ho)⟩

theorem exists_decodeAt? (h : offset < c.code.length) : ∃ d next, c.decodeAt? offset = some (d, next) := by
  cases hdrop : c.code.drop offset with
  | nil => exact absurd (List.drop_eq_nil_iff.1 hdrop) (Nat.not_le.2 h)
  | cons b rest => exact ⟨_, _, by rw [decodeAt?, hdrop]⟩

/-- Any bytes are listed from the first to the last: the offsets of the listing begin at zero and go up to the end of the
code, and from any offset in the code a step leads to a later one that is not past its end. What the step finds is read from
the bytes between the two alone, as many as the opcode says if it says so, unless the operands cannot be read. -/
theorem decodeFrom_tiles (c : Chunk) :
    let visited := decodeFrom 0 c.code
    c.Walk 0 visited c.code.length ∧
    (visited.map (·.1) ++ [c.code.length]).head? = some 0 ∧ (visited.map (·.1) ++ [c.code.length]).Pairwise (· < ·) ∧
    ∀ offset < c.code.length, ∃ d next, c.decodeAt? offset = some (d, next) ∧
      offset < next ∧ next ≤ c.code.length ∧ c.Holds offset next d := by
  intro visited
  have hwalk : c.Walk 0 visited c.code.length := c.walk_decodeFrom (Nat.zero_le _)
  obtain ⟨hhead, hpairwise, -⟩ := hwalk.offsets
  refine ⟨hwalk, hhead, hpairwise, fun offset hoffset => ?_⟩
  obtain ⟨d, next, hstep⟩ := exists_decodeAt? hoffset
  exact ⟨d, next, hstep, holds_of_decodeAt? hstep⟩

/-- Here a byte begins no instruction, then comes a jump, and then a text that is said to be longer than the code: the
jump ends where its place does, and the listing goes from the text to the end of the code. -/
theorem decodeFrom_tiles_of_long_text :
    let c : Chunk := { code := [7, 0x40, 1, 2, 0, 0, 0, 0x11, 1, 0, 0, 0, 0, 200, 0, 0, 0, 65] }
    c.Walk 0 (decodeFrom 0 c.code) 18 ∧
    (1 < c.code.length ∧ ∃ next, 1 < next ∧ next ≤ 18 ∧ c.Holds 1 next (.instruction (.jump .always (.static 2)))) ∧
    (7 < c.code.length ∧ ∃ next, 7 < next ∧ next ≤ 18 ∧ c.Holds 7 next (.truncated .loadString)) := by
  intro c
  obtain ⟨hwalk, -, -, hstep⟩ := decodeFrom_tiles c
  have hjump : c.decodeAt? 1 = some (.instruction (.jump .always (.static 2)), 7) := by decide
  have htext : c.decodeAt? 7 = some (.truncated .loadString, 18) := by decide
  refine ⟨hwalk, ⟨by decide, ?_⟩, ⟨by decide, ?_⟩⟩
  · obtain ⟨d, next, hd, hlt, hle, hholds⟩ := hstep 1 (by decide)
    cases hjump.symm.trans hd
    exact ⟨7, hlt, hle, hholds⟩
  · obtain ⟨d, next, hd, hlt, hle, hholds⟩ := hstep 7 (by decide)
    cases htext.symm.trans hd
    exact ⟨18, hlt, hle, hholds⟩

end Chunk

end Assembler
