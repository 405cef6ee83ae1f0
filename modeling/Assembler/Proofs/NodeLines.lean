import Mathlib.Data.List.Nodup
import Assembler.Proofs.LineTables
import Assembler.Proofs.Stepping
import Assembler.Proofs.WriteOnce
/-!
# The lines of instructions

Operands are built in the midst of other nodes, and hoisted statements before those above them, so the lines of code
follow no order. Each instruction still has the line of its own node: `Emission.Adds` says what an emission adds as it
goes on, the instructions with their nodes and the nodes that it began, and every step adds in this way. The line of a
node that was begun last is left for the halt. What is written of it has one line for each byte:
`Source.assemble_lines`.
-/

namespace Assembler

/-! ## Line tables -/

namespace Chunk

/-- What is written to a chunk at a time. -/
inductive Piece
  | opcode (op : Opcode)
  | byte (b : UInt8)
  | uint32 (n : UInt32)
  | int64 (n : Int64)
  | text (s : String)
  | place (p : Place)

/-- Writes a piece that comes from a source line. -/
def writePiece (c : Chunk) (line : Nat) : Piece → Chunk
  | .opcode op => c.writeOpcode op line
  | .byte b => c.writeByte b line
  | .uint32 n => c.writeUInt32 n line
  | .int64 n => c.writeInt64 n line
  | .text s => c.writeText s line
  | .place p => c.writePlace p line

/-- Writes pieces, each with its source line. -/
def writePieces (c : Chunk) (pieces : List (Piece × Nat)) : Chunk :=
  pieces.foldl (fun c (piece, line) => c.writePiece line piece) c

variable {tracksLines : Bool} {c : Chunk}

/-- Every piece comes with its lines. -/
theorem IsLined.writePiece (h : c.IsLined tracksLines) (line : Nat) (piece : Piece) :
    (c.writePiece line piece).IsLined tracksLines := by
  cases piece <;> exact h.append _ line

theorem IsLined.writePieces (h : c.IsLined tracksLines) (pieces : List (Piece × Nat)) :
    (c.writePieces pieces).IsLined tracksLines := by
  induction pieces generalizing c with
  | nil => exact h
  | cons piece pieces ih => exact ih (h.writePiece piece.2 piece.1)

/-- The pieces that an instruction is written in. -/
def pieces : Instruction → List Piece
  | .loadInt place value => [.opcode .loadInt, .place place, .int64 value]
  | .loadString place value => [.opcode .loadString, .place place, .text value]
  | .label place => [.opcode .label, .place place]
  | .directive name arguments body =>
    [.opcode .directive, .text name, .byte (.ofNat arguments.length)] ++ arguments.map .place ++ [.text body]
  | .jump condition target => [.opcode (.jump condition), .place target]
  | .compare left right => [.opcode .compare, .place left, .place right]
  | .halt => [.opcode .halt]

theorem write_eq_writePieces (c : Chunk) (line : Nat) (i : Instruction) :
    c.write line i = c.writePieces ((pieces i).map (·, line)) := by
  cases i with
  | directive name arguments body =>
    simp only [writePieces, pieces, List.map_append, List.foldl_append, List.foldl_map]
    rfl
  | _ => rfl

/-- Instructions that are added whole are added piece by piece, each piece with the line of its instruction. -/
theorem writeAll_eq_writePieces (c : Chunk) (is : List (Instruction × Nat)) :
    c.writeAll is = c.writePieces (is.flatMap fun i => (pieces i.1).map (·, i.2)) := by
  induction is generalizing c with
  | nil => rfl
  | cons i is ih =>
    have hcons : c.writeAll (i :: is) = (c.writeInstruction i.1 i.2).writeAll is := rfl
    rw [hcons, ih, ← write_eq, write_eq_writePieces, writePieces, writePieces, writePieces, List.flatMap_cons,
      List.foldl_append]

/-- The bytes of an instruction have the line that it was written with. -/
theorem lines_writeAll (h : c.tracksLines = true) (is : List (Instruction × Nat)) :
    (c.writeAll is).lines = c.lines ++ is.flatMap fun i => List.replicate i.1.encode.length i.2 := by
  induction is generalizing c with
  | nil => exact (List.append_nil _).symm
  | cons i is ih =>
    have hlines : (c.writeInstruction i.1 i.2).lines = c.lines ++ List.replicate i.1.encode.length i.2 := if_pos h
    have hcons : c.writeAll (i :: is) = (c.writeInstruction i.1 i.2).writeAll is := rfl
    rw [hcons, ih (c := c.writeInstruction i.1 i.2) h, hlines, List.flatMap_cons, List.append_assoc]

end Chunk

/-! ## Instructions of nodes -/

/-- Directives, jumps and comparisons: these are made where they stand and have no place. -/
def Node.Kind.isCommand : Kind → Bool
  | directive .. | jump .. | compare .. => true
  | _ => false

/-- The instruction of a node of some kind, given the places of nodes: a literal or a label defines its own place. Names,
slots and declarations have none. -/
def Node.Kind.instruction? (place? : NodeId → Option Place) (id : NodeId) : Kind → Option Instruction
  | directive name arguments body => (arguments.mapM place?).map (.directive name · body)
  | label _ => (place? id).map .label
  | integer value => (place? id).map (.loadInt · value)
  | string value => (place? id).map (.loadString · value)
  | jump condition target => (place? target).map (.jump condition)
  | compare left right => return .compare (← place? left) (← place? right)
  | _ => none

namespace Program

variable {p q : Program} {id : NodeId}

def isCommand (p : Program) (id : NodeId) : Bool := (p.kind? id).any (·.isCommand)

/-- The source line of a node. -/
def sourceLine (p : Program) (id : NodeId) : Nat := (p.location id).line

/-- What is logged when the building of a node begins. -/
def buildEvent (p : Program) (id : NodeId) : Event :=
  ⟨.trace, .phase .compiler, "Building node", [("node", .plain (NodeId.text id)), ("source", .plain (p.text id))]⟩

def instruction? (p : Program) (id : NodeId) : Option Instruction := (p.kind? id).bind (·.instruction? p.place? id)

/-- The entry of the static area for a node. -/
def entry? (p : Program) (id : NodeId) : Option Static := (p.kind? id).bind Node.Kind.entry?

theorem isCommand_eq {k : Node.Kind} (hk : p.kind? id = some k) : p.isCommand id = k.isCommand := by
  rw [isCommand, hk, Option.any_some]

theorem instruction?_eq {k : Node.Kind} (hk : p.kind? id = some k) : p.instruction? id = k.instruction? p.place? id := by
  rw [instruction?, hk, Option.bind_some]

theorem entry?_eq {k : Node.Kind} (hk : p.kind? id = some k) : p.entry? id = k.entry? := by
  unfold entry?
  rw [hk, Option.bind_some]

/-- A command that has its instruction has a place for each of its operands. -/
theorem isSome_place?_of_instruction? (hid : p.isCommand id) {i : Instruction} (hi : p.instruction? id = some i) {c : NodeId}
    (hc : c ∈ p.children id) : (p.place? c).isSome := by
  obtain ⟨k, hk, hi⟩ := Option.bind_eq_some_iff.1 hi
  rw [children_of_kind? hk] at hc
  rw [isCommand_eq hk] at hid
  cases k with
  | directive name arguments body =>
    obtain ⟨places, hplaces, -⟩ := Option.map_eq_some_iff.1 hi
    exact isSome_of_mem_mapM (Option.isSome_of_eq_some hplaces) hc
  | jump condition target =>
    obtain ⟨place, hplace, -⟩ := Option.map_eq_some_iff.1 hi
    obtain rfl := List.mem_singleton.1 hc
    exact Option.isSome_of_eq_some hplace
  | compare left right =>
    obtain ⟨place, hleft, hi⟩ := Option.bind_eq_some_iff.1 hi
    obtain ⟨place', hright, -⟩ := Option.bind_eq_some_iff.1 hi
    rcases List.mem_cons.1 hc with rfl | hc
    · exact Option.isSome_of_eq_some hleft
    · obtain rfl := List.mem_singleton.1 hc
      exact Option.isSome_of_eq_some hright
  | _ => cases hid

/-- A node keeps its instruction while places are kept. -/
theorem instruction?_of_place (h : q.unplaced = p.unplaced)
    (hplace : ∀ id place, p.place? id = some place → q.place? id = some place) {i : Instruction}
    (hi : p.instruction? id = some i) : q.instruction? id = some i := by
  obtain ⟨k, hk, hi⟩ := Option.bind_eq_some_iff.1 hi
  rw [instruction?_eq ((kind?_eq_of_unplaced h id).trans hk)]
  cases k with
  | directive name arguments body =>
    obtain ⟨places, hplaces, hi⟩ := Option.map_eq_some_iff.1 hi
    have hkept : arguments.mapM q.place? = some places := by
      rw [mapM_eq_some_iff] at hplaces ⊢
      exact hplaces.imp hplace
    exact Option.map_eq_some_iff.2 ⟨places, hkept, hi⟩
  | label | integer | string | jump =>
    obtain ⟨place, hp, hi⟩ := Option.map_eq_some_iff.1 hi
    exact Option.map_eq_some_iff.2 ⟨place, hplace _ _ hp, hi⟩
  | compare left right =>
    obtain ⟨place, hp, hi⟩ := Option.bind_eq_some_iff.1 hi
    obtain ⟨place', hp', hi⟩ := Option.bind_eq_some_iff.1 hi
    exact Option.bind_eq_some_iff.2 ⟨place, hplace _ _ hp, Option.bind_eq_some_iff.2 ⟨place', hplace _ _ hp', hi⟩⟩
  | labelDecl | identifier | slot => exact hi

/-! ### Places change nothing else of a program -/

theorem size_of_unplaced (h : q.unplaced = p.unplaced) : q.size = p.size := by
  simpa [unplaced, size] using congrArg size h

theorem place?_setPlace_of_some (hnone : p.place? id = none) (place : Place) {i : NodeId} {place' : Place}
    (h : p.place? i = some place') : (p.setPlace id place).place? i = some place' := by
  have hne : id ≠ i := by
    rintro rfl
    rw [hnone] at h
    cases h
  rw [place?_setPlace_of_ne _ _ hne, h]

theorem sourceLine_of_unplaced (h : q.unplaced = p.unplaced) (id : NodeId) : q.sourceLine id = p.sourceLine id := by
  have hline (r : Program) : r.unplaced.sourceLine id = r.sourceLine id := by
    simp [sourceLine, location, node?_unplaced, Function.comp_def]
  rw [← hline q, h, hline]

theorem buildEvent_of_unplaced (h : q.unplaced = p.unplaced) : q.buildEvent = p.buildEvent := by
  have hwithin (depth : Nat) : q.textWithin depth = p.textWithin depth := by
    induction depth with
    | zero => rfl
    | succ depth ih =>
      funext id
      rw [textWithin, textWithin, ih, kind?_eq_of_unplaced h]
  funext id
  rw [buildEvent, buildEvent, text, text, size_of_unplaced h, hwithin]

end Program

namespace Emission

/-! ## What emission adds -/

/-- An emission of the nodes of a program, where no command has a place. -/
structure IsOf (p : Program) (e : Emission) : Prop where
  unplaced : e.program.unplaced = p.unplaced
  command : ∀ id, p.isCommand id → e.program.place? id = none

/-- A later emission has more instructions, each at the line of its own node, and began more nodes. -/
structure Adds (p : Program) (rows : List (NodeId × Instruction)) (begun : List NodeId) (e e' : Emission) : Prop
    extends IsOf p e' where
  place : ∀ id place, e.program.place? id = some place → e'.program.place? id = some place
  made : ∀ row ∈ rows, e'.program.instruction? row.1 = some row.2
  /-- The building of a node is told before its instruction is made. -/
  told : ∀ row ∈ rows, p.buildEvent row.1 ∈ e'.log.toList
  code : e'.code.toList = e.code.toList ++ rows.map fun row => (row.2, p.sourceLine row.1)
  /-- A node that is no command is made into an instruction just when it gets its place. -/
  once : ∀ id, p.isCommand id = false →
    (rows.map (·.1)).count id + (e.program.place? id).isSome.toNat ≤ (e'.program.place? id).isSome.toNat
  /-- A literal or a label gets its place as it is made into its instruction. -/
  entered : ∀ id entry, p.entry? id = some entry → e.program.place? id = none → (e'.program.place? id).isSome →
    id ∈ rows.map (·.1)
  line : e'.line = (begun.getLast?.map p.sourceLine).getD e.line
  log : e'.log.toList = e.log.toList ++ begun.map p.buildEvent

section Adds

variable {p : Program} {rows rows' : List (NodeId × Instruction)} {begun begun' : List NodeId} {e e' e'' : Emission}
  {id : NodeId}

theorem toNat_isSome_le {α : Type} {a b : Option α} (h : ∀ x, a = some x → b = some x) :
    a.isSome.toNat ≤ b.isSome.toNat := by
  cases a with
  | none => exact Nat.zero_le _
  | some x => rw [h x rfl]

/-- A node that has no place did not get one. -/
theorem not_isSome_of_eq_none {p q : Program} (h : q.place? id = p.place? id) (hnone : p.place? id = none) :
    ¬ (q.place? id).isSome := by
  rw [h, hnone]
  exact Bool.false_ne_true

theorem IsOf.kind?_eq (h : IsOf p e) (id : NodeId) : e.program.kind? id = p.kind? id :=
  Program.kind?_eq_of_unplaced h.unplaced id

theorem IsOf.isCommand_eq_false (h : IsOf p e) {place : Place} (hplace : e.program.place? id = some place) :
    p.isCommand id = false := by
  refine Bool.eq_false_iff.2 fun hid => ?_
  rw [h.command id hid] at hplace
  cases hplace

theorem IsOf.setPlace (h : IsOf p e) (hid : p.isCommand id = false) {place : Place}
    (he' : e'.program = e.program.setPlace id place) : IsOf p e' where
  unplaced := by rw [he', Program.unplaced_setPlace, h.unplaced]
  command i hi := by
    have hne : id ≠ i := by
      rintro rfl
      rw [hid] at hi
      cases hi
    rw [he', Program.place?_setPlace_of_ne _ _ hne, h.command i hi]

namespace Adds

theorem refl (h : IsOf p e) : Adds p [] [] e e :=
  { h with
    place := fun _ _ hplace => hplace
    made := by simp
    told := by simp
    code := by simp
    once := by simp
    entered := fun _ _ _ hnone hsome => absurd hsome (not_isSome_of_eq_none rfl hnone)
    line := rfl
    log := by simp }

theorem trans (h : Adds p rows begun e e') (h' : Adds p rows' begun' e' e'') :
    Adds p (rows ++ rows') (begun ++ begun') e e'' where
  unplaced := h'.unplaced
  command := h'.command
  place id place hplace := h'.place id place (h.place id place hplace)
  made row hrow := by
    rcases List.mem_append.1 hrow with hrow | hrow
    · exact Program.instruction?_of_place (h'.unplaced.trans h.unplaced.symm) h'.place (h.made row hrow)
    · exact h'.made row hrow
  told row hrow := by
    rcases List.mem_append.1 hrow with hrow | hrow
    · rw [h'.log]
      exact List.mem_append_left _ (h.told row hrow)
    · exact h'.told row hrow
  code := by rw [h'.code, h.code, List.append_assoc, List.map_append]
  once id hid := by
    have hfirst := h.once id hid
    have hsecond := h'.once id hid
    rw [List.map_append, List.count_append]
    omega
  entered id entry hentry hnone hsome := by
    rw [List.map_append]
    cases hbetween : (e'.program.place? id).isSome with
    | true => exact List.mem_append_left _ (h.entered id entry hentry hnone hbetween)
    | false => exact List.mem_append_right _ (h'.entered id entry hentry (Option.isNone_iff_eq_none.1 (by simpa using hbetween)) hsome)
  line := by
    rw [h'.line, h.line, List.getLast?_append]
    cases begun'.getLast? <;> rfl
  log := by rw [h'.log, h.log, List.append_assoc, List.map_append]

/-- A node is begun. -/
theorem begin (h : IsOf p e) (id : NodeId) : Adds p [] [id] e (e.begin id) :=
  { unplaced := h.unplaced
    command := h.command
    place := fun _ _ hplace => hplace
    made := by simp
    told := by simp
    code := by simp [Emission.begin]
    once := by simp [Emission.begin]
    entered := fun _ _ _ hnone hsome => absurd hsome (not_isSome_of_eq_none rfl hnone)
    line := Program.sourceLine_of_unplaced h.unplaced id
    log := by
      rw [← Program.buildEvent_of_unplaced h.unplaced]
      exact Array.toList_push }

/-- A command is made when its operands have their places. -/
theorem command_emit (h : IsOf p e) (hid : p.isCommand id) (htold : p.buildEvent id ∈ e.log.toList) {i : Instruction}
    (hi : e.program.instruction? id = some i) {line : Nat} (hline : line = p.sourceLine id) :
    Adds p [(id, i)] [] e { e with code := e.code.push (i, line) } :=
  { unplaced := h.unplaced
    command := h.command
    place := fun _ _ hplace => hplace
    made := List.forall_mem_singleton.2 hi
    told := List.forall_mem_singleton.2 htold
    code := by simp [hline]
    once := fun id' hid' => by
      have hne : id ≠ id' := by
        rintro rfl
        simp [hid] at hid'
      simp [hne]
    entered := fun _ _ _ hnone hsome => absurd hsome (not_isSome_of_eq_none rfl hnone)
    line := rfl
    log := by simp }

/-- A node that is no command and has no entry gets a place, and no instruction. -/
theorem setPlace (h : IsOf p e) (hid : p.isCommand id = false) (hentry : p.entry? id = none)
    (hnone : e.program.place? id = none) (place : Place) :
    Adds p [] [] e { e with program := e.program.setPlace id place } :=
  { h.setPlace hid rfl with
    place := fun _ _ hplace => Program.place?_setPlace_of_some hnone place hplace
    made := by simp
    told := by simp
    code := by simp
    once := fun i _ => by simpa using toNat_isSome_le fun _ => Program.place?_setPlace_of_some hnone place
    entered := fun i entry hi hnone' hsome => by
      have hne : id ≠ i := by
        rintro rfl
        rw [hentry] at hi
        cases hi
      exact absurd hsome (not_isSome_of_eq_none (Program.place?_setPlace_of_ne _ _ hne) hnone')
    line := rfl
    log := by simp }

/-- A literal or a label gets its place, and is made into its instruction. -/
theorem defined (h : IsOf p e) (hid : p.isCommand id = false) (htold : p.buildEvent id ∈ e.log.toList)
    (hnone : e.program.place? id = none) (entry : Static) {define : Place → Instruction} {line : Nat}
    (hline : line = p.sourceLine id)
    (hplace : ((e.defined id entry define line).program.place? id).isSome)
    (hi : (e.defined id entry define line).program.instruction? id = some (define (.static (.ofNat e.shared.statics.size)))) :
    Adds p [(id, define (.static (.ofNat e.shared.statics.size)))] [] e (e.defined id entry define line) :=
  { h.setPlace hid rfl with
    place := fun _ _ hsome => Program.place?_setPlace_of_some hnone _ hsome
    made := List.forall_mem_singleton.2 hi
    told := List.forall_mem_singleton.2 htold
    code := by simp [Emission.defined, hline]
    once := fun i _ => by
      by_cases he : id = i
      · subst he
        simp [hnone, hplace]
      · have hle : (e.program.place? i).isSome.toNat ≤ ((e.defined id entry define line).program.place? i).isSome.toNat :=
          toNat_isSome_le fun _ => Program.place?_setPlace_of_some hnone _
        simpa [he] using hle
    entered := fun i _ _ hnone' hsome => by
      by_cases he : id = i
      · exact he ▸ List.mem_cons_self
      · exact absurd hsome (not_isSome_of_eq_none (Program.place?_setPlace_of_ne _ _ he) hnone')
    line := rfl
    log := by simp [Emission.defined] }

end Adds

end Adds

/-! ## Steps that succeed -/

section Runs

variable {α β : Type} {m : Emit α} {f : α → Emit β} {a : α} {b : β} {code : List Instruction} {e e' e'' : Emission}

theorem exists_of_run_bind (h : (m >>= f).run e = .ok b e'') : ∃ a e', m.run e = .ok a e' ∧ (f a).run e' = .ok b e'' := by
  cases hrun : m.run e with
  | ok a e' =>
    have hm : m e = .ok a e' := hrun
    refine ⟨a, e', rfl, ?_⟩
    simpa only [EStateM.run, Bind.bind, EStateM.bind, hm] using h
  | error error e' =>
    have hm : m e = .error error e' := hrun
    simp only [EStateM.run, Bind.bind, EStateM.bind, hm] at h
    cases h

/-- What the first step of two makes is known. -/
theorem run_of_run_bind (hm : Makes m e a code e') (h : (m >>= f).run e = .ok b e'') : (f a).run e' = .ok b e'' := by
  obtain ⟨a', e₁, hrun, h⟩ := exists_of_run_bind h
  cases hm.run.symm.trans hrun
  exact h

theorem eq_of_run (hm : Makes m e a code e') {a' : α} (h : m.run e = .ok a' e'') : a' = a ∧ e'' = e' := by
  cases hm.run.symm.trans h
  exact ⟨rfl, rfl⟩

theorem exists_of_run_discard {u : PUnit} (h : (Functor.discard m).run e = .ok u e') : ∃ a, m.run e = .ok a e' := by
  cases hrun : m.run e with
  | ok a e₁ =>
    have hm : m e = .ok a e₁ := hrun
    simp only [EStateM.run, Functor.discard, Functor.mapConst, Function.comp, EStateM.map, hm] at h
    cases h
    exact ⟨a, rfl⟩
  | error error e₁ =>
    have hm : m e = .error error e₁ := hrun
    simp only [EStateM.run, Functor.discard, Functor.mapConst, Function.comp, EStateM.map, hm] at h
    cases h

/-- A place is only given to a node that has none. -/
theorem eq_of_run_assign {id : NodeId} {place : Place} (h : (assign id place).run e = .ok () e') :
    e.program.place? id = none ∧ e' = { e with program := e.program.setPlace id place } := by
  cases hnone : e.program.place? id with
  | none => exact ⟨rfl, (eq_of_run (makes_assign place hnone) h).2⟩
  | some place' =>
    have hthrow := run_of_run_bind (makes_place? id e) h
    rw [hnone] at hthrow
    cases hthrow

end Runs

/-! ## Building -/

/-- An emission goes on, and the commands that it makes on the way are known. -/
def Grows (p : Program) (commands : List NodeId) (e e' : Emission) : Prop :=
  ∃ rows begun, Adds p rows begun e e' ∧ (rows.map (·.1)).filter p.isCommand = commands

section Build

variable {p : Program} {commands commands' : List NodeId} {e e' e'' : Emission} {id : NodeId}

namespace Grows

theorem refl (h : IsOf p e) : Grows p [] e e := ⟨[], [], .refl h, rfl⟩

theorem trans (h : Grows p commands e e') (h' : Grows p commands' e' e'') : Grows p (commands ++ commands') e e'' := by
  obtain ⟨rows, begun, hadds, hcommands⟩ := h
  obtain ⟨rows', begun', hadds', hcommands'⟩ := h'
  exact ⟨_, _, hadds.trans hadds', by rw [List.map_append, List.filter_append, hcommands, hcommands']⟩

theorem isOf (h : Grows p commands e e') : IsOf p e' := by
  obtain ⟨rows, begun, hadds, -⟩ := h
  exact hadds.toIsOf

theorem place (h : Grows p commands e e') {id : NodeId} {place : Place} (hplace : e.program.place? id = some place) :
    e'.program.place? id = some place := by
  obtain ⟨rows, begun, hadds, -⟩ := h
  exact hadds.place id place hplace

theorem mem_log (h : Grows p commands e e') {event : Event} (hevent : event ∈ e.log.toList) : event ∈ e'.log.toList := by
  obtain ⟨rows, begun, hadds, -⟩ := h
  rw [hadds.log]
  exact List.mem_append_left _ hevent

theorem begin (h : IsOf p e) (id : NodeId) : Grows p [] e (e.begin id) := ⟨[], [id], .begin h id, rfl⟩

/-- A command comes after what is made for its operands. -/
theorem command (h : Grows p [] e e') (hid : p.isCommand id) (htold : p.buildEvent id ∈ e.log.toList) {i : Instruction}
    (hi : e'.program.instruction? id = some i) {line : Nat} (hline : line = p.sourceLine id) :
    Grows p ([id].filter p.isCommand) e { e' with code := e'.code.push (i, line) } :=
  h.trans ⟨[(id, i)], [], .command_emit h.isOf hid (h.mem_log htold) hi hline, rfl⟩

end Grows

/-- A way to find the places of nodes, which makes no command. -/
def Locates (p : Program) (locate : NodeId → Emit Place) : Prop :=
  ∀ id e place e', IsOf p e → (locate id).run e = .ok place e' → Grows p [] e e' ∧ e'.program.place? id = some place

section Nodes

variable {locate : NodeId → Emit Place}

/-- The places of nodes are found one after the other. -/
theorem grows_mapM {ids : List NodeId} (hlocate : Locates p locate) (h : IsOf p e) {places : List Place}
    (hrun : (ids.mapM locate).run e = .ok places e') :
    Grows p [] e e' ∧ ids.mapM e'.program.place? = some places := by
  induction ids generalizing e places with
  | nil =>
    cases hrun
    exact ⟨.refl h, rfl⟩
  | cons id ids ih =>
    rw [List.mapM_cons] at hrun
    obtain ⟨place, e₁, hfirst, hrun⟩ := exists_of_run_bind hrun
    obtain ⟨places', e₂, hrest, hrun⟩ := exists_of_run_bind hrun
    cases hrun
    obtain ⟨hgrows, hplace⟩ := hlocate id e place e₁ h hfirst
    obtain ⟨hgrows', hplaces⟩ := ih hgrows.isOf hrest
    exact ⟨hgrows.trans hgrows', mapM_cons_eq_some.2 ⟨place, hgrows'.place hplace, places', hplaces, rfl⟩⟩

theorem place?_defined {k : Node.Kind} (hk : e.program.kind? id = some k) (entry : Static) (define : Place → Instruction)
    (line : Nat) : (e.defined id entry define line).program.place? id = some (.static (.ofNat e.shared.statics.size)) := by
  rw [Emission.defined, Program.place?_setPlace _ _ _ _ (Program.lt_of_kind? hk), if_pos rfl]

/-- A literal or a label gets the next slot of the static area, and has its own line. -/
theorem grows_define {k : Node.Kind} (hk : p.kind? id = some k) (hcommand : k.isCommand = false) (h : IsOf p e)
    (htold : p.buildEvent id ∈ e.log.toList) (hnone : e.program.place? id = none) {entry : Static}
    {define : Place → Instruction}
    (hdefine : ∀ place? : NodeId → Option Place, k.instruction? place? id = (place? id).map define) {line : Nat}
    (hline : line = p.sourceLine id)
    (hrun : (do let place ← allocate entry; assign id place; emit (define place) line).run e = .ok () e') :
    Grows p [] e e' := by
  obtain ⟨-, rfl⟩ := eq_of_run (makes_define entry define line hnone) hrun
  have hcommand : p.isCommand id = false := (Program.isCommand_eq hk).trans hcommand
  have hkind : e.program.kind? id = some k := (h.kind?_eq id).trans hk
  have hplace := place?_defined hkind entry define line
  have hkind' : (e.defined id entry define line).program.kind? id = some k := (Program.kind?_setPlace ..).trans hkind
  have hi := Program.instruction?_eq hkind'
  rw [hdefine, hplace, Option.map_some] at hi
  refine ⟨_, [], .defined h hcommand htold hnone entry hline (Option.isSome_of_eq_some hplace) hi, ?_⟩
  rw [List.map_singleton, List.filter_singleton, hcommand]
  rfl

/-- A command has its own line, whatever was made for its operands; any other node makes no command. -/
theorem grows_buildKind {k : Node.Kind} (hk : p.kind? id = some k) (hlocate : Locates p locate) (h : IsOf p e)
    (htold : p.buildEvent id ∈ e.log.toList) (hnone : e.program.place? id = none) {location : Location}
    (hline : location.line = p.sourceLine id) (hrun : (buildKind locate id location k).run e = .ok () e') :
    Grows p ([id].filter p.isCommand) e e' := by
  have hcommand : p.isCommand id = k.isCommand := Program.isCommand_eq hk
  have hinstruction {e : Emission} (he : IsOf p e) : e.program.instruction? id = k.instruction? e.program.place? id :=
    Program.instruction?_eq ((he.kind?_eq id).trans hk)
  cases k with
  | directive name arguments body =>
    rw [buildKind] at hrun
    split at hrun
    · cases hrun
    · obtain ⟨places, e₁, hplaces, hrun⟩ := exists_of_run_bind hrun
      obtain ⟨-, rfl⟩ := eq_of_run (makes_emit ..) hrun
      obtain ⟨hgrows, hplaces⟩ := grows_mapM hlocate h hplaces
      refine hgrows.command hcommand htold ?_ hline
      rw [hinstruction hgrows.isOf]
      exact Option.map_eq_some_iff.2 ⟨places, hplaces, rfl⟩
  | jump condition target =>
    obtain ⟨place, e₁, htarget, hrun⟩ := exists_of_run_bind hrun
    obtain ⟨-, rfl⟩ := eq_of_run (makes_emit ..) hrun
    obtain ⟨hgrows, hplace⟩ := hlocate target e place e₁ h htarget
    refine hgrows.command hcommand htold ?_ hline
    rw [hinstruction hgrows.isOf]
    exact Option.map_eq_some_iff.2 ⟨place, hplace, rfl⟩
  | compare left right =>
    obtain ⟨place, e₁, hleft, hrun⟩ := exists_of_run_bind hrun
    obtain ⟨place', e₂, hright, hrun⟩ := exists_of_run_bind hrun
    obtain ⟨-, rfl⟩ := eq_of_run (makes_emit ..) hrun
    obtain ⟨hgrows, hplace⟩ := hlocate left e place e₁ h hleft
    obtain ⟨hgrows', hplace'⟩ := hlocate right e₁ place' e₂ hgrows.isOf hright
    refine (hgrows.trans hgrows').command hcommand htold ?_ hline
    rw [hinstruction hgrows'.isOf]
    exact Option.bind_eq_some_iff.2 ⟨place, hgrows'.place hplace, Option.bind_eq_some_iff.2 ⟨place', hplace', rfl⟩⟩
  | labelDecl name label =>
    obtain ⟨place, hlabel⟩ := exists_of_run_discard hrun
    rw [List.filter_singleton, hcommand]
    exact (hlocate label e place e' h hlabel).1
  | identifier name binding =>
    cases binding with
    | none => cases hrun
    | some target =>
      obtain ⟨place, e₁, htarget, hrun⟩ := exists_of_run_bind hrun
      obtain ⟨hnone₁, rfl⟩ := eq_of_run_assign hrun
      obtain ⟨hgrows, -⟩ := hlocate target e place e₁ h htarget
      rw [List.filter_singleton, hcommand]
      exact hgrows.trans ⟨[], [], .setPlace hgrows.isOf hcommand (Program.entry?_eq hk) hnone₁ place, rfl⟩
  | slot store index =>
    obtain ⟨-, rfl⟩ := eq_of_run_assign hrun
    rw [List.filter_singleton, hcommand]
    exact ⟨[], [], .setPlace h hcommand (Program.entry?_eq hk) hnone _, rfl⟩
  | label | integer | string =>
    rw [List.filter_singleton, hcommand]
    exact grows_define hk rfl h htold hnone (fun _ => rfl) hline hrun

theorem grows_build (hlocate : Locates p locate) (h : IsOf p e) (hnone : e.program.place? id = none)
    (hrun : (build locate id).run e = .ok () e') : Grows p ([id].filter p.isCommand) e e' := by
  have hbegin : Grows p [] e (e.begin id) := .begin h id
  have hrun := run_of_run_bind (makes_start id e) hrun
  have hrun := run_of_run_bind (makes_get (e.begin id)) hrun
  simp only [hbegin.isOf.kind?_eq] at hrun
  cases hk : p.kind? id with
  | none =>
    rw [hk] at hrun
    cases hrun
    rw [List.filter_singleton, Program.isCommand, hk]
    exact hbegin
  | some k =>
    rw [hk] at hrun
    have hline : (e.program.location id).line = p.sourceLine id := Program.sourceLine_of_unplaced h.unplaced id
    have htold : p.buildEvent id ∈ (e.begin id).log.toList := by
      rw [← Program.buildEvent_of_unplaced h.unplaced]
      exact Array.mem_toList_iff.2 (Array.mem_push_self)
    exact hbegin.trans (grows_buildKind hk hlocate hbegin.isOf htold hnone hline hrun)

/-- A literal or a label has a place when it was built. -/
theorem isSome_place?_of_build (h : IsOf p e) {entry : Static} (hentry : p.entry? id = some entry)
    (hnone : e.program.place? id = none) (hrun : (build locate id).run e = .ok () e') : (e'.program.place? id).isSome := by
  obtain ⟨k, hk, hentry⟩ := Option.bind_eq_some_iff.1 hentry
  have hkind : (e.begin id).program.kind? id = some k := (h.kind?_eq id).trans hk
  have hrun := run_of_run_bind (makes_start id e) hrun
  have hrun := run_of_run_bind (makes_get (e.begin id)) hrun
  simp only [hkind] at hrun
  have hbegun : (e.begin id).program.place? id = none := hnone
  have hdefine {entry : Static} {define : Place → Instruction} {line : Nat}
      (hrun : (do let place ← allocate entry; assign id place; emit (define place) line).run (e.begin id) = .ok () e') :
      (e'.program.place? id).isSome := by
    obtain ⟨-, rfl⟩ := eq_of_run (makes_define entry define line hbegun) hrun
    exact Option.isSome_of_eq_some (place?_defined hkind entry define line)
  cases k with
  | label | integer | string => exact hdefine hrun
  | _ => cases hentry

end Nodes

/-- Whatever has to be built for the place of a node, no command is among it, as commands have no place. -/
theorem locates_locate (p : Program) (depth : Nat) : Locates p (locate depth) := by
  induction depth with
  | zero =>
    intro id e place e' h hrun
    cases hrun
  | succ depth ih =>
    intro id e place e' h hrun
    have hrun := run_of_run_bind (makes_place? id e) hrun
    cases hplace : e.program.place? id with
    | some place' =>
      rw [hplace] at hrun
      cases hrun
      exact ⟨.refl h, hplace⟩
    | none =>
      rw [hplace] at hrun
      obtain ⟨u, e₁, hbuild, hrun⟩ := exists_of_run_bind hrun
      have hgrows := grows_build ih h hplace hbuild
      have hrun := run_of_run_bind (makes_place? id e₁) hrun
      cases hplace₁ : e₁.program.place? id with
      | none =>
        rw [hplace₁] at hrun
        cases run_of_run_bind (makes_get e₁) hrun
      | some place' =>
        rw [hplace₁] at hrun
        cases hrun
        rw [List.filter_singleton, hgrows.isOf.isCommand_eq_false hplace₁] at hgrows
        exact ⟨hgrows, hplace₁⟩

theorem grows_statement {depth : Nat} (h : IsOf p e) (hrun : (statement depth id).run e = .ok () e') :
    Grows p ([id].filter p.isCommand) e e' := by
  have hrun := run_of_run_bind (makes_place? id e) hrun
  cases hplace : e.program.place? id with
  | none =>
    rw [hplace] at hrun
    exact grows_build (locates_locate p depth) h hplace hrun
  | some place =>
    rw [hplace] at hrun
    cases hrun
    rw [List.filter_singleton, h.isCommand_eq_false hplace]
    exact .refl h

theorem isSome_place?_of_statement {depth : Nat} (h : IsOf p e) {entry : Static} (hentry : p.entry? id = some entry)
    (hrun : (statement depth id).run e = .ok () e') : (e'.program.place? id).isSome := by
  have hrun := run_of_run_bind (makes_place? id e) hrun
  cases hplace : e.program.place? id with
  | none =>
    rw [hplace] at hrun
    exact isSome_place?_of_build h hentry hplace hrun
  | some place =>
    rw [hplace] at hrun
    cases hrun
    exact Option.isSome_of_eq_some hplace

theorem grows_forM {depth : Nat} {ids : List NodeId} (h : IsOf p e) (hrun : (ids.forM (statement depth)).run e = .ok () e') :
    Grows p (ids.filter p.isCommand) e e' := by
  induction ids generalizing e with
  | nil =>
    cases hrun
    exact .refl h
  | cons id ids ih =>
    obtain ⟨u, e₁, hfirst, hrest⟩ := exists_of_run_bind hrun
    have hgrows := grows_statement h hfirst
    have hsplit : (id :: ids).filter p.isCommand = [id].filter p.isCommand ++ ids.filter p.isCommand :=
      List.filter_append [id] ids
    rw [hsplit]
    exact hgrows.trans (ih hgrows.isOf hrest)

/-- A literal or a label that is a statement has a place when all statements were made. -/
theorem isSome_place?_of_forM {depth : Nat} {ids : List NodeId} (h : IsOf p e) (hid : id ∈ ids) {entry : Static}
    (hentry : p.entry? id = some entry) (hrun : (ids.forM (statement depth)).run e = .ok () e') :
    (e'.program.place? id).isSome := by
  induction ids generalizing e with
  | nil => cases hid
  | cons first ids ih =>
    obtain ⟨u, e₁, hfirst, hrest⟩ := exists_of_run_bind hrun
    have hgrows := grows_statement h hfirst
    rcases List.mem_cons.1 hid with rfl | hid
    · obtain ⟨place, hplace⟩ := Option.isSome_iff_exists.1 (isSome_place?_of_statement h hentry hfirst)
      exact Option.isSome_of_eq_some ((grows_forM hgrows.isOf hrest).place hplace)
    · exact ih hgrows.isOf hid hrest

/-- An emission that came to an end: the instructions but for the halt, each with the node that it was made for, and the
nodes that were begun. -/
structure Accounts (p : Program) (rows : List (NodeId × Instruction)) (begun : List NodeId) (e : Emission) : Prop where
  unplaced : e.program.unplaced = p.unplaced
  made : ∀ row ∈ rows, e.program.instruction? row.1 = some row.2
  told : ∀ row ∈ rows, p.buildEvent row.1 ∈ e.log.toList
  /-- No node is made twice. -/
  nodup : (rows.map (·.1)).Nodup
  commands : (rows.map (·.1)).filter p.isCommand = p.statements.filter p.isCommand
  log : e.log.toList = ⟨.debug, .phase .compiler, "Emitting bytecode", [("statements", .nat p.statements.length)]⟩ ::
    begun.map p.buildEvent

/-- A node that was made twice would be a statement twice, or would have got a place twice. -/
theorem Adds.nodup {rows : List (NodeId × Instruction)} {begun : List NodeId} (h : Adds p rows begun e e')
    (hcommands : (rows.map (·.1)).filter p.isCommand = p.statements.filter p.isCommand) (hp : p.Ready) :
    (rows.map (·.1)).Nodup := by
  refine List.nodup_iff_count_le_one.2 fun id => ?_
  by_cases hid : p.isCommand id = true
  · have hlabel : ¬ p.IsLabel id := by
      rintro ⟨name, hk⟩
      rw [Program.isCommand_eq hk] at hid
      cases hid
    have hstatements : p.statements.count id ≤ 1 :=
      Nat.le_trans ((p.sublist_parts p.statements).count_le id) (hp.once id hlabel)
    rwa [← List.count_filter hid, hcommands, List.count_filter hid]
  · have honce := h.once id (Bool.eq_false_iff.2 hid)
    have hle := Bool.toNat_le (e'.program.place? id).isSome
    omega

/-- A literal that is a statement or an operand of one is made into its instruction: it has a place by itself, or the
statement has its instruction. -/
theorem Adds.mem_of_part {rows : List (NodeId × Instruction)} {begun : List NodeId} (h : Adds p rows begun e e')
    (hcommands : (rows.map (·.1)).filter p.isCommand = p.statements.filter p.isCommand) (hp : p.Ready)
    (hnone : e.program.place? id = none)
    (hstatement : id ∈ p.statements → (e'.program.place? id).isSome) (hid : id ∈ p.parts p.statements)
    (hlabel : ¬ p.IsLabel id) {entry : Static} (hentry : p.entry? id = some entry) : id ∈ rows.map (·.1) := by
  refine h.entered id entry hentry hnone ?_
  obtain ⟨st, hst, rfl | hchild⟩ := Program.mem_parts.1 hid
  · exact hstatement hst
  · cases hcommand : p.isCommand st with
    | true =>
      have hmem : st ∈ (rows.map (·.1)).filter p.isCommand := hcommands ▸ List.mem_filter.2 ⟨hst, hcommand⟩
      obtain ⟨row, hrow, rfl⟩ := List.mem_map.1 (List.mem_filter.1 hmem).1
      have hcommand : e'.program.isCommand row.1 = true := by rwa [Program.isCommand, h.kind?_eq]
      refine Program.isSome_place?_of_instruction? hcommand (h.made row hrow) ?_
      rwa [Program.children, h.kind?_eq]
    | false =>
      -- Only a declaration has a part and is no command, and its part is a label.
      obtain ⟨k, hk, hchild⟩ := Program.mem_children.1 hchild
      rw [Program.isCommand_eq hk] at hcommand
      cases k with
      | labelDecl name label =>
        obtain rfl := List.mem_singleton.1 hchild
        exact absurd ⟨name, (hp.declares st name id hk).2⟩ hlabel
      | directive | jump | compare => cases hcommand
      | _ => cases hchild

/-- An emission of a ready program makes all commands in their order and the literals that they need, and its halt has the
line of the node begun last. -/
theorem exists_accounts_of_parts {shared : Shared} (hp : p.Ready) (hrun : (all []).run { program := p, shared } = .ok () e) :
    ∃ rows begun, Accounts p rows begun e ∧
      (e.code.toList =
        (rows.map fun row => (row.2, p.sourceLine row.1)) ++ [(.halt, (begun.getLast?.map p.sourceLine).getD 1)]) ∧
      ∀ id ∈ p.parts p.statements, ¬ p.IsLabel id → ∀ entry, p.entry? id = some entry → id ∈ rows.map (·.1) := by
  rw [all, if_neg (by decide)] at hrun
  have hrun := run_of_run_bind (makes_get _) hrun
  have hrun := run_of_run_bind (makes_tell _ _) hrun
  obtain ⟨u, e₁, hforM, hrun⟩ := exists_of_run_bind hrun
  have hrun := run_of_run_bind (makes_get e₁) hrun
  obtain ⟨-, rfl⟩ := eq_of_run (makes_emit ..) hrun
  obtain ⟨rows, begun, hadds, hcommands⟩ := grows_forM (p := p) ⟨rfl, fun id _ => hp.place id⟩ hforM
  refine ⟨rows, begun, ⟨hadds.unplaced, hadds.made, hadds.told, hadds.nodup hcommands hp, hcommands, hadds.log⟩, ?_, ?_⟩
  · rw [Array.toList_push, hadds.code, hadds.line]
    rfl
  · intro id hid hlabel entry hentry
    refine hadds.mem_of_part hcommands hp (hp.place id) (fun hst => ?_) hid hlabel hentry
    exact isSome_place?_of_forM ⟨rfl, fun id _ => hp.place id⟩ hst hentry hforM

theorem exists_accounts {shared : Shared} (hp : p.Ready) (hrun : (all []).run { program := p, shared } = .ok () e) :
    ∃ rows begun, Accounts p rows begun e ∧ e.code.toList =
      (rows.map fun row => (row.2, p.sourceLine row.1)) ++ [(.halt, (begun.getLast?.map p.sourceLine).getD 1)] := by
  obtain ⟨rows, begun, haccounts, hcode, -⟩ := exists_accounts_of_parts hp hrun
  exact ⟨rows, begun, haccounts, hcode⟩

end Build

end Emission

/-! ## Sources -/

namespace Source

variable (s : Source)

/-- What is assembled comes from an emission that makes the plain code of the resolved program. -/
theorem exists_makes_of_assemble {settings : Settings} {a : Assembly} (h : (s.assemble settings).1 = .ok a) :
    s.analyze.program.Ready ∧ ∃ ls e, Emission.Makes (Emission.all []) s.analyze.emission () (plainCode ls) e ∧
      a.chunk = e.chunk settings.compiler.emitDebugInfo ∧
      List.Forall₂ Instruction.Defines ((plainCode ls).filter (·.isDefinition)) a.statics.toList := by
  by_cases hnone : s.analyze.diagnostics = []
  · have hready := s.ready_analyze hnone
    have hstatics : s.analyze.shared.statics = #[] := s.bound_parse.resolve.2.statics.trans s.sound_parse.statics
    obtain ⟨ls, hls⟩ := hready.exists_lines?
    obtain ⟨e, hmakes, -, hdefines⟩ := Emission.makes_all hready hstatics hls
    refine ⟨hready, ls, e, hmakes, ?_⟩
    obtain ⟨log, hassemble⟩ := s.exists_assemble_eq settings
    let w : Workspace := (s.analyze.behind [] log).sortDiagnostics
    have hd : w.diagnostics = [] := by
      change Diagnostics.sorted s.analyze.diagnostics = []
      rw [hnone]
      exact List.mergeSort_nil
    have hfatal : ¬ Diagnostics.hasFatal w.diagnostics = true := by
      rw [hd]
      decide
    have hrun : (Emission.all w.diagnostics).run { program := w.program, shared := w.shared } = .ok () e := by
      rw [hd]
      exact hmakes.run
    have hok := w.assemble_of_run hfatal hrun s.file settings
    rw [hassemble, hok] at h
    cases h
    exact ⟨rfl, hdefines⟩
  · rw [s.assemble_of_diagnostics settings hnone] at h
    cases h

theorem exists_run_of_assemble {settings : Settings} {a : Assembly} (h : (s.assemble settings).1 = .ok a) :
    s.analyze.program.Ready ∧ ∃ e, (Emission.all []).run s.analyze.emission = .ok () e ∧
      a.chunk = e.chunk settings.compiler.emitDebugInfo := by
  obtain ⟨hready, ls, e, hmakes, hchunk, -⟩ := s.exists_makes_of_assemble h
  exact ⟨hready, e, hmakes.run, hchunk⟩

/-- The code of a source is written piece by piece, each piece of an instruction with its line. -/
theorem exists_writePieces_of_assemble {settings : Settings} {a : Assembly} (h : (s.assemble settings).1 = .ok a) :
    ∃ e, (Emission.all []).run s.analyze.emission = .ok () e ∧
      a.chunk = ({ tracksLines := settings.compiler.emitDebugInfo } : Chunk).writePieces
        (e.code.toList.flatMap fun i => (Chunk.pieces i.1).map (·, i.2)) := by
  obtain ⟨-, e, hrun, hchunk⟩ := s.exists_run_of_assemble h
  exact ⟨e, hrun, hchunk.trans (Chunk.writeAll_eq_writePieces _ _)⟩

/-- Whatever is written to a chunk that keeps lines, it has a line for each byte. And where a source is assembled with
lines, the bytes of each instruction have the line of its own node: of the literal or the label, wherever it was needed
first, and otherwise of the statement. The halt has the line of the node whose building began last, or the first line if
no node was built. -/
theorem assemble_lines :
    (∀ pieces : List (Chunk.Piece × Nat), let c := ({} : Chunk).writePieces pieces; c.lines.length = c.code.length) ∧
    ∀ settings a, settings.compiler.emitDebugInfo = true → (s.assemble settings).1 = .ok a →
      let p := s.analyze.program
      ∃ e rows begun, (Emission.all []).run s.analyze.emission = .ok () e ∧ Emission.Accounts p rows begun e ∧
        a.chunk.code = rows.flatMap (·.2.encode) ++ Instruction.halt.encode ∧
        a.chunk.lines = rows.flatMap (fun row => List.replicate row.2.encode.length (p.sourceLine row.1)) ++
          [(begun.getLast?.map p.sourceLine).getD 1] := by
  refine ⟨fun pieces => ((Chunk.isLined_empty true).writePieces pieces).length rfl, fun settings a htracks h => ?_⟩
  obtain ⟨hready, e, hrun, hchunk⟩ := s.exists_run_of_assemble h
  obtain ⟨rows, begun, haccounts, hcode⟩ := Emission.exists_accounts hready hrun
  refine ⟨e, rows, begun, hrun, haccounts, ?_, ?_⟩
  · rw [hchunk, Emission.chunk, Chunk.code_writeAll, hcode]
    simp [List.flatMap_map]
  · rw [hchunk, Emission.chunk, htracks, Chunk.lines_writeAll rfl, hcode]
    simp [List.flatMap_map, Instruction.encode, Instruction.encodeOperands]

/-- Here a directive comes before the comparison above it, and before the directive comes the label that it needs; the
second number stands below the comparison that it belongs to, and is built last. -/
theorem assemble_lines_of_early_label :
    let s := ofChars "a" "cmp 1 /*\n*/ 2\n.d e\ne:\n".toList
    let p := s.analyze.program
    ∃ a e rows begun, (s.assemble {}).1 = .ok a ∧ Emission.Accounts p rows begun e ∧
      a.chunk.lines = List.replicate 6 4 ++ List.replicate 16 3 ++ List.replicate 14 1 ++ List.replicate 14 2 ++
        List.replicate 11 1 ++ [2] ∧
      (begun.getLast?.map p.sourceLine).getD 1 = 2 := by
  intro s p
  have hlines : (s.assemble {}).1.toOption.map (·.chunk.lines) = some (List.replicate 6 4 ++ List.replicate 16 3 ++
      List.replicate 14 1 ++ List.replicate 14 2 ++ List.replicate 11 1 ++ [2]) := by decide +kernel
  cases hok : (s.assemble {}).1 with
  | error f =>
    rw [hok] at hlines
    cases hlines
  | ok a =>
    rw [hok] at hlines
    have hlines := Option.some.inj hlines
    obtain ⟨e, rows, begun, -, haccounts, -, hrows⟩ := s.assemble_lines.2 {} a rfl hok
    refine ⟨a, e, rows, begun, rfl, haccounts, hlines, ?_⟩
    have hlast := (List.append_inj' (hrows.symm.trans hlines) rfl).2
    simpa using hlast

end Source

end Assembler
