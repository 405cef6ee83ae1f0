import Assembler.Proofs.Assembled
/-!
# Line tables

Settings decide whether a chunk keeps the source line of each byte, and what is logged on the way. They decide nothing
else: one emission answers for all of them (`Source.exists_emission`), and what is written of it differs in the line
table alone (`Source.assemble_settings`), which has a line for each byte or none at all (`Chunk.IsLined`).
-/

namespace Assembler

/-! ## Chunks -/

namespace Chunk

/-- A chunk that keeps lines has one for each byte; any other has none. -/
structure IsLined (tracksLines : Bool) (c : Chunk) : Prop where
  tracks : c.tracksLines = tracksLines
  length : tracksLines = true → c.lines.length = c.code.length
  empty : tracksLines = false → c.lines = []

variable {tracksLines : Bool} {c : Chunk}

theorem isLined_empty (tracksLines : Bool) : IsLined tracksLines { tracksLines } := ⟨rfl, fun _ => rfl, fun _ => rfl⟩

/-- Bytes come with their lines, or no lines come at all. -/
theorem IsLined.append (h : c.IsLined tracksLines) (bytes : List UInt8) (line : Nat) :
    (c.append bytes line).IsLined tracksLines where
  tracks := h.tracks
  length htracks := by
    have hlines : (c.append bytes line).lines = c.lines ++ List.replicate bytes.length line :=
      if_pos (h.tracks.trans htracks)
    have hcode : (c.append bytes line).code = c.code ++ bytes := rfl
    rw [hlines, hcode, List.length_append, List.length_append, List.length_replicate, h.length htracks]
  empty htracks := by
    have hlines : (c.append bytes line).lines = c.lines :=
      if_neg (Bool.eq_false_iff.1 (h.tracks.trans htracks))
    rw [hlines, h.empty htracks]

theorem IsLined.writeAll (h : c.IsLined tracksLines) (is : List (Instruction × Nat)) :
    (c.writeAll is).IsLined tracksLines := by
  induction is generalizing c with
  | nil => exact h
  | cons i is ih => exact ih (h.append i.1.encode i.2)

end Chunk

theorem Emission.isLined_chunk (e : Emission) (tracksLines : Bool) : (e.chunk tracksLines).IsLined tracksLines :=
  (Chunk.isLined_empty tracksLines).writeAll _

/-! ## Programs -/

namespace Workspace

variable (w : Workspace)

/-- An emission that came to an end is written, whether lines are kept or not, and whatever was logged before. -/
theorem emit_of_run {e : Emission}
    (hrun : (Emission.all w.diagnostics).run { program := w.program, shared := w.shared } = .ok () e)
    (log : Log) (tracksLines : Bool) : ∃ log', ({ w with log } : Workspace).emit tracksLines =
      (.ok (e.chunk tracksLines), { w with program := e.program, shared := e.shared, log := log' }) := by
  have hrun' : (Emission.all ({ w with log } : Workspace).diagnostics).run { program := w.program, shared := w.shared } =
      .ok () e := hrun
  rw [emit, hrun']
  exact ⟨_, rfl⟩

theorem emit_of_run_error {error : EmitError} {e : Emission}
    (hrun : (Emission.all w.diagnostics).run { program := w.program, shared := w.shared } = .error error e)
    (log : Log) (tracksLines : Bool) : (({ w with log } : Workspace).emit tracksLines).1 = .error error := by
  have hrun' : (Emission.all ({ w with log } : Workspace).diagnostics).run { program := w.program, shared := w.shared } =
      .error error e := hrun
  rw [emit, hrun']

/-- A program that is fit to be emitted is assembled from its emission, under all settings. -/
theorem assemble_of_run (hfatal : ¬ Diagnostics.hasFatal w.diagnostics = true) {e : Emission}
    (hrun : (Emission.all w.diagnostics).run { program := w.program, shared := w.shared } = .ok () e)
    (file : String) (settings : Settings) : (w.assemble file settings).1 =
      .ok ⟨e.chunk settings.compiler.emitDebugInfo, e.shared.statics, w.diagnostics⟩ := by
  obtain ⟨log, hlog⟩ := w.exists_log_optimize settings
  obtain ⟨log', hok⟩ := w.emit_of_run hrun log settings.compiler.emitDebugInfo
  rw [assemble, if_neg hfatal]
  simp only [hlog, hok]
  rfl

/-- Under all settings a program fails in the same way, or all that is made of it comes from one emission. -/
theorem exists_emission (file : String) :
    (∃ f, ∀ settings, (w.assemble file settings).1 = .error f) ∨
      ∃ e : Emission, ∀ settings, (w.assemble file settings).1 =
        .ok ⟨e.chunk settings.compiler.emitDebugInfo, e.shared.statics, w.diagnostics⟩ := by
  by_cases hfatal : Diagnostics.hasFatal w.diagnostics
  · exact .inl ⟨_, fun settings => by rw [assemble, if_pos hfatal]⟩
  cases hrun : (Emission.all w.diagnostics).run { program := w.program, shared := w.shared } with
  | ok value e => exact .inr ⟨e, w.assemble_of_run hfatal hrun file⟩
  | error error e =>
    refine .inl ⟨.emission error, fun settings => ?_⟩
    obtain ⟨log, hlog⟩ := w.exists_log_optimize settings
    have herror := w.emit_of_run_error hrun log settings.compiler.emitDebugInfo
    rw [assemble, if_neg hfatal]
    dsimp only
    rw [hlog]
    split
    · rename_i heq
      rw [heq] at herror
      cases herror
      rfl
    · rename_i heq
      rw [heq] at herror
      cases herror

end Workspace

/-! ## Sources -/

namespace Source

variable (s : Source)

/-- Under all settings the same is reported of a source, or all that is made of it comes from one emission. -/
theorem exists_emission :
    (∃ ds, ∀ settings, (s.assemble settings).1 = .error (.diagnostics ds)) ∨
      ∃ e : Emission, ∀ settings,
        (s.assemble settings).1 = .ok ⟨e.chunk settings.compiler.emitDebugInfo, e.shared.statics, []⟩ := by
  by_cases hnone : s.analyze.diagnostics = []
  · have hok (settings : Settings) : ∃ chunk statics, (s.assemble settings).1 = .ok ⟨chunk, statics, []⟩ := by
      obtain ⟨-, chunk, statics, -, hok, -⟩ := s.assemble_of_no_diagnostics settings hnone
      exact ⟨chunk, statics, hok⟩
    -- The workspace that is assembled is one and the same, as nothing before asks for the settings.
    rcases Workspace.exists_emission _ s.file with ⟨f, hf⟩ | ⟨e, he⟩
    · obtain ⟨chunk, statics, hok⟩ := hok {}
      cases hok.symm.trans (hf {})
    · refine .inr ⟨e, fun settings => ?_⟩
      obtain ⟨chunk, statics, hok⟩ := hok settings
      have hassemble : (s.assemble settings).1 = .ok ⟨_, _, _⟩ := he settings
      have hwarnings := congrArg Assembly.warnings (Except.ok.inj (hassemble.symm.trans hok))
      rw [hassemble]
      exact congrArg Except.ok (congrArg (Assembly.mk _ _) hwarnings)
  · exact .inl ⟨_, fun settings => s.assemble_of_diagnostics settings hnone⟩

/-- Under any two settings a source fails with the same diagnostics, or it is assembled to the same code, the same static
area and the same warnings; what differs is the line table, and only where one of the two keeps lines. -/
theorem assemble_settings (settings settings' : Settings) :
    (∃ ds, (s.assemble settings).1 = .error (.diagnostics ds) ∧ (s.assemble settings').1 = .error (.diagnostics ds)) ∨
      ∃ a a', (s.assemble settings).1 = .ok a ∧ (s.assemble settings').1 = .ok a' ∧
        a.chunk.code = a'.chunk.code ∧ a.statics = a'.statics ∧ a.warnings = a'.warnings ∧
        (settings.compiler.emitDebugInfo = settings'.compiler.emitDebugInfo → a = a') ∧
        a.chunk.IsLined settings.compiler.emitDebugInfo ∧ a'.chunk.IsLined settings'.compiler.emitDebugInfo := by
  rcases s.exists_emission with ⟨ds, herror⟩ | ⟨e, hok⟩
  · exact .inl ⟨ds, herror settings, herror settings'⟩
  · refine .inr ⟨_, _, hok settings, hok settings', ?_, rfl, rfl, fun hsame => by rw [hsame], ?_, ?_⟩
    · rw [Emission.code_chunk, Emission.code_chunk]
    · exact e.isLined_chunk _
    · exact e.isLined_chunk _

end Source

end Assembler
