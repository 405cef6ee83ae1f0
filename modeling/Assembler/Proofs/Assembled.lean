import Assembler.Proofs.Emitted
import Assembler.Proofs.Ordered
/-!
# What becomes of a source

A source is assembled if nothing was reported of it, and its code is then the plain code of its lines;
otherwise what was reported is given back in order. Nothing else can happen: emission fails on no
program that was read and resolved without a diagnostic.
-/

namespace Assembler

/-! ## Code -/

namespace Chunk

theorem code_writeAll (c : Chunk) (is : List (Instruction × Nat)) :
    (c.writeAll is).code = c.code ++ (is.map (·.1)).flatMap Instruction.encode := by
  induction is generalizing c with
  | nil => simp [writeAll]
  | cons i is ih =>
    have hcons : c.writeAll (i :: is) = (c.writeInstruction i.1 i.2).writeAll is := rfl
    rw [hcons, ih, List.map_cons, List.flatMap_cons, ← List.append_assoc]
    rfl

end Chunk

theorem Emission.code_chunk (e : Emission) (tracksLines : Bool) :
    (e.chunk tracksLines).code = e.instructions.flatMap Instruction.encode :=
  Chunk.code_writeAll ..

/-- A ready program is made into the bytes of its plain code, and its static area. -/
theorem Workspace.emit_of_ready {w : Workspace} (hp : w.program.Ready) (hd : w.diagnostics = [])
    (hstatics : w.shared.statics = #[]) {ls : List Line} (hls : w.program.lines? = some ls) (tracksLines : Bool) :
    ∃ chunk w', w.emit tracksLines = (.ok chunk, w') ∧ chunk.code = (plainCode ls).flatMap Instruction.encode ∧
      w'.diagnostics = [] ∧ w'.shared.statics.toList = plainStatics w.program.labelName ls ∧
      List.Forall₂ Instruction.Defines ((plainCode ls).filter (·.isDefinition)) w'.shared.statics.toList := by
  obtain ⟨e, hmakes, hentries, hdefines⟩ := Emission.makes_all hp hstatics hls
  have hcode : (e.chunk tracksLines).code = (plainCode ls).flatMap Instruction.encode := by
    rw [Emission.code_chunk, hmakes.code]
    rfl
  have hemit : ∃ log, w.emit tracksLines =
      (.ok (e.chunk tracksLines), { w with program := e.program, shared := e.shared, log }) := by
    simp only [Workspace.emit, hd, hmakes.run]
    exact ⟨_, rfl⟩
  obtain ⟨log, hemit⟩ := hemit
  exact ⟨_, _, hemit, hcode, hd, hentries, hdefines⟩

/-- To look for improvements is to log that there are none. -/
theorem Workspace.exists_log_optimize (w : Workspace) (settings : Settings) : ∃ log : Log, (if settings.compiler.optimize then
    { w with program := w.program.optimize.1, log := w.log ++ w.program.optimize.2 } else w) = { w with log } := by
  split
  · exact ⟨_, rfl⟩
  · exact ⟨w.log, rfl⟩

/-- A ready program is assembled. -/
theorem Workspace.assemble_of_ready {w : Workspace} (hp : w.program.Ready) (hd : w.diagnostics = [])
    (hstatics : w.shared.statics = #[]) (file : String) (settings : Settings) :
    ∃ ls chunk statics, w.program.lines? = some ls ∧ (w.assemble file settings).1 = .ok ⟨chunk, statics, []⟩ ∧
      chunk.code = (plainCode ls).flatMap Instruction.encode ∧ statics.toList = plainStatics w.program.labelName ls ∧
      List.Forall₂ Instruction.Defines ((plainCode ls).filter (·.isDefinition)) statics.toList := by
  obtain ⟨ls, hls⟩ := hp.exists_lines?
  obtain ⟨log, hw⟩ := w.exists_log_optimize settings
  obtain ⟨chunk, w', hemit, hcode, hd', hentries, hdefines⟩ :=
    emit_of_ready (w := { w with log }) hp hd hstatics hls settings.compiler.emitDebugInfo
  refine ⟨ls, chunk, w'.shared.statics, hls, ?_, hcode, hentries, hdefines⟩
  have hfatal : ¬ Diagnostics.hasFatal w.diagnostics = true := by rw [hd]; decide
  rw [Workspace.assemble, if_neg hfatal]
  simp only [hw, hemit, hd']

theorem exists_eq_ok {ε α : Type} {r : Except ε α} (h : r.isOk) : ∃ a, r = .ok a := by
  cases r with
  | error => cases h
  | ok a => exact ⟨a, rfl⟩

/-- A program with errors is not assembled, and they are given back in order. -/
theorem Workspace.assemble_of_errors {w : Workspace} (h : w.diagnostics ≠ []) (herror : ∀ d ∈ w.diagnostics, d.severity = .error)
    (file : String) (settings : Settings) :
    (w.sortDiagnostics.assemble file settings).1 = .error (.diagnostics (Diagnostics.sorted w.diagnostics)) := by
  have hperm := (Diagnostics.isStableSort_sorted w.diagnostics).perm
  have hfatal : Diagnostics.hasFatal (Diagnostics.sorted w.diagnostics) = true := by
    obtain ⟨d, hd⟩ := List.exists_mem_of_ne_nil _ h
    refine List.any_eq_true.2 ⟨d, hperm.mem_iff.2 hd, ?_⟩
    rw [Diagnostic.isFatal, herror d hd]
    rfl
  rw [Workspace.assemble]
  exact congrArg Prod.fst (if_pos hfatal)

namespace Source

/-! ## Programs of a source -/

variable (s : Source)

/-- The tokens of a source. -/
def tokens : List Token := (Lexer.ofSource s).run.1

theorem exists_parse_eq : ∃ log : Log, s.parse = Workspace.parse s.file s.tokens { log } := ⟨_, rfl⟩

theorem sound_parse : Stage.Sound ⟨s.parse, [], s.parse.program.statements⟩ := by
  obtain ⟨log, h⟩ := s.exists_parse_eq
  rw [h]
  exact Workspace.sound_parse ..

theorem bound_parse : s.parse.Bound := Workspace.bound_of_sound s.sound_parse

/-- The statements stand in the order of their lines, the hoisted ones before the others. -/
theorem statements_parse :
    s.parse.program.statements =
      (Draft.inOrder s.tokens {}).filter (s.parse.program.isHoisted ·) ++
        (Draft.inOrder s.tokens {}).filter (!s.parse.program.isHoisted ·) := by
  obtain ⟨log, h⟩ := s.exists_parse_eq
  rw [h]
  exact Workspace.statements_parse ..

theorem ready_analyze (h : s.analyze.diagnostics = []) : s.analyze.program.Ready := by
  refine Workspace.ready_resolve s.sound_parse ?_ h
  rw [statements_parse]
  simp

/-- Resolving names adds errors to those of reading. -/
theorem exists_diagnostics_eq :
    ∃ added, s.analyze.diagnostics = s.parse.diagnostics ++ added ∧ ∀ d ∈ s.analyze.diagnostics, d.severity = .error := by
  obtain ⟨added, hadded, herror⟩ := s.bound_parse.resolve.2.diagnostics
  refine ⟨added, hadded, fun d hd => ?_⟩
  rcases List.mem_append.1 (hadded ▸ hd) with hd | hd
  · exact s.sound_parse.severity d hd
  · exact herror d hd

/-! ## Assembly -/

theorem exists_assemble_parse_eq (settings : Settings) : ∃ log : Log, s.assemble settings =
    (Workspace.parse s.file s.tokens { log }).resolve.sortDiagnostics.assemble s.file settings := ⟨_, rfl⟩

/-- What was logged at the start of an assembly changes nothing. -/
theorem exists_assemble_eq (settings : Settings) :
    ∃ log, s.assemble settings = (s.analyze.behind [] log).sortDiagnostics.assemble s.file settings := by
  have hstart (log : Log) : s.analyze { log } = s.analyze.behind [] log := by
    rw [← analyze_behind]
    simp [Workspace.behind]
  exact ⟨_, congrArg (fun w => w.sortDiagnostics.assemble s.file settings) (hstart _)⟩

theorem assemble_of_diagnostics (settings : Settings) (h : s.analyze.diagnostics ≠ []) :
    (s.assemble settings).1 = .error (.diagnostics (Diagnostics.sorted s.analyze.diagnostics)) := by
  obtain ⟨added, -, herror⟩ := s.exists_diagnostics_eq
  obtain ⟨log, hassemble⟩ := s.exists_assemble_eq settings
  rw [hassemble]
  exact Workspace.assemble_of_errors (w := s.analyze.behind [] log) h herror s.file settings

/-- Nothing is reported of an assembled source. -/
theorem diagnostics_of_assemble {settings : Settings} {a : Assembly} (h : (s.assemble settings).1 = .ok a) :
    s.analyze.diagnostics = [] := by
  refine Decidable.byContradiction fun hne => ?_
  rw [s.assemble_of_diagnostics settings hne] at h
  cases h

/-- A source of which nothing was reported is assembled to the plain code of its lines. -/
theorem assemble_of_no_diagnostics (settings : Settings) (h : s.analyze.diagnostics = []) :
    ∃ ls chunk statics, s.analyze.program.lines? = some ls ∧
      (s.assemble settings).1 = .ok ⟨chunk, statics, []⟩ ∧
      chunk.code = (plainCode ls).flatMap Instruction.encode ∧
      List.Forall₂ Instruction.Defines ((plainCode ls).filter (·.isDefinition)) statics.toList := by
  have hstatics : s.analyze.shared.statics = #[] := s.bound_parse.resolve.2.statics.trans s.sound_parse.statics
  have hsorted : Diagnostics.sorted s.analyze.diagnostics = [] := by
    rw [h]
    exact List.mergeSort_nil
  obtain ⟨log, hassemble⟩ := s.exists_assemble_eq settings
  rw [hassemble]
  have hready : (s.analyze.behind [] log).sortDiagnostics.program.Ready := s.ready_analyze h
  obtain ⟨ls, chunk, statics, hls, hok, hcode, -, hdefines⟩ :=
    Workspace.assemble_of_ready hready hsorted hstatics s.file settings
  exact ⟨ls, chunk, statics, hls, hok, hcode, hdefines⟩

/-- An assembled source has the same code with any settings. -/
theorem exists_code_eq {settings : Settings} {a : Assembly} (h : (s.assemble settings).1 = .ok a) (settings' : Settings) :
    ∃ a', (s.assemble settings').1 = .ok a' ∧ a'.chunk.code = a.chunk.code := by
  have hnone := s.diagnostics_of_assemble h
  obtain ⟨ls, chunk, statics, hls, hok, hcode, -⟩ := s.assemble_of_no_diagnostics settings hnone
  obtain ⟨ls', chunk', statics', hls', hok', hcode', -⟩ := s.assemble_of_no_diagnostics settings' hnone
  cases hok.symm.trans h
  cases hls.symm.trans hls'
  exact ⟨_, hok', hcode'.trans hcode.symm⟩

/-- What comes of a source: bytecode if nothing was reported of it, and otherwise all that was reported, in order. -/
theorem assemble_outcome (settings : Settings) :
    ∃ added, s.analyze.diagnostics = s.parse.diagnostics ++ added ∧
      ((∃ a, (s.assemble settings).1 = .ok a) ↔ s.parse.diagnostics ++ added = []) ∧
      (∀ a, (s.assemble settings).1 = .ok a → a.warnings = [] ∧ a.chunk.code ≠ []) ∧
      (∀ f, (s.assemble settings).1 = .error f → ∃ ds, f = .diagnostics ds ∧ ds ≠ [] ∧
        (∀ d ∈ ds, d.severity = .error) ∧ Diagnostics.IsStableSort (s.parse.diagnostics ++ added) ds) := by
  obtain ⟨added, hadded, herror⟩ := s.exists_diagnostics_eq
  refine ⟨added, hadded, ?_⟩
  rw [← hadded]
  by_cases hnone : s.analyze.diagnostics = []
  · obtain ⟨ls, chunk, statics, -, hok, hcode, -⟩ := s.assemble_of_no_diagnostics settings hnone
    rw [hok]
    refine ⟨⟨fun _ => hnone, fun _ => ⟨_, rfl⟩⟩, ?_, by rintro f ⟨⟩⟩
    rintro a ⟨⟩
    refine ⟨rfl, ?_⟩
    rw [hcode, plainCode, List.flatMap_append]
    exact List.append_ne_nil_of_right_ne_nil _ (by decide)
  · have hsort := Diagnostics.isStableSort_sorted s.analyze.diagnostics
    rw [s.assemble_of_diagnostics settings hnone]
    refine ⟨⟨by rintro ⟨a, ⟨⟩⟩, fun h => absurd h hnone⟩, by rintro a ⟨⟩, ?_⟩
    rintro f ⟨⟩
    refine ⟨_, rfl, fun hnil => hnone ?_, fun d hd => herror d (hsort.perm.mem_iff.1 hd), hsort⟩
    have hperm := hsort.perm
    rw [hnil] at hperm
    exact List.nil_perm.1 hperm

/-- An assembled source has the plain code of its lines, the hoisted statements first and each group as it stands. -/
theorem assemble_code {settings : Settings} {a : Assembly} (h : (s.assemble settings).1 = .ok a) :
    let p := s.analyze.program
    p.statements = (Draft.inOrder s.tokens {}).filter (p.isHoisted ·) ++
      (Draft.inOrder s.tokens {}).filter (!p.isHoisted ·) ∧
    ∃ ls, p.lines? = some ls ∧ a.chunk.code = (plainCode ls).flatMap Instruction.encode := by
  intro p
  have hlater := s.bound_parse.resolve.2
  refine ⟨?_, ?_⟩
  · have hstatements : p.statements = s.parse.program.statements := hlater.statements
    have hhoisted : p.isHoisted = s.parse.program.isHoisted := funext hlater.isHoisted_eq
    rw [hstatements, hhoisted]
    exact s.statements_parse
  · by_cases hnone : s.analyze.diagnostics = []
    · obtain ⟨ls, chunk, statics, hls, hok, hcode, -⟩ := s.assemble_of_no_diagnostics settings hnone
      cases hok.symm.trans h
      exact ⟨ls, hls, hcode⟩
    · rw [s.assemble_of_diagnostics settings hnone] at h
      cases h

/-- A label that is jumped to is declared first, wherever it stands. -/
theorem assemble_code_of_jump_forward :
    let s := ofChars "a" "jmp e\ne:\n".toList
    ∃ a, (s.assemble {}).1 = .ok a ∧
      a.chunk.code = [.label (.static 0), .jump .always (.static 0), .halt].flatMap Instruction.encode := by
  intro s
  have hnone : s.analyze.diagnostics = [] := by decide +kernel
  have hlines : s.analyze.program.lines? = some [.declaration 2, .jump .always (.label 2)] := by decide +kernel
  obtain ⟨-, chunk, statics, -, hok, -⟩ := s.assemble_of_no_diagnostics {} hnone
  obtain ⟨-, ls, hls, hcode⟩ := s.assemble_code hok
  obtain rfl := Option.some.inj (hlines.symm.trans hls)
  exact ⟨_, hok, hcode⟩

end Source

end Assembler
