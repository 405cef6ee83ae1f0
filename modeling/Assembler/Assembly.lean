import Assembler.Bytecode.Emission
import Assembler.Bytecode.Listing
import Assembler.Program.Parser
import Assembler.Program.Resolution
import Assembler.Settings
/-!
# Assembly

From a source file to bytecode: its tokens, its program, the names in it, and the chunk. A program
with a fatal diagnostic is not made into bytecode. The diagnostics are in the order of their
locations.
-/

namespace Assembler

structure Assembly where
  chunk : Chunk
  statics : Array Static
  /-- The diagnostics that are not fatal. -/
  warnings : List Diagnostic
  deriving DecidableEq, Repr, Inhabited

/-- Why an assembly failed. -/
inductive Failure
  | diagnostics (ds : List Diagnostic)
  | emission (e : EmitError)
  deriving DecidableEq, Repr

namespace Source

/-- The program of a source file, with its diagnostics as they were reported. -/
def parse (s : Source) (w : Workspace := {}) : Workspace :=
  let (tokens, events) := (Lexer.ofSource s).run
  Workspace.parse s.file tokens { w with log := w.log ++ events }

/-- The program of a source file with its names resolved. -/
def analyze (s : Source) (w : Workspace := {}) : Workspace := (s.parse w).resolve

end Source

/-- Makes bytecode of an analysed program, unless one of its diagnostics is fatal. -/
def Workspace.assemble (w : Workspace) (file : String) (settings : Settings) : Except Failure Assembly × Log :=
  if Diagnostics.hasFatal w.diagnostics then
    (.error (.diagnostics w.diagnostics), w.log.push ⟨.warn, .phase .compiler, "Assembly failed",
      [("diagnostics", .nat w.diagnostics.length)]⟩)
  else
    let w :=
      if settings.compiler.optimize then
        let (program, events) := w.program.optimize
        { w with program, log := w.log ++ events }
      else w
    match w.emit settings.compiler.emitDebugInfo with
    | (.error e, w) => (.error (.emission e), w.log)
    | (.ok chunk, w) =>
      let listing := if settings.dumpBytecode then chunk.listingEvents file else []
      (.ok ⟨chunk, w.shared.statics, w.diagnostics⟩,
        (w.log ++ listing).push ⟨.debug, .phase .compiler, "Assembly completed",
          [("code_bytes", .nat chunk.code.length), ("statics", .nat w.shared.statics.size)]⟩)

/-- Assembles a file; the log tells what was done. -/
def Source.assemble (s : Source) (settings : Settings) : Except Failure Assembly × Log :=
  let start : Workspace := { log := #[⟨.info, .phase .compiler, "Starting assembly",
    [("file", .plain s.file), ("bytes", .nat s.bytes.length)]⟩] }
  (s.analyze start).sortDiagnostics.assemble s.file settings

end Assembler
