import Assembler.Log.Level
/-!
# Settings
-/

namespace Assembler

structure CompilerSettings where
  /-- Whether a chunk keeps the source line of every byte. -/
  emitDebugInfo : Bool := true
  /-- Whether the program is looked over for improvements. -/
  optimize : Bool := false
  deriving DecidableEq, Repr, Inhabited

structure Limits where
  /-- The most diagnostics that are shown; none is left out if this is zero. -/
  maxDiagnostics : Nat := 0
  deriving DecidableEq, Repr, Inhabited

/-- What an assembly is to do. -/
structure Settings where
  dumpBytecode : Bool := false
  compiler : CompilerSettings := {}
  limits : Limits := {}
  deriving DecidableEq, Repr, Inhabited

end Assembler
