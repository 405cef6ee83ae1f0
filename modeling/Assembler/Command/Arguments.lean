import Assembler.Log.Level
/-!
# Command-line arguments

What a command line says, once it has been read.
-/

namespace Assembler

/-- The forms that log lines can have. -/
inductive LogFormat
  | pretty | compact | json
  deriving DecidableEq, Repr, Inhabited

structure Arguments where
  input : Option String := none
  compile : Option String := none
  output : Option String := none
  config : Option String := none
  dumpBytecode : Option Unit := none
  logLevel : Option LogLevel := none
  logFormat : Option LogFormat := none
  logFile : Option String := none
  deriving DecidableEq, Repr, Inhabited

/-- What a command line asks for: a run, or a text to be shown in place of one. -/
inductive Request
  | run (a : Arguments)
  | version (text : String)
  | help (text : String)
  /-- The command line is not understood, for the reason that the text gives. -/
  | misuse (text : String)
  deriving DecidableEq, Repr, Inhabited

end Assembler
