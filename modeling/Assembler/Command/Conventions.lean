import Assembler.Command.LogLine
import Assembler.Command.Options
import Assembler.Project
/-!
# Conventions

What a command takes as given: how command lines and project files are read, and what a line of a log
looks like.
-/

namespace Assembler

structure Conventions where
  arguments : List String → Request
  /-- The project that a text describes, or what is wrong with the text. -/
  project : List Char → Except String Project
  /-- An event at a time; on a terminal it may be coloured. -/
  logLine : LogFormat → (onTerminal : Bool) → (time : Nat) → Event → String

/-- The usual conventions. Of the forms of log lines they know the compact one, which is taken for the others too; it has
no time, and colours are left to the terminal. -/
def Conventions.standard : Conventions where
  arguments := Arguments.read
  project text := (Project.read text).mapError Json.Fault.name
  logLine _ _ _ e := LogLine.render e

end Assembler
