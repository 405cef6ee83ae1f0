import Assembler.Json.Reader
import Assembler.Settings
/-!
# Project files

A project file holds, as a JSON record, what would otherwise be said on the command line. Every
field may be left out.
-/

namespace Assembler

structure Project where
  entry : Option String := none
  output : Option String := none
  compiler : CompilerSettings := {}
  limits : Limits := {}
  logLevel : Option LogLevel := none
  dumpBytecode : Bool := false
  deriving DecidableEq, Repr, Inhabited

namespace Project

open Json.Reader

def compilerFields : List (RecordField CompilerSettings) :=
  [⟨"emit_debug_info", fun c => return { c with emitDebugInfo := ← boolean }⟩,
    ⟨"optimize", fun c => return { c with optimize := ← boolean }⟩]

def limitFields : List (RecordField Limits) :=
  [⟨"max_diagnostics", fun l => return { l with maxDiagnostics := ← count }⟩]

/-- A log level's name; another string is of the wrong kind. -/
def levelName (name : String) : Json.Reader LogLevel :=
  match LogLevel.ofExactName? name with
  | some level => return level
  | none => throw .wrongData

/-- A log level: its name, or an object with that name for its only member, which is null. -/
def logLevelReader : Json.Reader LogLevel := do
  if ← accept '"' then levelName (← stringBody)
  else
    expect '\x7b'
    expect '"'
    let level ← levelName (← stringBody)
    expect ':'
    null
    expect '\x7d'
    return level

def fields : List (RecordField Project) :=
  [⟨"entry", fun p => return { p with entry := ← optional string }⟩,
    ⟨"output", fun p => return { p with output := ← optional string }⟩,
    ⟨"compiler", fun p => return { p with compiler := ← record compilerFields {} }⟩,
    ⟨"limits", fun p => return { p with limits := ← record limitFields {} }⟩,
    ⟨"log_level", fun p => return { p with logLevel := ← optional logLevelReader }⟩,
    ⟨"dump_bytecode", fun p => return { p with dumpBytecode := ← boolean }⟩]

/-- The project that a text describes. -/
def read (text : List Char) : Except Json.Fault Project := run (record fields {}) text

def settings (p : Project) : Settings := ⟨p.dumpBytecode, p.compiler, p.limits⟩

end Project

end Assembler
