import Assembler.Command.Conventions
import Assembler.Command.Disk
import Assembler.Command.Excerpt
import Assembler.Command.Path
import Assembler.Report
/-!
# The command

Assembles one source file into a bytecode file. What is not said on the command line is taken from
the project file, if one is named.
-/

namespace Assembler.Command

/-- What keeps the command from doing its work. -/
inductive Fault
  | missingInput
  | read (path : String) (fault : FileFault)
  | write (path : String) (fault : FileFault)
  | project (path reason : String)
  | logFile (fault : FileFault)
  deriving DecidableEq, Repr

def Fault.message : Fault → String
  | missingInput => "no input file (pass INPUT, -c <FILE>, or set \"entry\" in the project file)"
  | read path fault => "cannot read '" ++ path ++ "': " ++ fault.message
  | write path fault => "cannot write '" ++ path ++ "': " ++ fault.message
  | project path reason => "invalid project file '" ++ path ++ "': " ++ reason
  | logFile fault => "failed to initialise logging: cannot open log file: " ++ fault.message

/-! ## What is asked for -/

/-- The file to assemble. -/
def input? (a : Arguments) (p : Project) (directory : String) : Option String :=
  a.compile <|> a.input <|> p.entry.map (Path.join directory)

/-- The file to write; by default the input with another extension. -/
def output (a : Arguments) (p : Project) (directory input : String) : String :=
  (a.output <|> p.output.map (Path.join directory)).getD (Path.withExtension input "bin")

/-- The directory that paths in a project file start from. -/
def projectDirectory (a : Arguments) : String := (a.config.map Path.directory).getD "."

def settings (a : Arguments) (p : Project) : Settings :=
  { p.settings with dumpBytecode := p.settings.dumpBytecode || a.dumpBytecode.isSome }

def logFilter (a : Arguments) (p : Project) : LogFilter :=
  { overall := (a.logLevel <|> p.logLevel).getD .standard }

/-- Where events are logged, and how: those that pass a filter, on the terminal and in a file if one is named. -/
structure Journal where
  filter : LogFilter
  line : (onTerminal : Bool) → (time : Nat) → Event → String
  file : Option String

def journal (c : Conventions) (a : Arguments) (p : Project) : Journal :=
  ⟨logFilter a p, c.logLine (a.logFormat.getD .compact), a.logFile⟩

/-! ## What is shown -/

/-- The reports of a failure, and how many were left out. -/
def reportText (f : Failure) (limit : Nat) : String :=
  let reports := f.reports limit
  String.join (reports.map fun r => r.text ++ "\n")
    ++ if reports.length < f.count then
        "... " ++ Text.decimal (f.count - reports.length) ++ " more diagnostic(s) suppressed\n"
      else ""

/-- The lines of the source that the reports of a failure are about. -/
def excerptText (f : Failure) (limit : Nat) (source : Source) : String :=
  String.join ((f.reports limit).filterMap fun r =>
    r.location.map fun l => Excerpt.render source.text l.line l.column)

def event (level : LogLevel) (message : String) (fields : List (String × LogValue)) : Event :=
  ⟨level, .command, message, fields⟩

/-! ## What is done -/

section
variable {m : Type → Type} [Monad m] [Machine m]

def readProject (c : Conventions) (path : String) : ExceptT Fault m Project := do
  match ← (Machine.read path : m _) with
  | .error fault => throw (.read path fault)
  | .ok bytes =>
    match Text.Utf8.decode? bytes with
    | none => throw (.read path .notUtf8)
    | some text =>
      match c.project text with
      | .error reason => throw (.project path reason)
      | .ok project => return project

/-- Writes a line of a log, with the time that it is then. -/
def logLine (write : String → m Unit) (line : Nat → Event → String) (e : Event) : m Unit := do
  write (line (← Machine.time) e)

/-- Logs an event if it is let through. -/
def logEvent (j : Journal) (e : Event) : m Unit := do
  if j.filter.passes e then
    logLine Machine.err (j.line true) e
    match j.file with
    | some path => logLine (fun text => discard (Machine.append path (Text.Utf8.encode text.toList))) (j.line false) e
    | none => pure ()

def log (j : Journal) (events : List Event) : m Unit := events.forM (logEvent j)

/-- What the project file says, or nothing if none is named. -/
def project (c : Conventions) (a : Arguments) : ExceptT Fault m Project :=
  match a.config with
  | some path => readProject c path
  | none => return {}

/-- Makes the log file if one is named and not there. -/
def openLog (file : Option String) : ExceptT Fault m Unit :=
  match file with
  | some path => do
    if let .error fault ← (Machine.append path [] : m _) then throw (.logFile fault)
  | none => return ()

/-- Shows what was assembled as far as it is asked for, and writes its code. -/
def deliver (log : List Event → m Unit) (settings : Settings) (input output : String) (assembly : Assembly) :
    ExceptT Fault m Nat := do
  Machine.out (m := m) (Diagnostics.text assembly.warnings ++
    if settings.dumpBytecode then assembly.chunk.listing input else "")
  match ← (Machine.write output assembly.chunk.code : m _) with
  | .error fault => throw (.write output fault)
  | .ok () =>
    log [event .info ("Wrote " ++ output) [("bytes", .nat assembly.chunk.code.length)]]
    return 0

/-- Shows why nothing was assembled. -/
def complain (log : List Event → m Unit) (limit : Nat) (source : Source) (failure : Failure) : m Nat := do
  log [event .debug "Assembly failed" [("phase", .text failure.phase.name), ("count", .nat failure.count)]]
  Machine.out (reportText failure limit)
  Machine.err (excerptText failure limit source)
  return 1

/-- Assembles a source to a file; gives the exit status. -/
def build (log : List Event → m Unit) (settings : Settings) (source : Source) (output : String) : ExceptT Fault m Nat := do
  log [event .info "Assembling" [("input", .plain source.file), ("output", .plain output)]]
  let (result, events) := source.assemble settings
  log events.toList
  match result with
  | .ok assembly => deliver log settings source.file output assembly
  | .error failure => complain (m := m) log settings.limits.maxDiagnostics source failure

/-- Everything after the arguments are read; gives the exit status. -/
def perform (c : Conventions) (a : Arguments) : ExceptT Fault m Nat := do
  let project ← project c a
  let directory := projectDirectory a
  openLog a.logFile
  match input? a project directory with
  | none => throw .missingInput
  | some input =>
    match ← (Machine.read input : m _) with
    | .error fault => throw (.read input fault)
    | .ok bytes =>
      build (log (journal c a project)) (settings a project) ⟨input, bytes⟩ (output a project directory input)

/-- Runs a command line; gives the exit status. -/
def runWith (c : Conventions) (args : List String) : m Nat := do
  match c.arguments args with
  | .misuse text =>
    Machine.err text
    return 2
  | .help text | .version text =>
    Machine.out text
    return 0
  | .run a =>
    match ← (perform c a).run with
    | .ok status => return status
    | .error fault =>
      Machine.err ("Error: " ++ fault.message ++ "\n")
      return 1

/-- Runs a command line as usual. -/
def run (args : List String) : m Nat := runWith .standard args

end

end Assembler.Command
