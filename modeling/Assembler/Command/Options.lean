import Assembler.Command.Arguments
/-!
# Reading command lines

Options with a value take it from their own argument, after an equals sign or right after a single
letter, or from the next argument, which must not look like an option. No option may be repeated.
-/

namespace Assembler

def LogFormat.ofName? : String → Option LogFormat
  | "pretty" => some .pretty
  | "compact" => some .compact
  | "json" => some .json
  | _ => none

namespace Arguments

def version : Request := .version "bcasm 0.1.0\n"

def help : Request := .help <|
  "Bytecode assembler\n\n"
    ++ "Usage: bcasm [OPTIONS] [INPUT]\n\n"
    ++ "Arguments:\n"
    ++ "  [INPUT]  Source file to assemble\n\n"
    ++ "Options:\n"
    ++ "  -c, --compile <FILE>       Source file to assemble (overrides INPUT)\n"
    ++ "  -o, --output <FILE>        Output path (default: input with a `.bin` extension)\n"
    ++ "      --config <FILE>        JSON project file\n"
    ++ "      --dump-bytecode        Print the disassembly after a successful compile\n"
    ++ "      --log-level <LEVEL>    silent, error, warn, info, debug, trace\n"
    ++ "      --log-format <FORMAT>  pretty, compact, json\n"
    ++ "      --log-file <FILE>      Also append logs to this file\n"
    ++ "  -h, --help                 Print help\n"
    ++ "  -V, --version              Print version\n"

/-- What is said of every command line that is not understood. -/
def misuse : Request := .misuse "error: invalid usage\n\nFor more information, try '--help'.\n"

/-- An option, by what it needs. -/
inductive Flag
  /-- An option with a value, which may be refused. -/
  | valued (set : String → Arguments → Option Arguments)
  | plain (set : Arguments → Option Arguments)
  /-- An option that ends the reading of arguments. -/
  | final (request : Request)

/-- Fills what is still empty. -/
def fill {α : Type} (old : Option α) (value : α) : Option (Option α) :=
  match old with
  | none => some (some value)
  | some _ => none

/-- A path is never empty. -/
def path? (s : String) : Option String := if s.isEmpty then none else some s

def setInput (s : String) (a : Arguments) : Option Arguments := do
  return { a with input := ← fill a.input (← path? s) }

def setCompile (s : String) (a : Arguments) : Option Arguments := do
  return { a with compile := ← fill a.compile (← path? s) }

def setOutput (s : String) (a : Arguments) : Option Arguments := do
  return { a with output := ← fill a.output (← path? s) }

def setConfig (s : String) (a : Arguments) : Option Arguments := do
  return { a with config := ← fill a.config (← path? s) }

def setDumpBytecode (a : Arguments) : Option Arguments := do
  return { a with dumpBytecode := ← fill a.dumpBytecode () }

def setLogLevel (s : String) (a : Arguments) : Option Arguments := do
  return { a with logLevel := ← fill a.logLevel (← LogLevel.ofName? s) }

def setLogFormat (s : String) (a : Arguments) : Option Arguments := do
  return { a with logFormat := ← fill a.logFormat (← LogFormat.ofName? s) }

def setLogFile (s : String) (a : Arguments) : Option Arguments := do
  return { a with logFile := ← fill a.logFile (← path? s) }

def long? : String → Option Flag
  | "compile" => some (.valued setCompile)
  | "output" => some (.valued setOutput)
  | "config" => some (.valued setConfig)
  | "dump-bytecode" => some (.plain setDumpBytecode)
  | "log-level" => some (.valued setLogLevel)
  | "log-format" => some (.valued setLogFormat)
  | "log-file" => some (.valued setLogFile)
  | "help" => some (.final help)
  | "version" => some (.final version)
  | _ => none

def short? (c : Char) : Option Flag :=
  if c = 'c' then some (.valued setCompile)
  else if c = 'o' then some (.valued setOutput)
  else if c = 'h' then some (.final help)
  else if c = 'V' then some (.final version)
  else none

/-- What reading one argument leads to. -/
inductive Step
  | done (r : Request)
  | goOn (a : Arguments)
  /-- The next argument is the value of an option. -/
  | needsValue (set : String → Arguments → Option Arguments) (a : Arguments)

def Step.ofOption : Option Arguments → Step
  | some a => .goOn a
  | none => .done misuse

/-- An option that is spelled out, after its dashes. -/
def longStep (arg : List Char) (a : Arguments) : Step :=
  let name := String.ofList (arg.takeWhile (· != '='))
  let value := match arg.dropWhile (· != '=') with
    | _ :: value => some (String.ofList value)
    | [] => none
  match long? name, value with
  | some (.valued set), some value => .ofOption (set value a)
  | some (.valued set), none => .needsValue set a
  | some (.plain set), none => .ofOption (set a)
  | some (.final request), none => .done request
  | _, _ => .done misuse

/-- Options of one letter each, after their dash. -/
def shortStep : List Char → Arguments → Step
  | [], a => .goOn a
  | c :: rest, a =>
    match short? c with
    | some (.valued set) =>
      match rest with
      | [] => .needsValue set a
      | '=' :: value => .ofOption (set (String.ofList value) a)
      | value => .ofOption (set (String.ofList value) a)
    | some (.plain set) =>
      match set a with
      | some a => shortStep rest a
      | none => .done misuse
    | some (.final request) => .done request
    | none => .done misuse

/-- Whether an argument is an option, or ends them. -/
def looksLikeOption (arg : String) : Bool := arg.startsWith "-" && arg != "-"

/-- The arguments after the options. -/
def readInputs : List String → Arguments → Request
  | [], a => .run a
  | arg :: rest, a =>
    match setInput arg a with
    | some a => readInputs rest a
    | none => misuse

def readFrom : List String → Arguments → Request
  | [], a => .run a
  | arg :: rest, a =>
    if arg = "--" then readInputs rest a
    else if looksLikeOption arg then
      let step := match arg.toList with
        | '-' :: '-' :: long => longStep long a
        | _ :: short => shortStep short a
        | [] => .goOn a
      match step with
      | .done request => request
      | .goOn a => readFrom rest a
      | .needsValue set a =>
        match rest with
        | [] => misuse
        | value :: rest =>
          if looksLikeOption value then misuse
          else
            match set value a with
            | some a => readFrom rest a
            | none => misuse
    else
      match setInput arg a with
      | some a => readFrom rest a
      | none => misuse

/-- What the arguments of a command line ask for. -/
def read (args : List String) : Request := readFrom args {}

end Arguments

end Assembler
