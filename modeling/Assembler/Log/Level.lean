/-!
# Log levels and phases
-/

namespace Assembler

/-- How much a log shows, from nothing to everything. -/
inductive LogLevel
  | silent | error | warn | info | debug | trace
  deriving DecidableEq, Repr, Inhabited

namespace LogLevel

def all : List LogLevel := [.silent, .error, .warn, .info, .debug, .trace]

def name : LogLevel → String
  | silent => "silent"
  | error => "error"
  | warn => "warn"
  | info => "info"
  | debug => "debug"
  | trace => "trace"

/-- The level that holds where none is asked for. -/
def standard : LogLevel := .warn

def rank : LogLevel → Nat
  | silent => 0
  | error => 1
  | warn => 2
  | info => 3
  | debug => 4
  | trace => 5

/-- Whether a log at level `l` shows what is marked `mark`. -/
def shows (l mark : LogLevel) : Bool := mark.rank ≤ l.rank

/-- The level of a name as a user writes it, in any case. -/
def ofName? (s : String) : Option LogLevel :=
  match s.map Char.toLower with
  | "silent" | "off" => some silent
  | "error" => some error
  | "warn" | "warning" => some warn
  | "info" => some info
  | "debug" => some debug
  | "trace" => some trace
  | _ => none

/-- The level of exactly the name it has. -/
def ofExactName? (s : String) : Option LogLevel := all.find? (·.name = s)

/-- The name of the filter that lets a level through. -/
def filterName : LogLevel → String
  | silent => "off"
  | l => l.name

end LogLevel

/-- The steps of an assembly, in order. -/
inductive Phase
  | lexer | parser | analyzer | compiler
  deriving DecidableEq, Repr, Inhabited

namespace Phase

def all : List Phase := [.lexer, .parser, .analyzer, .compiler]

def name : Phase → String
  | lexer => "lexer"
  | parser => "parser"
  | analyzer => "analyzer"
  | compiler => "compiler"

/-- The name under which a phase logs. -/
def target (p : Phase) : String := "bcasm::" ++ p.name

end Phase

/-- The levels of a log: one for all, and one of its own for any phase. -/
structure LogFilter where
  overall : LogLevel := .standard
  ofPhase : Phase → Option LogLevel := fun _ => none

/-- The level that holds for a phase. -/
def LogFilter.level (f : LogFilter) (p : Phase) : LogLevel := (f.ofPhase p).getD f.overall

end Assembler
