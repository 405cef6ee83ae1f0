import Assembler.Log.Level
import Assembler.Text.Quoted
/-!
# Log events

What an assembly tells about its work. Events are kept as data, in the order they came about.
-/

namespace Assembler

/-- Who logs: a phase, or the command itself. -/
inductive LogTarget
  | phase (p : Phase)
  | command
  deriving DecidableEq, Repr, Inhabited

def LogTarget.name : LogTarget → String
  | phase p => p.target
  | command => "bcasm::cli"

/-- The value of a field of an event; text is quoted where a log is written, anything else is not. -/
inductive LogValue
  | plain (shown : String)
  | text (content : String)
  deriving DecidableEq, Repr, Inhabited

namespace LogValue

def nat (n : Nat) : LogValue := .plain (Text.decimal n)

def bool (b : Bool) : LogValue := .plain (if b then "true" else "false")

/-- The value as it is. -/
def content : LogValue → String
  | plain s => s
  | text s => s

/-- The value as a log line has it. -/
def shown : LogValue → String
  | plain s => s
  | text s => Text.quoted s

end LogValue

structure Event where
  level : LogLevel
  target : LogTarget
  message : String
  fields : List (String × LogValue) := []
  deriving DecidableEq, Repr, Inhabited

abbrev Log := Array Event

/-- The events that a filter lets through. -/
def LogFilter.passes (f : LogFilter) (e : Event) : Bool :=
  match e.target with
  | .phase p => (f.level p).shows e.level
  | .command => f.overall.shows e.level

end Assembler
