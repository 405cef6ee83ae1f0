import Assembler.Assembly
/-!
# Reports

What a failed assembly is told as: one report for each diagnostic, or one for the failure itself.
-/

namespace Assembler

/-- The phase that finds a cause. -/
def Cause.phase : Cause → Phase
  | undeclaredIdentifier | illegalExpression => .analyzer
  | _ => .parser

structure Report where
  phase : Phase
  location : Option Location
  level : String
  kind : String
  message : String
  deriving DecidableEq, Repr, Inhabited

namespace Report

def ofDiagnostic (d : Diagnostic) : Report :=
  ⟨d.cause.phase, some d.location, d.severity.name, d.cause.name, d.message⟩

def ofEmitError (e : EmitError) : Report :=
  ⟨.compiler, e.location?, "error", "CompileError", e.message⟩

/-- The report of a failure that gives no reason. -/
def withoutReason : Report := ⟨.compiler, none, "error", "Diagnostics", "no diagnostics recorded"⟩

def short (r : Report) : String := r.phase.name ++ ": " ++ r.message

def text (r : Report) : String :=
  match r.location with
  | some l => l.text ++ ": " ++ r.level ++ ": " ++ r.message
  | none => "[" ++ r.phase.name ++ "] " ++ r.level ++ ": " ++ r.message

/-! ## JSON -/

/-- A character as it stands in a JSON string. -/
def jsonChar (c : Char) : List Char :=
  if c = '"' then ['\\', '"']
  else if c = '\\' then ['\\', '\\']
  else if c = '\x08' then ['\\', 'b']
  else if c = '\x0c' then ['\\', 'f']
  else if c = '\n' then ['\\', 'n']
  else if c = '\r' then ['\\', 'r']
  else if c = '\t' then ['\\', 't']
  else if c.toNat < 0x20 then
    ['\\', 'u', '0', '0', Nat.digitChar (c.toNat / 16), Nat.digitChar (c.toNat % 16)]
  else [c]

def jsonString (s : String) : String :=
  String.ofList ('"' :: s.toList.flatMap jsonChar ++ ['"'])

def jsonOr {α : Type} (shown : α → String) : Option α → String
  | some a => shown a
  | none => "null"

/-- The report as a JSON object. -/
def json (r : Report) : String :=
  let members : List (String × String) :=
    [("phase", jsonString r.phase.name),
      ("file", jsonOr jsonString (r.location.map (·.file))),
      ("line", jsonOr Text.decimal (r.location.map (·.line))),
      ("column", jsonOr Text.decimal (r.location.map (·.column))),
      ("level", jsonString r.level),
      ("kind", jsonString r.kind),
      ("message", jsonString r.message)]
  "\x7b" ++ ",".intercalate (members.map fun (name, value) => jsonString name ++ ":" ++ value)
    ++ "\x7d"

end Report

namespace Failure

def message : Failure → String
  | diagnostics ds => Diagnostics.text ds
  | emission e => "Compiler error: " ++ e.message

def count : Failure → Nat
  | diagnostics ds => ds.length
  | emission _ => 1

/-- All reports, or the first ones if a limit other than zero is set; there is always the one of an emission. -/
def reports (limit : Nat) : Failure → List Report
  | diagnostics ds => ((if limit = 0 then ds else ds.take limit)).map .ofDiagnostic
  | emission e => [.ofEmitError e]

/-- The report that stands for the failure. -/
def report (f : Failure) : Report := (f.reports 0).headD .withoutReason

def location? (f : Failure) : Option Location := f.report.location

def phase (f : Failure) : Phase := f.report.phase

end Failure

end Assembler
