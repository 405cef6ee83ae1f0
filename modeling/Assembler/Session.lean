import Assembler.Diagnostic
import Assembler.Symbols
import Assembler.Text.Quoted
/-!
# Sessions

A session collects the diagnostics of reading one text and binds names in a scope of its own. It
may open child sessions for texts inside the text. All of them share one symbol table and one
static data area.
-/

namespace Assembler

/-- An entry of the static data area. -/
inductive Static
  | integer (value : Int64)
  | string (value : String)
  | label (name : String)
  deriving DecidableEq, Repr, Inhabited

def Static.text : Static → String
  | integer value => Text.signed value.toInt
  | string value => Text.quoted value
  | label name => "<label " ++ name ++ ">"

/-- What all sessions of one assembly share. -/
structure Shared where
  symbols : SymbolTable := {}
  statics : Array Static := #[]
  deriving DecidableEq, Repr, Inhabited

/-- Adds an entry to the static data area, and gives its slot. -/
def Shared.addStatic (shared : Shared) (entry : Static) : UInt32 × Shared :=
  (UInt32.ofNat shared.statics.size, { shared with statics := shared.statics.push entry })

structure Session where
  scope : ScopeId := SymbolTable.root
  diagnostics : List Diagnostic := []
  variableMode : Bool := false
  deriving DecidableEq, Repr, Inhabited

namespace Session

def report (s : Session) (d : Diagnostic) : Session :=
  { s with diagnostics := s.diagnostics ++ [d] }

/-- A session for a text inside the text, in a scope inside the scope. -/
def child (s : Session) (shared : Shared) : Session × Shared :=
  let (scope, symbols) := shared.symbols.openScope s.scope
  ({ scope, variableMode := s.variableMode }, { shared with symbols })

/-- Takes over the diagnostics of a session and closes its scope, if that was opened last. -/
def absorb (s child : Session) (shared : Shared) : Session × Shared :=
  ({ s with diagnostics := s.diagnostics ++ child.diagnostics },
    { shared with symbols := (shared.symbols.closeScope child.scope).2 })

def bind (s : Session) (shared : Shared) (name : String) (node : NodeId) : Option NodeId × Shared :=
  let (old, symbols) := shared.symbols.bind s.scope name node
  (old, { shared with symbols })

def find? (s : Session) (shared : Shared) (name : String) : Option NodeId :=
  shared.symbols.find? s.scope name

end Session

end Assembler
