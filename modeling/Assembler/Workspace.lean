import Assembler.Program
import Assembler.Session
/-!
# Workspaces

What an assembly has come to: its program so far, the diagnostics and bindings, and the log.
-/

namespace Assembler

structure Workspace where
  program : Program := {}
  session : Session := {}
  shared : Shared := {}
  log : Log := #[]
  deriving DecidableEq, Repr, Inhabited

namespace Workspace

def diagnostics (w : Workspace) : List Diagnostic := w.session.diagnostics

def tell (w : Workspace) (e : Event) : Workspace := { w with log := w.log.push e }

def report (w : Workspace) (d : Diagnostic) : Workspace := { w with session := w.session.report d }

/-- Adds a node to the program. -/
def push (w : Workspace) (kind : Node.Kind) (location : Location) : NodeId × Workspace :=
  let (id, program) := w.program.push kind location
  (id, { w with program })

def bind (w : Workspace) (name : String) (node : NodeId) : Option NodeId × Workspace :=
  let (old, shared) := w.session.bind w.shared name node
  (old, { w with shared })

def find? (w : Workspace) (name : String) : Option NodeId := w.session.find? w.shared name

/-- Puts the diagnostics in the order of their locations. -/
def sortDiagnostics (w : Workspace) : Workspace :=
  { w with session := { w.session with diagnostics := Diagnostics.sorted w.diagnostics } }

end Workspace

end Assembler
