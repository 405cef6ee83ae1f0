import Assembler.Node
/-!
# Symbol tables

Scopes in the order they were opened, each with the scope around it and the names bound in it. A
name is looked up in a scope, then in the scopes around it.
-/

namespace Assembler

/-- The index of a scope in its table. -/
abbrev ScopeId := Nat

/-- The names bound in a scope, the latest binding first, and the scope around it. -/
structure Scope where
  parent : Option ScopeId := none
  bindings : List (String × NodeId) := []
  deriving DecidableEq, Repr, Inhabited

namespace Scope

def find? (s : Scope) (name : String) : Option NodeId := s.bindings.lookup name

def bind (s : Scope) (name : String) (node : NodeId) : Scope :=
  { s with bindings := (name, node) :: s.bindings }

end Scope

structure SymbolTable where
  scopes : Array Scope := #[{}]
  deriving DecidableEq, Repr, Inhabited

namespace SymbolTable

/-- The outermost scope, which every table has. -/
def root : ScopeId := 0

def scopeCount (t : SymbolTable) : Nat := t.scopes.size

def parent? (t : SymbolTable) (scope : ScopeId) : Option ScopeId :=
  t.scopes[scope]?.bind (·.parent)

/-- Opens a scope inside another. -/
def openScope (t : SymbolTable) (parent : ScopeId) : ScopeId × SymbolTable :=
  (t.scopes.size, { scopes := t.scopes.push { parent := some parent } })

/-- Closes a scope if it is the one opened last and not the root. -/
def closeScope (t : SymbolTable) (scope : ScopeId) : Bool × SymbolTable :=
  if scope ≠ root ∧ scope + 1 = t.scopes.size then (true, { scopes := t.scopes.pop })
  else (false, t)

/-- What a name is bound to in a scope itself. -/
def findLocal? (t : SymbolTable) (scope : ScopeId) (name : String) : Option NodeId :=
  t.scopes[scope]?.bind (·.find? name)

/-- Binds a name in a scope, in place of what it was bound to there; a scope that is gone binds nothing. -/
def bind (t : SymbolTable) (scope : ScopeId) (name : String) (node : NodeId) :
    Option NodeId × SymbolTable :=
  (t.findLocal? scope name, { scopes := t.scopes.modify scope (·.bind name node) })

/-- Looks a name up in a scope and at most `steps - 1` scopes around it. -/
def findWithin (t : SymbolTable) (name : String) : (steps : Nat) → ScopeId → Option NodeId
  | 0, _ => none
  | steps + 1, scope =>
    match t.scopes[scope]? with
    | none => none
    | some s =>
      match s.find? name with
      | some node => some node
      | none =>
        match s.parent with
        | some parent => findWithin t name steps parent
        | none => none

/-- What a name is bound to as seen from a scope; a way outwards that takes more steps than there are scopes goes round. -/
def find? (t : SymbolTable) (scope : ScopeId) (name : String) : Option NodeId :=
  t.findWithin name t.scopes.size scope

end SymbolTable

end Assembler
