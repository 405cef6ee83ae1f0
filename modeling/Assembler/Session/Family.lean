import Assembler.Session
/-!
# Families of sessions

All sessions grown from one root, with what they share. A session that was absorbed is gone.
-/

namespace Assembler

structure Family where
  shared : Shared := {}
  members : Array (Option Session) := #[some {}]
  deriving DecidableEq, Repr, Inhabited

namespace Family

/-- A member that has not been absorbed. -/
def member? (f : Family) (handle : Nat) : Option Session := f.members[handle]?.bind id

def update (f : Family) (handle : Nat) (change : Session → Session) : Family :=
  { f with members := f.members.modify handle (·.map change) }

/-- A new child of a member, and its handle. -/
def child (f : Family) (handle : Nat) : Option (Nat × Family) :=
  (f.member? handle).map fun s =>
    let (c, shared) := s.child f.shared
    (f.members.size, { shared, members := f.members.push (some c) })

/-- Lets one member absorb another. -/
def absorb (f : Family) (handle absorbed : Nat) : Option Family :=
  if handle = absorbed then none else
  match f.member? handle, f.member? absorbed with
  | some s, some c =>
    let (s, shared) := s.absorb c f.shared
    some { shared, members := (f.members.set! absorbed none).set! handle (some s) }
  | _, _ => none

def bind (f : Family) (handle : Nat) (name : String) (node : NodeId) : Option (Option NodeId × Family) :=
  (f.member? handle).map fun s =>
    let (old, shared) := s.bind f.shared name node
    (old, { f with shared })

def find? (f : Family) (handle : Nat) (name : String) : Option NodeId :=
  (f.member? handle).bind fun s => s.find? f.shared name

end Family

end Assembler
