import Assembler.Token
/-!
# Token streams

A list of tokens with a reading position that never leaves it.
-/

namespace Assembler

/-- Tokens already read, the latest first, and tokens still to read. -/
structure TokenStream where
  file : String
  before : List Token := []
  after : List Token := []
  deriving DecidableEq, Repr

namespace TokenStream

def tokens (s : TokenStream) : List Token := s.before.reverse ++ s.after

def position (s : TokenStream) : Nat := s.before.length

def append (s : TokenStream) (tokens : List Token) : TokenStream :=
  { s with after := s.after ++ tokens }

def peek (s : TokenStream) (ahead : Nat) : Option Token := s.after[ahead]?

def next? (s : TokenStream) : Option (Token × TokenStream) :=
  match s.after with
  | [] => none
  | t :: rest => some (t, { s with before := t :: s.before, after := rest })

/-- The stream some tokens further back, or at its start. -/
def rewind (n : Nat) (s : TokenStream) : TokenStream :=
  { s with before := s.before.drop n, after := (s.before.take n).reverse ++ s.after }

def reset (s : TokenStream) : TokenStream := s.rewind s.position

def hasNext (s : TokenStream) : Bool := !s.after.isEmpty

theorem tokens_rewind (n : Nat) (s : TokenStream) : (s.rewind n).tokens = s.tokens := by
  simp [tokens, rewind, ← List.append_assoc, ← List.reverse_append]

end TokenStream

end Assembler
