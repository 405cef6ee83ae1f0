import Assembler.Place
import Assembler.Source.Location
/-!
# Nodes

A program is made of nodes that name each other by their index in one array.
-/

namespace Assembler

/-- The index of a node. -/
abbrev NodeId := Nat

/-- When a jump is taken. -/
inductive Condition
  | always | equal | notEqual | greater | greaterOrEqual
  deriving DecidableEq, Repr, Inhabited

namespace Condition

def all : List Condition := [.always, .equal, .notEqual, .greater, .greaterOrEqual]

def mnemonic : Condition → String
  | always => "jmp"
  | equal => "je"
  | notEqual => "jne"
  | greater => "jg"
  | greaterOrEqual => "jge"

def ofMnemonic? (s : String) : Option Condition := all.find? (·.mnemonic = s)

end Condition

namespace Node

inductive Kind
  /-- A named directive with its arguments, and its body as the text of tokens. -/
  | directive (name : String) (arguments : List NodeId) (body : String)
  /-- The declaration of a label node. -/
  | labelDecl (name : String) (label : NodeId)
  | label (name : String)
  /-- A name, and the node it was found to stand for. -/
  | identifier (name : String) (binding : Option NodeId)
  | integer (value : Int64)
  | string (value : String)
  /-- A slot written out by its index. -/
  | slot (store : Store) (index : UInt32)
  | jump (condition : Condition) (target : NodeId)
  | compare (left right : NodeId)
  deriving DecidableEq, Repr, Inhabited

namespace Kind

/-- Declarations and directives come before all other statements. -/
def isHoisted : Kind → Bool
  | directive .. | labelDecl .. => true
  | _ => false

/-- Whether a node can be an operand. -/
def isExpression : Kind → Bool
  | label _ | identifier .. | integer _ | string _ | slot .. => true
  | _ => false

/-- The nodes that a node is made of; what a name stands for is not part of it. -/
def children : Kind → List NodeId
  | directive _ arguments _ => arguments
  | labelDecl _ declared => [declared]
  | jump _ target => [target]
  | compare left right => [left, right]
  | _ => []

end Kind

end Node

structure Node where
  kind : Node.Kind
  location : Location
  /-- Where the node's value is found, once bytecode has been made for it. -/
  place : Option Place := none
  deriving DecidableEq, Repr, Inhabited

end Assembler
