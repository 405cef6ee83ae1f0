import Assembler.Log.Event
import Assembler.Node
/-!
# Programs

All nodes of a program in one array, and its statements in the order in which they take effect.
Nodes are only added; what a node is made of is named by index.

Walks over a program count down the nodes that may still lie on the way, at first all of them: a
way that meets no node twice is never cut off.
-/

namespace Assembler

/-- How a node is named in logs and reports. -/
def NodeId.text (id : NodeId) : String := "#" ++ Text.decimal id

structure Program where
  nodes : Array Node := #[]
  statements : List NodeId := []
  deriving DecidableEq, Repr, Inhabited

namespace Program

def size (p : Program) : Nat := p.nodes.size

def node? (p : Program) (id : NodeId) : Option Node := p.nodes[id]?

def kind? (p : Program) (id : NodeId) : Option Node.Kind := (p.node? id).map (·.kind)

/-- Where a node was read; nowhere in particular if there is no such node. -/
def location (p : Program) (id : NodeId) : Location := ((p.node? id).map (·.location)).getD {}

def place? (p : Program) (id : NodeId) : Option Place := (p.node? id).bind (·.place)

/-- The program with one more node, and the node's index. -/
def push (p : Program) (kind : Node.Kind) (location : Location) : NodeId × Program :=
  (p.nodes.size, { p with nodes := p.nodes.push { kind, location } })

def addStatement (p : Program) (id : NodeId) : Program :=
  { p with statements := p.statements ++ [id] }

def modify (p : Program) (id : NodeId) (change : Node → Node) : Program :=
  { p with nodes := p.nodes.modify id change }

def setKind (p : Program) (id : NodeId) (kind : Node.Kind) : Program :=
  p.modify id fun n => { n with kind }

/-- Lets a name stand for a node. -/
def setBinding (p : Program) (id : NodeId) (target : NodeId) : Program :=
  p.modify id fun n =>
    match n.kind with
    | .identifier name _ => { n with kind := .identifier name (some target) }
    | _ => n

def setPlace (p : Program) (id : NodeId) (place : Place) : Program :=
  p.modify id fun n => { n with place := some place }

/-! ## What a node stands for -/

/-- What a node stands for by itself: a name for its binding, a declaration for its label, any other for itself. -/
def valueOf (p : Program) (id : NodeId) : NodeId :=
  match p.kind? id with
  | some (.identifier _ (some target)) => target
  | some (.labelDecl _ label) => label
  | _ => id

/-- The node reached in fewer than `steps` steps that stands for itself. -/
def valueWithin (p : Program) : (steps : Nat) → NodeId → Option NodeId
  | 0, _ => none
  | steps + 1, id =>
    let next := p.valueOf id
    if next = id then some id else valueWithin p steps next

/-- The node that a node stands for in the end; none if that leads round in a circle. -/
def deepValueOf (p : Program) (id : NodeId) : Option NodeId := p.valueWithin (p.size + 1) id

/-! ## Text -/

/-- A node as source text, given the text of its children. -/
def kindText (childText : NodeId → String) : Node.Kind → String
  | .directive name arguments body =>
    "." ++ name ++ String.join (arguments.map fun a => " " ++ childText a)
      ++ if body.isEmpty then "" else " \x7b " ++ body ++ "\x7d"
  | .labelDecl name _ => name ++ ":"
  | .label name => name
  | .identifier name _ => name
  | .integer value => Text.signed value.toInt
  | .string value => Text.quoted value
  | .slot store index =>
    match store with
    | .register => "$" ++ Text.decimal index.toNat
    | .localSlot => "%" ++ Text.decimal index.toNat
    | other => other.name ++ "[" ++ Text.decimal index.toNat ++ "]"
  | .jump condition target => condition.mnemonic ++ " " ++ childText target
  | .compare left right => "cmp " ++ childText left ++ " " ++ childText right

/-- The text of a node down to a depth. -/
def textWithin (p : Program) : (depth : Nat) → NodeId → String
  | 0, _ => ""
  | depth + 1, id =>
    match p.kind? id with
    | some kind => kindText (textWithin p depth) kind
    | none => ""

/-- A node as source text. -/
def text (p : Program) (id : NodeId) : String := p.textWithin p.size id

/-- The statements as source text, one line each. -/
def dump (p : Program) : String := "\n".intercalate (p.statements.map p.text)

/-! ## Copies -/

/-- A node's kind with its children replaced one after the other; names lose what they stand for. -/
def copyKind {m : Type → Type} [Monad m] (copyChild : NodeId → m NodeId) : Node.Kind → m Node.Kind
  | .directive name arguments body => return .directive name (← arguments.mapM copyChild) body
  | .labelDecl name label => return .labelDecl name (← copyChild label)
  | .identifier name _ => return .identifier name none
  | .jump condition target => return .jump condition (← copyChild target)
  | .compare left right => return .compare (← copyChild left) (← copyChild right)
  | kind => return kind

/-- Copies a node and what it is made of, down to a depth. -/
def copyWithin : (depth : Nat) → NodeId → StateM Program NodeId
  | 0, id => return id
  | depth + 1, id => do
    match (← get).node? id with
    | none => return id
    | some node =>
      let kind ← copyKind (copyWithin depth) node.kind
      modifyGet fun p => p.push kind node.location

/-- A copy of a node made of new nodes throughout, children first; without places and bindings. -/
def copy (p : Program) (id : NodeId) : NodeId × Program := (copyWithin p.size id).run p

/-! ## Optimisation -/

/-- The nodes without children that a node is made of, down to a depth. -/
def leavesWithin (p : Program) : (depth : Nat) → NodeId → List NodeId
  | 0, _ => []
  | depth + 1, id =>
    match p.kind? id with
    | some kind =>
      match kind with
      | .directive _ arguments _ => arguments.flatMap (leavesWithin p depth)
      | .labelDecl _ label => leavesWithin p depth label
      | .jump _ target => leavesWithin p depth target
      | .compare left right => leavesWithin p depth left ++ leavesWithin p depth right
      | _ => [id]
    | none => []

/-- Looks at every operand of every statement for something to improve, and finds nothing. -/
def optimize (p : Program) : Program × List Event :=
  (p, p.statements.flatMap fun s => (p.leavesWithin p.size s).map fun id =>
    ⟨.trace, .phase .compiler, "Nothing to optimize", [("node", .plain id.text)]⟩)

end Program

end Assembler
