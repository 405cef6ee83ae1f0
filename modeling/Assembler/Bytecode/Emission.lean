import Assembler.Bytecode.Chunk
import Assembler.Workspace
/-!
# Emission

A resolved program as instructions. An operand's instruction comes before the statement that needs
it, and is made once however many statements need it: a node that has a place is not built again.
-/

namespace Assembler

/-- Why no bytecode was made. -/
inductive EmitError
  | fatalDiagnostics (count : Nat)
  | placeReassigned (node : NodeId)
  | unresolvedReference (name : String) (location : Location)
  | tooManyArguments (name : String) (count : Nat) (location : Location)
  | notAnOperand (node : NodeId) (location : Location)
  /-- The node is needed for its own place. -/
  | endless (node : NodeId)
  deriving DecidableEq, Repr

namespace EmitError

def location? : EmitError → Option Location
  | unresolvedReference _ location => some location
  | tooManyArguments _ _ location => some location
  | notAnOperand _ location => some location
  | _ => none

def message : EmitError → String
  | fatalDiagnostics count =>
    "refusing to emit bytecode: " ++ Text.decimal count ++ " fatal diagnostic(s) reported"
  | placeReassigned node =>
    "object location of node " ++ NodeId.text node ++ " is already assigned"
  | unresolvedReference name location => location.text ++ ": unresolved reference '" ++ name ++ "'"
  | tooManyArguments name count location =>
    location.text ++ ": directive '" ++ name ++ "' has " ++ Text.decimal count
      ++ " arguments (max 255)"
  | notAnOperand node location =>
    location.text ++ ": node " ++ NodeId.text node ++ " has no object location"
  | endless node => "node " ++ NodeId.text node ++ " refers to itself"

end EmitError

/-- A program on its way to bytecode. -/
structure Emission where
  program : Program
  shared : Shared
  /-- The instructions made so far, each with its source line. -/
  code : Array (Instruction × Nat) := #[]
  /-- The line of the node whose building began last. -/
  line : Nat := 1
  log : Log := #[]
  deriving DecidableEq, Repr

/-- A step of emission; one that fails keeps what was done before. -/
abbrev Emit := EStateM EmitError Emission

namespace Emission

def emit (i : Instruction) (line : Nat) : Emit Unit :=
  modify fun e => { e with code := e.code.push (i, line) }

def tell (event : Event) : Emit Unit := modify fun e => { e with log := e.log.push event }

/-- A node's place, once it has one. -/
def place? (id : NodeId) : Emit (Option Place) := return (← get).program.place? id

/-- Gives a node its place, which stays the same from then on. -/
def assign (id : NodeId) (place : Place) : Emit Unit := do
  if (← place? id).isSome then throw (.placeReassigned id)
  modify fun e => { e with program := e.program.setPlace id place }

/-- A new place in the static data area. -/
def allocate (entry : Static) : Emit Place :=
  modifyGet fun e =>
    let (slot, shared) := e.shared.addStatic entry
    (Place.static slot, { e with shared })

/-- Begins a node: its line is the last one begun. -/
def start (id : NodeId) : Emit Unit := do
  let p := (← get).program
  modify fun e => { e with line := (p.location id).line }
  tell ⟨.trace, .phase .compiler, "Building node",
    [("node", .plain (NodeId.text id)), ("source", .plain (p.text id))]⟩

/-- Makes the instructions of a node of some kind, given how to find the places of its operands. -/
def buildKind (locate : NodeId → Emit Place) (id : NodeId) (location : Location) : Node.Kind → Emit Unit
  | .directive name arguments body => do
    if arguments.length > 255 then
      throw (.tooManyArguments name arguments.length location)
    let places ← arguments.mapM locate
    emit (.directive name places body) location.line
  | .labelDecl _ label => discard (locate label)
  | .label name => do
    let place ← allocate (.label name)
    assign id place
    emit (.label place) location.line
  | .identifier name none => throw (.unresolvedReference name location)
  | .identifier _ (some target) => do
    let place ← locate target
    assign id place
  | .integer value => do
    let place ← allocate (.integer value)
    assign id place
    emit (.loadInt place value) location.line
  | .string value => do
    let place ← allocate (.string value)
    assign id place
    emit (.loadString place value) location.line
  | .slot store index => assign id ⟨store, index⟩
  | .jump condition target => do
    let place ← locate target
    emit (.jump condition place) location.line
  | .compare left right => do
    let left ← locate left
    let right ← locate right
    emit (.compare left right) location.line

/-- Makes the instructions of a node. -/
def build (locate : NodeId → Emit Place) (id : NodeId) : Emit Unit := do
  start id
  let p := (← get).program
  match p.kind? id with
  | none => return
  | some kind => buildKind locate id (p.location id) kind

/-- The place of an operand, which is built if it has none yet, at most `depth` nodes deep. -/
def locate : (depth : Nat) → NodeId → Emit Place
  | 0, id => throw (.endless id)
  | depth + 1, id => do
    match ← place? id with
    | some place => return place
    | none =>
      build (locate depth) id
      match ← place? id with
      | some place => return place
      | none => throw (.notAnOperand id ((← get).program.location id))

/-- Builds a statement, unless its node was already built as an operand. -/
def statement (depth : Nat) (id : NodeId) : Emit Unit := do
  if (← place? id).isNone then build (locate depth) id

/-- Builds all statements; the program ends with a halt. -/
def all (diagnostics : List Diagnostic) : Emit Unit := do
  if Diagnostics.hasFatal diagnostics then
    throw (.fatalDiagnostics (Diagnostics.fatalCount diagnostics))
  let p := (← get).program
  tell ⟨.debug, .phase .compiler, "Emitting bytecode", [("statements", .nat p.statements.length)]⟩
  p.statements.forM (statement p.size)
  emit .halt (← get).line

/-- The bytecode of all that was emitted. -/
def chunk (e : Emission) (tracksLines : Bool) : Chunk :=
  ({ tracksLines } : Chunk).writeAll e.code.toList

end Emission

namespace Workspace

/-- Makes bytecode of a program, with or without its lines; what was done before a failure stays done. -/
def emit (w : Workspace) (tracksLines : Bool := true) : Except EmitError Chunk × Workspace :=
  let after (e : Emission) : Workspace :=
    { w with program := e.program, shared := e.shared, log := w.log ++ e.log }
  match (Emission.all w.diagnostics).run { program := w.program, shared := w.shared } with
  | .error error e => (.error error, after e)
  | .ok _ e =>
    let chunk := e.chunk tracksLines
    (.ok chunk, (after e).tell ⟨.debug, .phase .compiler, "Bytecode emitted",
      [("bytes", .nat chunk.code.length), ("statics", .nat e.shared.statics.size)]⟩)

end Workspace

end Assembler
