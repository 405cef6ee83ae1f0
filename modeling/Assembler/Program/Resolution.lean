import Assembler.Workspace
/-!
# Name resolution

Every name in a program is bound to the label declared under it. Declarations and directives are
walked first, as they stand first among the statements, so a name in a directive sees the
declarations before it, and any other name sees them all.
-/

namespace Assembler.Workspace

/-- Binds a name to what it stands for, or reports it. -/
def resolveIdentifier (w : Workspace) (id : NodeId) (name : String) : Workspace :=
  match w.find? name with
  | some target =>
    let w := w.tell ⟨.trace, .phase .analyzer, "Resolved identifier",
      [("name", .text name), ("node", .plain (NodeId.text target))]⟩
    { w with program := w.program.setBinding id target }
  | none =>
    w.report { cause := .undeclaredIdentifier, location := w.program.location id, context := some name }

/-- A jump may lead anywhere but to a string literal. -/
def checkTarget (w : Workspace) (target : NodeId) : Workspace :=
  match (w.program.deepValueOf target).bind w.program.kind? with
  | some (.string value) =>
    w.report {
      cause := .illegalExpression, location := w.program.location target
      context := some ("cannot jump to string literal " ++ Text.quoted value) }
  | _ => w

/-- Resolves the names a node is made of, down to a depth. -/
def resolveWithin : (depth : Nat) → NodeId → Workspace → Workspace
  | 0, _, w => w
  | depth + 1, id, w =>
    match w.program.kind? id with
    | some (.directive _ arguments _) => arguments.foldl (fun w a => resolveWithin depth a w) w
    | some (.labelDecl name label) => (w.bind name label).2
    | some (.identifier name _) => w.resolveIdentifier id name
    | some (.jump _ target) => (resolveWithin depth target w).checkTarget target
    | some (.compare left right) => resolveWithin depth right (resolveWithin depth left w)
    | _ => w

/-- Resolves the names of a statement. -/
def resolveStatement (w : Workspace) (id : NodeId) : Workspace := resolveWithin w.program.size id w

/-- Resolves all names of the program, statement by statement. -/
def resolve (w : Workspace) : Workspace :=
  let resolved := w.program.statements.foldl resolveStatement w
  resolved.tell ⟨.debug, .phase .analyzer, "Analysis finished",
    [("statements", .nat w.program.statements.length),
      ("diagnostics", .nat (resolved.diagnostics.length - w.diagnostics.length))]⟩

/-- Resolves all names of the program, and counts the diagnostics that this adds. -/
def resolveCounting (w : Workspace) : Nat × Workspace :=
  let resolved := w.resolve
  (resolved.diagnostics.length - w.diagnostics.length, resolved)

end Assembler.Workspace
