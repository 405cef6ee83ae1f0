import Assembler.Assembly
/-!
# What was collected before

Reading and resolving a program add to the diagnostics and to the log, and look at neither. So a
run that starts with some of both ends as one that starts with none, except that these come first:
`Draft.read_behind`, `Workspace.resolve_behind`. In particular the log of a source never decides
what becomes of it (`Source.analyze_behind`).
-/

namespace Assembler

/-! ## Workspaces -/

namespace Workspace

/-- The workspace with diagnostics and events put before its own. -/
def behind (w : Workspace) (ds : List Diagnostic) (log : Log) : Workspace :=
  { w with
    session := { w.session with diagnostics := ds ++ w.session.diagnostics }
    log := log ++ w.log }

variable (ds : List Diagnostic) (log : Log) (w : Workspace)

@[simp] theorem program_behind : (w.behind ds log).program = w.program := rfl

@[simp] theorem shared_behind : (w.behind ds log).shared = w.shared := rfl

@[simp] theorem diagnostics_behind : (w.behind ds log).diagnostics = ds ++ w.diagnostics := rfl

@[simp] theorem log_behind : (w.behind ds log).log = log ++ w.log := rfl

@[simp] theorem find?_behind (name : String) : (w.behind ds log).find? name = w.find? name := rfl

@[simp] theorem tell_behind (e : Event) : (w.behind ds log).tell e = (w.tell e).behind ds log := by
  simp [tell, behind]

@[simp] theorem report_behind (d : Diagnostic) :
    (w.behind ds log).report d = (w.report d).behind ds log := by
  simp [report, Session.report, behind]

@[simp] theorem push_behind (kind : Node.Kind) (location : Location) :
    (w.behind ds log).push kind location =
      ((w.push kind location).1, (w.push kind location).2.behind ds log) := rfl

@[simp] theorem bind_behind (name : String) (node : NodeId) :
    (w.behind ds log).bind name node = ((w.bind name node).1, (w.bind name node).2.behind ds log) := rfl

@[simp] theorem reject_behind (cause : Cause) (location : Location) (context : Option String) :
    (w.behind ds log).reject cause location context = (w.reject cause location context).behind ds log := by
  simp [reject]

/-! ## Terms -/

theorem interpolation_behind (t : Token) :
    interpolation t (w.behind ds log) =
      ((interpolation t w).1, (interpolation t w).2.behind ds log) := by
  simp only [interpolation, behind, Session.child, Session.absorb, List.append_assoc, Prod.mk.injEq, true_and,
    Workspace.mk.injEq]
  simp [← Array.toList_inj]

theorem literal_behind (t : Token) (kind : Option Node.Kind) (complaint : String) :
    literal t kind complaint (w.behind ds log) =
      ((literal t kind complaint w).1, (literal t kind complaint w).2.behind ds log) := by
  cases kind <;> simp [literal]

theorem term_behind (t : Token) :
    term t (w.behind ds log) = ((term t w).1, (term t w).2.behind ds log) := by
  unfold term
  split <;> simp [literal_behind, interpolation_behind, slot]

/-! ## Statements -/

/-- A reading whose workspace has diagnostics and events put before its own. -/
def Reading.behind {α : Type} (r : Reading α) : Reading α :=
  { r with workspace := r.workspace.behind ds log }

theorem arguments_behind (tokens : List Token) :
    arguments tokens (w.behind ds log) = (arguments tokens w).behind ds log := by
  fun_induction arguments tokens w with
  | case1 => rfl
  | case2 w t rest h => simp [arguments, h, Reading.behind]
  | case3 w t rest h w' hterm => simp [arguments, h, term_behind, hterm, Reading.behind]
  | case4 w t rest h id w' hterm more ih =>
    simp only [arguments, h, term_behind, hterm, ih, if_false]
    rfl

theorem limitArguments_behind (t : Token) (count : Nat) :
    (w.behind ds log).limitArguments t count = (w.limitArguments t count).behind ds log := by
  unfold limitArguments
  split <;> simp

theorem requireClosed_behind (closed : Bool) (location : Location) :
    (w.behind ds log).requireClosed closed location = (w.requireClosed closed location).behind ds log := by
  unfold requireClosed
  split <;> simp

theorem directive_behind (t : Token) (rest : List Token) :
    directive t rest (w.behind ds log) = (directive t rest w).behind ds log := by
  simp [directive, arguments_behind, limitArguments_behind, requireClosed_behind, Reading.behind]

theorem label_behind (t : Token) (rest : List Token) :
    label t rest (w.behind ds log) = (label t rest w).behind ds log := by
  simp only [label, push_behind, bind_behind, Reading.behind]
  split <;> simp

theorem operand_behind (statement rest : List Token) :
    operand statement rest (w.behind ds log) = (operand statement rest w).behind ds log := by
  unfold operand
  split
  · simp [Reading.behind]
  · split <;> simp [Reading.behind, term_behind]

theorem command_behind (t : Token) (rest : List Token) :
    command t rest (w.behind ds log) = (command t rest w).behind ds log := by
  unfold command
  split
  · simp only [operand_behind, Reading.behind]
    split <;> simp [*]
  · split
    · simp only [operand_behind, Reading.behind]
      split <;> simp [*]
    · simp [term_behind, Reading.behind]

theorem statement_behind (t : Token) (rest : List Token) :
    statement t rest (w.behind ds log) = (statement t rest w).behind ds log := by
  unfold statement
  split
  · exact directive_behind ..
  · exact label_behind ..
  · exact command_behind ..
  · simp [term_behind, Reading.behind]

theorem endOfStatement_behind (tokens : List Token) :
    endOfStatement tokens (w.behind ds log) =
      ((endOfStatement tokens w).1, (endOfStatement tokens w).2.behind ds log) := by
  unfold endOfStatement
  split
  · rfl
  · split <;> simp

end Workspace

/-! ## Programs -/

namespace Draft

/-- The draft with diagnostics, events and statements put before its own. -/
def behind (d : Draft) (ds : List Diagnostic) (log : Log) (hoisted others : Array NodeId) : Draft :=
  { toWorkspace := d.toWorkspace.behind ds log
    hoisted := hoisted ++ d.hoisted
    others := others ++ d.others }

/-- The draft without what it has collected; nodes and bindings stay. -/
def emptied (d : Draft) : Draft :=
  { toWorkspace := { d.toWorkspace with session := { d.session with diagnostics := [] }, log := #[] } }

theorem emptied_behind (d : Draft) :
    d.emptied.behind d.diagnostics d.log d.hoisted d.others = d := by
  simp [emptied, behind, Workspace.behind, Workspace.diagnostics]

variable (ds : List Diagnostic) (log : Log) (hoisted others : Array NodeId)

@[simp] theorem toWorkspace_behind (d : Draft) :
    (d.behind ds log hoisted others).toWorkspace = d.toWorkspace.behind ds log := rfl

@[simp] theorem hoisted_behind (d : Draft) :
    (d.behind ds log hoisted others).hoisted = hoisted ++ d.hoisted := rfl

@[simp] theorem others_behind (d : Draft) :
    (d.behind ds log hoisted others).others = others ++ d.others := rfl

theorem add_behind (d : Draft) (id : NodeId) :
    (d.behind ds log hoisted others).add id = (d.add id).behind ds log hoisted others := by
  simp only [add, behind, Workspace.program_behind]
  by_cases h : (d.program.kind? id).any (·.isHoisted) = true
  · simp only [h, if_true, Array.append_push]
  · simp only [h, Bool.false_eq_true, if_false, Array.append_push]

theorem readLine_behind (t : Token) (rest : List Token) (d : Draft) :
    readLine t rest (d.behind ds log hoisted others) =
      ((readLine t rest d).1, (readLine t rest d).2.behind ds log hoisted others) := by
  have hd (w : Workspace) :
      ({ toWorkspace := w.behind ds log, hoisted := hoisted ++ d.hoisted, others := others ++ d.others } : Draft) =
        ({ toWorkspace := w, hoisted := d.hoisted, others := d.others } : Draft).behind ds log hoisted others := rfl
  simp only [readLine, toWorkspace_behind, Workspace.statement_behind, Workspace.Reading.behind]
  split
  · rfl
  · simp only [hoisted_behind, others_behind, Workspace.tell_behind, Workspace.program_behind, hd, add_behind,
      toWorkspace_behind, Workspace.endOfStatement_behind]
    rfl

theorem read_behind (tokens : List Token) (d : Draft) :
    read tokens (d.behind ds log hoisted others) = (read tokens d).behind ds log hoisted others := by
  fun_induction read tokens d with
  | case1 => simp [read]
  | case2 d t rest h ih => rw [read, if_pos h, ih]
  | case3 d t rest h ih => rw [read, if_neg h, readLine_behind, ih]

theorem finish_behind (d : Draft) : (d.behind [] log #[] #[]).finish = d.finish.behind [] log := by
  simp [finish, behind, Workspace.tell, Workspace.behind, Workspace.diagnostics]

end Draft

namespace Workspace

variable (log : Log)

theorem parse_behind (file : String) (tokens : List Token) (w : Workspace) :
    parse file tokens (w.behind [] log) = (parse file tokens w).behind [] log := by
  have hd (w : Workspace) : ({ toWorkspace := w.behind [] log } : Draft) =
      ({ toWorkspace := w } : Draft).behind [] log #[] #[] := by simp [Draft.behind]
  simp only [parse, tell_behind, hd, Draft.read_behind, Draft.finish_behind]

/-- A program is read as it is without a log. -/
theorem exists_parse_eq (file : String) (tokens : List Token) :
    ∃ log', parse file tokens { log } = (Draft.read tokens {}).finish.behind [] log' := by
  refine ⟨log.push ⟨.debug, .phase .parser, "Parsing started", [("file", .plain file), ("tokens", .nat tokens.length)]⟩, ?_⟩
  have hd (log : Log) : ({ toWorkspace := { log } } : Draft) = ({} : Draft).behind [] log #[] #[] := by
    simp [Draft.behind, behind]
  rw [← Draft.finish_behind, ← Draft.read_behind, ← hd]
  rfl

/-! ## Names -/

variable (ds : List Diagnostic)

theorem resolveIdentifier_behind (w : Workspace) (id : NodeId) (name : String) :
    (w.behind ds log).resolveIdentifier id name = (w.resolveIdentifier id name).behind ds log := by
  simp only [resolveIdentifier, find?_behind]
  split
  · simp [behind, tell]
  · simp

theorem checkTarget_behind (w : Workspace) (target : NodeId) :
    (w.behind ds log).checkTarget target = (w.checkTarget target).behind ds log := by
  simp only [checkTarget, program_behind]
  split <;> simp

theorem resolveWithin_behind (depth : Nat) (id : NodeId) (w : Workspace) :
    resolveWithin depth id (w.behind ds log) = (resolveWithin depth id w).behind ds log := by
  induction depth generalizing id w with
  | zero => rfl
  | succ depth ih =>
    have fold (ids : List NodeId) (w : Workspace) :
        ids.foldl (fun w a => resolveWithin depth a w) (w.behind ds log) =
          (ids.foldl (fun w a => resolveWithin depth a w) w).behind ds log := by
      induction ids generalizing w with
      | nil => rfl
      | cons a as more => rw [List.foldl_cons, ih, more, List.foldl_cons]
    simp only [resolveWithin, program_behind]
    split
    · exact fold ..
    · rfl
    · exact resolveIdentifier_behind ..
    · rw [ih, checkTarget_behind]
    · rw [ih, ih]
    · rfl

theorem resolve_behind (w : Workspace) : (w.behind ds log).resolve = w.resolve.behind ds log := by
  have fold (ids : List NodeId) (w : Workspace) :
      ids.foldl resolveStatement (w.behind ds log) = (ids.foldl resolveStatement w).behind ds log := by
    induction ids generalizing w with
    | nil => rfl
    | cons id ids ih => simp [resolveStatement, resolveWithin_behind, ih]
  simp [resolve, fold, Nat.add_sub_add_left]

end Workspace

/-- What becomes of a source does not hang on what was logged before. -/
theorem Source.analyze_behind (s : Source) (log : Log) (w : Workspace) :
    s.analyze (w.behind [] log) = (s.analyze w).behind [] log := by
  simp only [analyze, parse, ← Workspace.resolve_behind]
  rw [← Workspace.parse_behind]
  congr 2
  simp [Workspace.behind, ← Array.toList_inj]

end Assembler
