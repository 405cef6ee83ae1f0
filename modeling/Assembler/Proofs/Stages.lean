import Mathlib.Logic.Relation
import Mathlib.Tactic.Convert
import Mathlib.Tactic.Set
import Assembler.Program.Parser
import Assembler.Proofs.Arena
/-!
# What reading can do

Every reader of the parser changes its workspace in a few ways only: `Stage.Step`. A stage is a
workspace with the operands that no statement has taken yet and the statements made so far. The
readers are chains of steps (`steps_term` to `steps_read`), so what every step keeps, every
program that is read has.
-/

namespace Assembler

open Relation (ReflTransGen)

/-! ## Steps -/

namespace Node.Kind

/-- What is an operand by itself. -/
inductive IsLeaf : Kind → Prop
  | identifier (name : String) : IsLeaf (.identifier name none)
  | integer (value : Int64) : IsLeaf (.integer value)
  | string (value : String) : IsLeaf (.string value)
  | register (index : UInt32) : IsLeaf (.slot .register index)
  | localSlot (index : UInt32) : IsLeaf (.slot .localSlot index)

/-- What is a statement that takes operands. -/
def takesOperands : Kind → Bool
  | directive .. | jump .. | compare .. => true
  | _ => false

/-- A directive has as many arguments as it may have, or something was reported. -/
def Fits (ds : List Diagnostic) : Kind → Prop
  | directive _ arguments _ => arguments.length ≤ maxArguments ∨ ds ≠ []
  | _ => True

end Node.Kind

namespace Workspace

/-- What a name stands for in a session opened inside. -/
def findInside? (w : Workspace) (name : String) : Option NodeId :=
  (w.session.child w.shared).1.find? (w.session.child w.shared).2 name

/-- The workspace after a session inside it that reported some diagnostics. -/
def inside (w : Workspace) (ds : List Diagnostic) : Workspace :=
  let (child, shared) := w.session.child w.shared
  let (session, shared) := w.session.absorb { child with diagnostics := ds } shared
  { w with session, shared }

/-- A new label and its declaration, with the name bound to the label. -/
def declare (w : Workspace) (name : String) (location : Location) : NodeId × Workspace :=
  let (label, w) := w.push (.label name) location
  (w.bind name label).2.push (.labelDecl name label) location

end Workspace

/-- A workspace while it is read: the operands not taken yet and the statements made, the latest first. -/
structure Stage where
  workspace : Workspace
  operands : List NodeId := []
  statements : List NodeId := []

namespace Stage

inductive Step : Stage → Stage → Prop
  | log (w : Workspace) (log : Log) (os ss : List NodeId) : Step ⟨w, os, ss⟩ ⟨{ w with log }, os, ss⟩
  | report (w : Workspace) (d : Diagnostic) (os ss : List NodeId) (h : d.severity = .error) :
      Step ⟨w, os, ss⟩ ⟨w.report d, os, ss⟩
  | inside (w : Workspace) (ds : List Diagnostic) (os ss : List NodeId) (h : ∀ d ∈ ds, d.severity = .error) :
      Step ⟨w, os, ss⟩ ⟨w.inside ds, os, ss⟩
  /-- A new node that is an operand. -/
  | leaf (w : Workspace) (kind : Node.Kind) (location : Location) (os ss : List NodeId) (h : kind.IsLeaf) :
      Step ⟨w, os, ss⟩ ⟨(w.push kind location).2, (w.push kind location).1 :: os, ss⟩
  /-- A node with a name is an operand again. -/
  | named (w : Workspace) (name : String) (node : NodeId) (os ss : List NodeId)
      (h : w.findInside? name = some node) : Step ⟨w, os, ss⟩ ⟨w, node :: os, ss⟩
  /-- An operand of a statement that is given up. -/
  | drop (w : Workspace) (o : NodeId) (os ss : List NodeId) : Step ⟨w, o :: os, ss⟩ ⟨w, os, ss⟩
  /-- An operand that is a statement by itself. -/
  | bare (w : Workspace) (o : NodeId) (os ss : List NodeId) : Step ⟨w, o :: os, ss⟩ ⟨w, os, o :: ss⟩
  /-- A statement that takes the latest operands. -/
  | take (w : Workspace) (kind : Node.Kind) (location : Location) (os ss : List NodeId)
      (h : kind.takesOperands) (hfits : kind.Fits w.diagnostics) :
      Step ⟨w, kind.children.reverse ++ os, ss⟩ ⟨(w.push kind location).2, os, (w.push kind location).1 :: ss⟩
  | declare (w : Workspace) (name : String) (location : Location) (os ss : List NodeId) :
      Step ⟨w, os, ss⟩ ⟨(w.declare name location).2, os, (w.declare name location).1 :: ss⟩

/-- A stage that steps lead to. -/
abbrev Steps : Stage → Stage → Prop := ReflTransGen Step

theorem Step.steps {s s' : Stage} (h : Step s s') : Steps s s' := .single h

theorem Step.extends {s s' : Stage} (hs : Step s s') : s.workspace.program.Extends s'.workspace.program := by
  cases hs with
  | leaf | take => exact Program.extends_push ..
  | declare => exact (Program.extends_push ..).trans (Program.extends_push ..)
  | log | report | inside | named | drop | bare => exact .refl _

theorem Steps.extends {s s' : Stage} (hs : Steps s s') :
    s.workspace.program.Extends s'.workspace.program := by
  induction hs with
  | refl => exact .refl _
  | tail _ hstep ih => exact ih.trans hstep.extends

theorem Step.diagnostics_kept {s s' : Stage} (hs : Step s s') :
    s.workspace.diagnostics <+: s'.workspace.diagnostics := by
  cases hs with
  | report w d => exact ⟨[d], rfl⟩
  | inside w ds => exact ⟨ds, rfl⟩
  | log | leaf | named | drop | bare | take | declare => exact List.prefix_rfl

/-- What was reported once is never taken back. -/
theorem Steps.diagnostics_kept {s s' : Stage} (hs : Steps s s') :
    s.workspace.diagnostics <+: s'.workspace.diagnostics := by
  induction hs with
  | refl => exact List.prefix_rfl
  | tail _ hstep ih => exact ih.trans hstep.diagnostics_kept

end Stage

namespace Workspace

open Stage

variable (os ss : List NodeId) (w : Workspace)

theorem steps_tell (e : Event) : Steps ⟨w, os, ss⟩ ⟨w.tell e, os, ss⟩ := (Step.log ..).steps

theorem steps_reject (cause : Cause) (location : Location) (context : Option String) :
    Steps ⟨w, os, ss⟩ ⟨w.reject cause location context, os, ss⟩ :=
  (steps_tell ..).tail (Step.report _ _ _ _ rfl)

/-! ## Terms -/

/-- Looking for the first name that stands for a node only adds errors to the session. -/
theorem firstBound_eq (shared : Shared) (tokens : List Token) (s : Session) :
    ∃ ds, (∀ d ∈ ds, d.severity = .error) ∧
      (firstBound shared tokens s).2 = { s with diagnostics := s.diagnostics ++ ds } ∧
      ∀ node, (firstBound shared tokens s).1 = some node → ∃ name, s.find? shared name = some node := by
  fun_induction firstBound shared tokens s with
  | case1 => exact ⟨[], by simp⟩
  | case2 t rest s h node hnode =>
    refine ⟨[], by simp, by simp, fun _ h => ?_⟩
    cases h
    exact ⟨_, hnode⟩
  | case3 t rest s h hnone ih =>
    obtain ⟨ds, hds, hs, hnode⟩ := ih
    exact ⟨{ cause := .unresolvedIdentifier, location := t.location, context := some t.value } :: ds,
      List.forall_mem_cons.2 ⟨rfl, hds⟩, hs.trans (by simp [Session.report]), hnode⟩
  | case4 t rest s h ih =>
    obtain ⟨ds, hds, hs, hnode⟩ := ih
    exact ⟨{ cause := .expectedIdentifier, location := t.location } :: ds,
      List.forall_mem_cons.2 ⟨rfl, hds⟩, hs.trans (by simp [Session.report]), hnode⟩

/-- An interpolation adds errors and a log, and finds a node by its name or none. -/
theorem interpolation_eq (t : Token) :
    ∃ ds log, (∀ d ∈ ds, d.severity = .error) ∧ (interpolation t w).2 = { w.inside ds with log } ∧
      ∀ node, (interpolation t w).1 = some node → ∃ name, w.findInside? name = some node := by
  set child := (w.session.child w.shared).1 with hchild
  set start : Session :=
    if (tokensInside t).1.isEmpty then child.report { cause := .expectedIdentifier, location := t.location }
    else child with hstart
  -- An interpolation without tokens is reported before any of them is looked at.
  obtain ⟨ds, hds, hs, hnode⟩ := firstBound_eq (w.session.child w.shared).2 (tokensInside t).1 start
  have hfirst : ∃ first, (∀ d ∈ first, d.severity = .error) ∧ start = { child with diagnostics := first } := by
    rw [hstart]
    split
    · exact ⟨[_], by simp, rfl⟩
    · exact ⟨[], by simp, rfl⟩
  obtain ⟨first, hfirst, hstart'⟩ := hfirst
  refine ⟨first ++ ds, (interpolation t w).2.log, ?_, ?_, ?_⟩
  · simpa [or_imp, forall_and] using ⟨hfirst, hds⟩
  · simp only [interpolation, inside, ← hchild, ← hstart, hs]
    simp [hstart', Session.absorb]
  · intro node h
    obtain ⟨name, hname⟩ := hnode node h
    exact ⟨name, by rw [hstart'] at hname; exact hname⟩

theorem steps_interpolation (t : Token) :
    Steps ⟨w, os, ss⟩ ⟨(interpolation t w).2, (interpolation t w).1.toList ++ os, ss⟩ := by
  obtain ⟨ds, log, hds, hw, hnode⟩ := interpolation_eq w t
  rw [hw]
  have hafter (os : List NodeId) : Steps ⟨w, os, ss⟩ ⟨{ w.inside ds with log }, os, ss⟩ :=
    (Step.inside w ds os ss hds).steps.tail (Step.log ..)
  cases hfound : (interpolation t w).1 with
  | none => exact hafter os
  | some node =>
    obtain ⟨name, hname⟩ := hnode node hfound
    exact (hafter _).head (Step.named w name node os ss hname)

theorem steps_literal (t : Token) (kind : Option Node.Kind) (complaint : String)
    (h : ∀ k, kind = some k → k.IsLeaf) :
    Steps ⟨w, os, ss⟩ ⟨(literal t kind complaint w).2, (literal t kind complaint w).1.toList ++ os, ss⟩ := by
  cases kind with
  | none => exact steps_reject ..
  | some k => exact (Step.leaf w k t.location os ss (h k rfl)).steps

theorem steps_slot (t : Token) (store : Store) (h : ∀ index, Node.Kind.IsLeaf (.slot store index)) :
    Steps ⟨w, os, ss⟩ ⟨(slot t store w).2, (slot t store w).1.toList ++ os, ss⟩ := by
  refine steps_literal _ _ _ _ _ _ fun k hk => ?_
  obtain ⟨index, -, rfl⟩ := Option.map_eq_some_iff.1 hk
  exact h index

theorem steps_term (t : Token) : Steps ⟨w, os, ss⟩ ⟨(term t w).2, (term t w).1.toList ++ os, ss⟩ := by
  unfold term
  split
  · exact steps_literal _ _ _ _ _ _ fun k hk => by cases hk; exact .identifier _
  · refine steps_literal _ _ _ _ _ _ fun k hk => ?_
    obtain ⟨value, -, rfl⟩ := Option.map_eq_some_iff.1 hk
    exact .integer value
  · exact steps_literal _ _ _ _ _ _ fun k hk => by cases hk; exact .string _
  · exact steps_interpolation ..
  · exact steps_slot _ _ _ _ _ .register
  · exact steps_slot _ _ _ _ _ .localSlot
  · exact steps_reject ..
  · exact steps_reject ..

/-! ## Statements -/

theorem steps_arguments (tokens : List Token) :
    Steps ⟨w, os, ss⟩ ⟨(arguments tokens w).workspace, (arguments tokens w).value.reverse ++ os, ss⟩ := by
  fun_induction arguments tokens w generalizing os with
  | case1 => exact .refl
  | case2 => exact .refl
  | case3 t rest w h w' hterm =>
    have := steps_term os ss w t
    rwa [hterm] at this
  | case4 t rest w h id w' hterm more ih =>
    have := steps_term os ss w t
    rw [hterm] at this
    refine this.trans ?_
    simpa using ih (id :: os)

theorem steps_limitArguments (t : Token) (count : Nat) :
    Steps ⟨w, os, ss⟩ ⟨w.limitArguments t count, os, ss⟩ := by
  unfold limitArguments
  split
  · exact steps_reject ..
  · exact .refl

theorem steps_requireClosed (closed : Bool) (location : Location) :
    Steps ⟨w, os, ss⟩ ⟨w.requireClosed closed location, os, ss⟩ := by
  unfold requireClosed
  split
  · exact .refl
  · exact steps_reject ..

/-- What no report changes, the checks of a directive do not change. -/
theorem checks_of_reject {P : Workspace → Prop}
    (h : ∀ w cause location context, P w → P (w.reject cause location context)) {w : Workspace} (hw : P w) (t : Token)
    (count : Nat) (closed : Bool) (location : Location) : P ((w.limitArguments t count).requireClosed closed location) := by
  have hlimit : P (w.limitArguments t count) := by
    unfold limitArguments
    split
    · exact h _ _ _ _ hw
    · exact hw
  unfold requireClosed
  split
  · exact hlimit
  · exact h _ _ _ _ hlimit

theorem le_or_diagnostics_ne_nil (t : Token) (count : Nat) (closed : Bool) (location : Location) :
    count ≤ maxArguments ∨ ((w.limitArguments t count).requireClosed closed location).diagnostics ≠ [] := by
  by_cases h : count ≤ maxArguments
  · exact .inl h
  · right
    simp only [limitArguments, gt_iff_lt, Nat.not_le.1 h, if_true, requireClosed]
    split <;> simp [reject, report, Session.report, tell, diagnostics]

theorem steps_directive (t : Token) (rest : List Token) :
    Steps ⟨w, os, ss⟩ ⟨(directive t rest w).workspace, os, (directive t rest w).value.toList ++ ss⟩ := by
  set args := arguments rest w
  set body := optionalBody args.rest
  set kind : Node.Kind := .directive t.value args.value body.text
  set w' := (args.workspace.limitArguments t args.value.length).requireClosed body.closed
    (lastLocation (t :: rest))
  have h : Steps ⟨w, os, ss⟩ ⟨w', kind.children.reverse ++ os, ss⟩ :=
    (steps_arguments ..).trans ((steps_limitArguments ..).trans (steps_requireClosed ..))
  exact (h.trans (steps_tell ..)).tail
    (Step.take _ kind t.location os ss rfl (le_or_diagnostics_ne_nil args.workspace t _ _ _))

theorem exists_label_eq (t : Token) (rest : List Token) : ∃ log, label t rest w =
    ⟨some (w.declare t.value t.location).1, rest, { (w.declare t.value t.location).2 with log }⟩ := by
  simp only [label, declare]
  split <;> exact ⟨_, rfl⟩

theorem steps_label (t : Token) (rest : List Token) :
    Steps ⟨w, os, ss⟩ ⟨(label t rest w).workspace, os, (label t rest w).value.toList ++ ss⟩ := by
  obtain ⟨log, hlabel⟩ := exists_label_eq w t rest
  rw [hlabel]
  exact (Step.declare ..).steps.tail (Step.log ..)

theorem steps_operand (statement rest : List Token) :
    Steps ⟨w, os, ss⟩ ⟨(operand statement rest w).workspace, (operand statement rest w).value.toList ++ os, ss⟩ := by
  unfold operand
  split
  · exact steps_reject ..
  · split
    · exact steps_reject ..
    · exact steps_term ..

/-- A term that is a statement by itself. -/
theorem steps_bare (t : Token) : Steps ⟨w, os, ss⟩ ⟨(term t w).2, os, (term t w).1.toList ++ ss⟩ := by
  have h := steps_term os ss w t
  cases hid : (term t w).1 with
  | none => simpa [hid] using h
  | some id =>
    rw [hid] at h
    exact h.tail (Step.bare ..)

theorem steps_command (t : Token) (rest : List Token) :
    Steps ⟨w, os, ss⟩ ⟨(command t rest w).workspace, os, (command t rest w).value.toList ++ ss⟩ := by
  unfold command
  split
  · rename_i condition _
    have h := steps_operand os ss w (t :: rest) rest
    dsimp only
    split
    · rename_i target htarget
      rw [htarget] at h
      exact h.tail (Step.take _ (.jump condition target) t.location os ss rfl trivial)
    · rename_i htarget
      rw [htarget] at h ⊢
      exact h
  · split
    · have hleft := steps_operand os ss w (t :: rest) rest
      set left := operand (t :: rest) rest w
      have hright := steps_operand (left.value.toList ++ os) ss left.workspace (t :: rest) left.rest
      set right := operand (t :: rest) left.rest left.workspace
      have h := hleft.trans hright
      dsimp only
      -- A comparison that lacks an operand is no statement, and loses the other operand.
      cases hl : left.value with
      | none =>
        cases hr : right.value with
        | none => simpa [hl, hr] using h
        | some r => exact h.tail (by rw [hl, hr]; exact Step.drop ..)
      | some l =>
        cases hr : right.value with
        | none => exact h.tail (by rw [hl, hr]; exact Step.drop ..)
        | some r =>
          rw [hl, hr] at h
          exact h.tail (Step.take _ (.compare l r) t.location os ss rfl trivial)
    · exact (steps_tell ..).trans (steps_bare ..)

theorem steps_statement (t : Token) (rest : List Token) :
    Steps ⟨w, os, ss⟩ ⟨(statement t rest w).workspace, os, (statement t rest w).value.toList ++ ss⟩ := by
  unfold statement
  split
  · exact steps_directive ..
  · exact steps_label ..
  · exact steps_command ..
  · exact steps_bare ..

theorem steps_endOfStatement (tokens : List Token) :
    Steps ⟨w, os, ss⟩ ⟨(endOfStatement tokens w).2, os, ss⟩ := by
  unfold endOfStatement
  split
  · exact .refl
  · split
    · exact .refl
    · exact steps_reject ..

end Workspace

/-! ## Programs -/

namespace Draft

open Stage

theorem steps_readLine (t : Token) (rest : List Token) (d : Draft) (os ss : List NodeId) :
    Steps ⟨d.toWorkspace, os, ss⟩ ⟨(readLine t rest d).2.toWorkspace, os,
      (Workspace.statement t rest d.toWorkspace).value.toList ++ ss⟩ := by
  have h := Workspace.steps_statement os ss d.toWorkspace t rest
  unfold readLine
  dsimp only
  split
  · rename_i hnone
    simpa [hnone] using h
  · rename_i id hid
    rw [hid] at h ⊢
    simp only [add_toWorkspace]
    exact (h.trans (Workspace.steps_tell ..)).trans (Workspace.steps_endOfStatement ..)

/-- The statements of the lines that are read, in the order in which they stand. -/
def inOrder (tokens : List Token) (d : Draft) : List NodeId :=
  match tokens with
  | [] => []
  | t :: rest =>
    if t.isNewline then inOrder rest d
    else (Workspace.statement t rest d.toWorkspace).value.toList ++ inOrder (readLine t rest d).1 (readLine t rest d).2
termination_by tokens.length
decreasing_by
  · simp
  · exact Nat.lt_succ_of_le (readLine_suffix t rest d).length_le

theorem steps_read (tokens : List Token) (d : Draft) (ss : List NodeId) :
    Steps ⟨d.toWorkspace, [], ss⟩ ⟨(read tokens d).toWorkspace, [], (inOrder tokens d).reverse ++ ss⟩ := by
  fun_induction read tokens d generalizing ss with
  | case1 d => simpa [inOrder] using ReflTransGen.refl
  | case2 d t rest h ih =>
    rw [inOrder, if_pos h]
    exact ih ss
  | case3 d t rest h ih =>
    rw [inOrder, if_neg h, List.reverse_append, List.append_assoc]
    refine (steps_readLine t rest d [] ss).trans ?_
    -- The statement of the line, if there is one, is the latest of those made so far.
    convert ih _ using 3
    cases (Workspace.statement t rest d.toWorkspace).value <;> rfl

end Draft

end Assembler
