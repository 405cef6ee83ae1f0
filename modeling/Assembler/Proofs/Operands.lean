import Assembler.Proofs.Evaluations
/-!
# Tokens that are read as operands

The parser reads some tokens as terms: the arguments of a directive, the operands of a jump or a comparison, and a
statement that is one term. The functions that find them go through the tokens as the readers do, and find every token
once at most (`Draft.terms_sublist`). What the parser makes of a term it makes at the token's location, where nothing
else is made and no other number can be out of range (`Draft.answers_read`). So of a term in any source, whatever is
wrong elsewhere, it can be told what becomes of it (`Source.answers`).
-/

namespace Assembler

/-! ## Terms that are read -/

namespace Workspace

/-- The terms that are read while arguments are read, with the one that ends them if it gives no node. -/
def argumentTerms : List Token → Workspace → List Token
  | [], _ => []
  | t :: rest, w =>
    if t.kind = .newline ∨ t.kind = .openBrace then []
    else
      t :: match w.term t with
        | (none, _) => []
        | (some _, w) => argumentTerms rest w

/-- The term that is read as an operand. -/
def operandTerms (rest : List Token) : List Token :=
  match rest with
  | [] => []
  | t :: _ => if t.kind = .newline then [] else [t]

/-- The terms that are read while a statement is read that begins with a name. -/
def commandTerms (t : Token) (rest : List Token) (w : Workspace) : List Token :=
  match Condition.ofMnemonic? t.value with
  | some _ => operandTerms rest
  | none =>
    if t.value = compareMnemonic then operandTerms rest ++ operandTerms (operand (t :: rest) rest w).rest else [t]

/-- The terms that are read while a statement is read. -/
def statementTerms (t : Token) (rest : List Token) (w : Workspace) : List Token :=
  match t.kind with
  | .directive => argumentTerms rest w
  | .label => []
  | .identifier => commandTerms t rest w
  | _ => [t]

end Workspace

/-- The terms that are read while all lines are read. -/
def Draft.terms (tokens : List Token) (d : Draft) : List Token :=
  match tokens with
  | [] => []
  | t :: rest =>
    if t.isNewline then terms rest d
    else Workspace.statementTerms t rest d.toWorkspace ++ terms (readLine t rest d).1 (readLine t rest d).2
termination_by tokens.length
decreasing_by
  · simp
  · exact Nat.lt_succ_of_le (readLine_suffix t rest d).length_le

/-- The tokens of a source that are read as operands, or as statements by themselves. -/
def Source.operands (s : Source) : List Token := Draft.terms s.tokens {}

/-! ## A token is read as a term once at most -/

namespace Workspace

theorem argumentTerms_sublist (tokens : List Token) (w : Workspace) :
    (argumentTerms tokens w ++ (arguments tokens w).rest).Sublist tokens := by
  fun_induction arguments tokens w with
  | case1 => exact List.Sublist.refl []
  | case2 t rest w h => simp [argumentTerms, h]
  | case3 t rest w h w' hterm => simp [argumentTerms, h, hterm]
  | case4 t rest w h id w' hterm more ih =>
    rw [argumentTerms, if_neg h, hterm]
    exact ih.cons_cons t

theorem operandTerms_sublist (statement rest : List Token) (w : Workspace) :
    (operandTerms rest ++ (operand statement rest w).rest).Sublist rest := by
  cases rest with
  | nil => exact List.Sublist.refl []
  | cons t after =>
    by_cases hnewline : t.kind = .newline
    · simp [operandTerms, operand, hnewline]
    · simp [operandTerms, operand, hnewline]

theorem commandTerms_sublist (t : Token) (rest : List Token) (w : Workspace) :
    (commandTerms t rest w ++ (command t rest w).rest).Sublist (t :: rest) := by
  have hleft := operandTerms_sublist (t :: rest) rest w
  cases hcondition : Condition.ofMnemonic? t.value with
  | some condition =>
    simp only [commandTerms, command, hcondition]
    split <;> exact hleft.cons t
  | none =>
    by_cases hcompare : t.value = compareMnemonic
    · have hright := operandTerms_sublist (t :: rest) (operand (t :: rest) rest w).rest (operand (t :: rest) rest w).workspace
      have hboth := (List.append_sublist_append_left (operandTerms rest)).2 hright
      simp only [commandTerms, command, hcondition, if_pos hcompare, List.append_assoc]
      split <;> exact (hboth.trans hleft).cons t
    · simp only [commandTerms, command, hcondition, if_neg hcompare]
      exact List.Sublist.refl _

theorem statementTerms_sublist (t : Token) (rest : List Token) (w : Workspace) :
    (statementTerms t rest w ++ (statement t rest w).rest).Sublist (t :: rest) := by
  cases hkind : t.kind with
  | directive =>
    simp only [statementTerms, statement, hkind]
    have hbody := (optionalBody_rest_suffix (arguments rest w).rest).sublist
    have hboth := (List.append_sublist_append_left (argumentTerms rest w)).2 hbody
    exact (hboth.trans (argumentTerms_sublist rest w)).cons t
  | label =>
    simp only [statementTerms, statement, hkind]
    exact List.sublist_cons_self t rest
  | identifier =>
    simp only [statementTerms, statement, hkind]
    exact commandTerms_sublist t rest w
  | _ =>
    simp only [statementTerms, statement, hkind]
    exact List.Sublist.refl _

end Workspace

open Workspace in
theorem Draft.terms_sublist (tokens : List Token) (d : Draft) : (terms tokens d).Sublist tokens := by
  fun_induction terms tokens d with
  | case1 => exact List.Sublist.refl []
  | case2 d t rest ht ih => exact ih.cons t
  | case3 d t rest ht ih =>
    have hline := (readLine_suffix_statement t rest d).sublist
    have hboth := (List.append_sublist_append_left (statementTerms t rest d.toWorkspace)).2 (ih.trans hline)
    exact hboth.trans (statementTerms_sublist t rest d.toWorkspace)

/-! ## What becomes of a term -/

/-- What is said of a number that is out of range. -/
def Token.rangeComplaint? (t : Token) : Option String :=
  match t.kind with
  | .integer => some ("integer literal '" ++ t.value ++ "' out of range")
  | .register => some (Store.register.name ++ " index '" ++ t.value ++ "' out of range")
  | .localSlot => some (Store.localSlot.name ++ " index '" ++ t.value ++ "' out of range")
  | _ => none

/-- What is reported of a token, if it is a number and out of range. -/
def Token.outOfRange? (t : Token) : Option Diagnostic :=
  match t.leaf? with
  | some _ => none
  | none => t.rangeComplaint?.map fun text => { cause := .illegalExpression, location := t.location, context := some text }

/-- No statement begins at a location with a token of its own, be it a name, a label or a directive. -/
def Token.IsAway (place : Location) (t : Token) : Prop := t.location = place → t.kind ∉ [.directive, .label, .identifier]

namespace Workspace

variable {w w' w'' : Workspace} {place : Location} {terms terms' : List Token}

/-- The nodes at a location. -/
def nodesAt (w : Workspace) (place : Location) : List Node.Kind :=
  (w.program.nodes.toList.filter (·.location = place)).map (·.kind)

/-- The illegal expressions that are reported at a location. -/
def illegalAt (w : Workspace) (place : Location) : List Diagnostic :=
  w.diagnostics.filter fun d => d.cause = .illegalExpression ∧ d.location = place

/-- At a location there are the nodes and the illegal expressions of another workspace, and then those of some terms. -/
structure Answers (place : Location) (terms : List Token) (w w' : Workspace) : Prop where
  nodes : w'.nodesAt place = w.nodesAt place ++ (terms.filter (·.location = place)).filterMap Token.leaf?
  illegal : w'.illegalAt place = w.illegalAt place ++ (terms.filter (·.location = place)).filterMap Token.outOfRange?

namespace Answers

theorem of_eq (hprogram : w'.program = w.program) (hdiagnostics : w'.diagnostics = w.diagnostics) : Answers place [] w w' where
  nodes := by simp [nodesAt, hprogram]
  illegal := by simp [illegalAt, hdiagnostics]

theorem refl (w : Workspace) : Answers place [] w w := of_eq rfl rfl

theorem tell (w : Workspace) (e : Event) : Answers place [] w (w.tell e) := of_eq rfl rfl

theorem trans (h : Answers place terms w w') (h' : Answers place terms' w' w'') : Answers place (terms ++ terms') w w'' where
  nodes := by rw [h'.nodes, h.nodes, List.filter_append, List.filterMap_append, List.append_assoc]
  illegal := by rw [h'.illegal, h.illegal, List.filter_append, List.filterMap_append, List.append_assoc]

/-- Nothing more is made of terms than what there is. -/
theorem trans_of_eq (h : Answers place terms w w') (h' : Answers place [] w' w'') : Answers place terms w w'' := by
  have hboth := h.trans h'
  rwa [List.append_nil] at hboth

theorem push (kind : Node.Kind) {location : Location} (h : location ≠ place) : Answers place [] w (w.push kind location).2 where
  nodes := by simp [nodesAt, Workspace.push, Program.push, h]
  illegal := by simp [illegalAt, Workspace.push, diagnostics]

theorem reject {cause : Cause} {location : Location} (context : Option String)
    (h : cause = .illegalExpression → location ≠ place) : Answers place [] w (w.reject cause location context) where
  nodes := by simp [nodesAt, Workspace.reject, Workspace.tell, report]
  illegal := by
    have hnot : ¬ (cause = .illegalExpression ∧ location = place) := fun hboth => h hboth.1 hboth.2
    simp [illegalAt, Workspace.reject, Workspace.tell, report, Session.report, diagnostics, hnot]

/-- A term away from the location adds nothing there, and one at the location what it says. -/
theorem term {t : Token} (haway : t.location ≠ place → Answers place [] w w')
    (hnodes : t.location = place → w'.nodesAt place = w.nodesAt place ++ t.leaf?.toList)
    (hillegal : t.location = place → w'.illegalAt place = w.illegalAt place ++ t.outOfRange?.toList) :
    Answers place [t] w w' := by
  by_cases hplace : t.location = place
  · have hkept : [t].filter (·.location = place) = [t] := by simp [hplace]
    constructor
    · rw [hkept, hnodes hplace]
      cases hleaf : t.leaf? <;> simp [hleaf]
    · rw [hkept, hillegal hplace]
      cases hrange : t.outOfRange? <;> simp [hrange]
  · have hdropped : [t].filter (·.location = place) = [] := by simp [hplace]
    obtain ⟨hnodes, hillegal⟩ := haway hplace
    constructor
    · rwa [hdropped]
    · rwa [hdropped]

end Answers

theorem nodesAt_push (w : Workspace) (kind : Node.Kind) (place : Location) :
    (w.push kind place).2.nodesAt place = w.nodesAt place ++ [kind] := by
  simp [nodesAt, push, Program.push]

theorem illegalAt_reject (w : Workspace) (place : Location) (context : Option String) :
    (w.reject .illegalExpression place context).illegalAt place =
      w.illegalAt place ++ [{ cause := .illegalExpression, location := place, context }] := by
  simp [illegalAt, reject, tell, report, Session.report, diagnostics]

/-- A token is a node, or it is reported as out of range. -/
theorem answers_literal {t : Token} {kind : Option Node.Kind} (hkind : t.leaf? = kind) (complaint : String)
    (hreport : kind = none → t.rangeComplaint? = some complaint) (w : Workspace) :
    Answers place [t] w (literal t kind complaint w).2 := by
  cases kind with
  | none =>
    refine .term (fun haway => .reject _ fun _ => haway) ?_ ?_
    · rintro rfl
      rw [hkind, Option.toList_none, List.append_nil]
      rfl
    · rintro rfl
      simp only [Token.outOfRange?, hkind, hreport rfl]
      exact illegalAt_reject ..
  | some k =>
    refine .term (fun haway => .push k haway) ?_ ?_
    · rintro rfl
      rw [hkind]
      exact nodesAt_push ..
    · rintro rfl
      simp only [Token.outOfRange?, hkind, Option.toList_none, List.append_nil]
      rfl

/-- A token that is neither a node nor a number adds nothing if nothing else is reported than that. -/
theorem Answers.other {t : Token} (h : Answers place [] w w') (hleaf : t.leaf? = none) (hrange : t.outOfRange? = none) :
    Answers place [t] w w' := by
  refine .term (fun _ => h) (fun _ => ?_) (fun _ => ?_)
  · rw [h.nodes, hleaf]
    rfl
  · rw [h.illegal, hrange]
    rfl

theorem answers_interpolation (t : Token) (w : Workspace) : Answers place [] w (interpolation t w).2 := by
  have hcause : ∀ d ∈ t.complaints w.findInside?, d.cause ≠ .illegalExpression := by
    intro d hd
    rcases Token.cases_of_mem_complaintsInside ((t.complaints_prefix _).subset hd) with rfl | ⟨u, -, rfl⟩
    · simp
    · unfold Token.passedOver
      split <;> simp
  have hnone : (t.complaints w.findInside?).filter (fun d => d.cause = .illegalExpression ∧ d.location = place) = [] := by
    rw [List.filter_eq_nil_iff]
    intro d hd
    simp [hcause d hd]
  constructor
  · simp [nodesAt, interpolation]
  · rw [illegalAt, diagnostics_interpolation, List.filter_append, hnone]
    rfl

theorem answers_term (place : Location) (t : Token) (w : Workspace) : Answers place [t] w (term t w).2 := by
  have hother {cause : Cause} {context : Option String} (hcause : cause ≠ .illegalExpression) :
      Answers place [] w (w.reject cause t.location context) := .reject context fun h => absurd h hcause
  obtain ⟨kind, value, location⟩ := t
  cases kind with
  | identifier => exact answers_literal (show Token.leaf? _ = some _ from rfl) "" (fun h => by cases h) w
  | string => exact answers_literal (show Token.leaf? _ = some _ from rfl) "" (fun h => by cases h) w
  | integer => exact answers_literal rfl _ (fun _ => rfl) w
  | register => exact answers_literal rfl _ (fun _ => rfl) w
  | localSlot => exact answers_literal rfl _ (fun _ => rfl) w
  | interpolation => exact (answers_interpolation _ w).other rfl rfl
  | _ => exact (hother (by decide)).other rfl rfl

theorem answers_arguments (tokens : List Token) (w : Workspace) :
    Answers place (argumentTerms tokens w) w (arguments tokens w).workspace := by
  fun_induction arguments tokens w with
  | case1 => exact .refl _
  | case2 t rest w h =>
    rw [argumentTerms, if_pos h]
    exact .refl w
  | case3 t rest w h w' hterm =>
    have hfirst := answers_term place t w
    rw [hterm] at hfirst
    rw [argumentTerms, if_neg h, hterm]
    exact hfirst
  | case4 t rest w h id w' hterm more ih =>
    have hfirst := answers_term place t w
    rw [hterm] at hfirst
    rw [argumentTerms, if_neg h, hterm]
    exact hfirst.trans ih

theorem answers_operand (place : Location) (statement rest : List Token) (w : Workspace) :
    Answers place (operandTerms rest) w (operand statement rest w).workspace := by
  cases rest with
  | nil => exact .reject none fun h => by cases h
  | cons t after =>
    by_cases hnewline : t.kind = .newline
    · simp only [operand, operandTerms, hnewline, if_true]
      exact .reject none fun h => by cases h
    · simp only [operand, operandTerms, hnewline, if_false]
      exact answers_term place t w

/-- The head of a directive is no operand of it. -/
theorem answers_directive {t : Token} (h : t.location ≠ place) (rest : List Token) (w : Workspace) :
    Answers place (argumentTerms rest w) w (directive t rest w).workspace := by
  set args := arguments rest w
  have hlimit : Answers place [] args.workspace (args.workspace.limitArguments t args.value.length) := by
    unfold limitArguments
    split
    · exact .reject _ fun _ => h
    · exact .refl _
  have hclosed (w : Workspace) (closed : Bool) : Answers place [] w (w.requireClosed closed (lastLocation (t :: rest))) := by
    unfold requireClosed
    split
    · exact .refl w
    · exact .reject _ fun hcause => by cases hcause
  have hchecked := (answers_arguments rest w).trans_of_eq (hlimit.trans_of_eq (hclosed _ (optionalBody args.rest).closed))
  exact hchecked.trans_of_eq (.trans_of_eq (.tell ..) (.push _ h))

theorem answers_label {t : Token} (h : t.location ≠ place) (rest : List Token) (w : Workspace) :
    Answers place [] w (label t rest w).workspace := by
  unfold label
  dsimp only
  refine (Answers.push (.label t.value) h).trans_of_eq (.trans_of_eq (.of_eq ?_ ?_) (.push _ h))
  · split <;> rfl
  · split <;> rfl

theorem answers_command {t : Token} (h : t.location ≠ place) (rest : List Token) (w : Workspace) :
    Answers place (commandTerms t rest w) w (command t rest w).workspace := by
  have hleft := answers_operand place (t :: rest) rest w
  cases hcondition : Condition.ofMnemonic? t.value with
  | some condition =>
    simp only [command, commandTerms, hcondition]
    split
    · exact hleft.trans_of_eq (.push _ h)
    · exact hleft
  | none =>
    by_cases hcompare : t.value = compareMnemonic
    · have hright := answers_operand place (t :: rest) (operand (t :: rest) rest w).rest
        (operand (t :: rest) rest w).workspace
      have hboth := hleft.trans hright
      simp only [command, commandTerms, hcondition, if_pos hcompare]
      split
      · exact hboth.trans_of_eq (.push _ h)
      · exact hboth
    · simp only [command, commandTerms, hcondition, if_neg hcompare]
      exact (Answers.tell w _).trans (answers_term place t _)

theorem answers_statement {t : Token} (h : Token.IsAway place t) (rest : List Token) (w : Workspace) :
    Answers place (statementTerms t rest w) w (statement t rest w).workspace := by
  have haway (hkind : t.kind ∈ [.directive, .label, .identifier]) : t.location ≠ place := fun hplace => h hplace hkind
  cases hkind : t.kind with
  | directive =>
    simp only [statement, statementTerms, hkind]
    exact answers_directive (haway (by simp [hkind])) rest w
  | label =>
    simp only [statement, statementTerms, hkind]
    exact answers_label (haway (by simp [hkind])) rest w
  | identifier =>
    simp only [statement, statementTerms, hkind]
    exact answers_command (haway (by simp [hkind])) rest w
  | _ =>
    simp only [statement, statementTerms, hkind]
    exact answers_term place t w

theorem answers_endOfStatement (tokens : List Token) (w : Workspace) : Answers place [] w (endOfStatement tokens w).2 := by
  unfold endOfStatement
  split
  · exact .refl w
  · split
    · exact .refl w
    · exact .reject none fun h => by cases h

end Workspace

namespace Draft

open Workspace

variable {place : Location}

theorem answers_readLine {t : Token} (h : Token.IsAway place t) (rest : List Token) (d : Draft) :
    Answers place (statementTerms t rest d.toWorkspace) d.toWorkspace (readLine t rest d).2.toWorkspace := by
  have hstatement := answers_statement h rest d.toWorkspace
  unfold readLine
  dsimp only
  split
  · exact hstatement
  · rw [add_toWorkspace]
    exact hstatement.trans_of_eq (.trans_of_eq (.tell ..) (answers_endOfStatement ..))

/-- At a location where no name, label or directive stands, there is what the terms say that stand there. -/
theorem answers_read {tokens : List Token} (h : ∀ t ∈ tokens, Token.IsAway place t) (d : Draft) :
    Answers place (terms tokens d) d.toWorkspace (read tokens d).toWorkspace := by
  fun_induction read tokens d with
  | case1 d =>
    rw [terms]
    exact .refl _
  | case2 d t rest ht ih =>
    rw [terms, if_pos ht]
    exact ih (List.forall_mem_cons.1 h).2
  | case3 d t rest ht ih =>
    obtain ⟨hfirst, hrest⟩ := List.forall_mem_cons.1 h
    rw [terms, if_neg ht]
    exact (answers_readLine hfirst rest d).trans (ih fun u hu => hrest u ((readLine_suffix t rest d).subset hu))

end Draft

/-! ## A term is a part of its statement -/

theorem Program.Extends.mem_parts {p q : Program} (h : p.Extends q) {ids : List NodeId} {c : NodeId} (hc : c ∈ p.parts ids) :
    c ∈ q.parts ids := by
  obtain ⟨id, hid, hpart⟩ := Program.mem_parts.1 hc
  refine Program.mem_parts.2 ⟨id, hid, hpart.imp_right fun hchild => ?_⟩
  obtain ⟨k, hk, hchild⟩ := mem_children.1 hchild
  exact mem_children.2 ⟨k, h.kind? hk, hchild⟩

namespace Workspace

variable {t u : Token} {rest tokens : List Token} {w : Workspace}

theorem isTerm_of_isLeaf (h : t.IsLeaf) (w : Workspace) :
    ∃ id, (term t w).1 = some id ∧ (term t w).2.program.IsTerm t id := by
  obtain ⟨id, hid, hterm⟩ := (term_quiet (term_of_isLeaf h w)).2
  exact ⟨id, hid, hterm⟩

/-- A term may be a statement by itself. -/
theorem exists_part_term {st : NodeId} (hvalue : (term t w).1 = some st) (hleaf : t.IsLeaf) :
    ∃ id ∈ (term t w).2.program.parts [st], (term t w).2.program.IsTerm t id := by
  obtain ⟨id, hid, hsaid⟩ := isTerm_of_isLeaf hleaf w
  obtain rfl : st = id := Option.some.inj (hvalue.symm.trans hid)
  exact ⟨st, List.mem_cons_self, hsaid⟩

theorem exists_argument (hu : u ∈ argumentTerms tokens w) (hleaf : u.IsLeaf) :
    ∃ id ∈ (arguments tokens w).value, (arguments tokens w).workspace.program.IsTerm u id := by
  fun_induction arguments tokens w with
  | case1 => cases hu
  | case2 t rest w h =>
    rw [argumentTerms, if_pos h] at hu
    cases hu
  | case3 t rest w h w' hterm =>
    rw [argumentTerms, if_neg h, hterm] at hu
    obtain rfl := List.mem_singleton.1 hu
    obtain ⟨id, hid, -⟩ := isTerm_of_isLeaf hleaf w
    rw [hterm] at hid
    cases hid
  | case4 t rest w h id w' hterm more ih =>
    rw [argumentTerms, if_neg h, hterm] at hu
    rcases List.mem_cons.1 hu with rfl | hu
    · obtain ⟨id', hid, hsaid⟩ := isTerm_of_isLeaf hleaf w
      rw [hterm] at hid hsaid
      cases hid
      exact ⟨id, List.mem_cons_self, (Stage.Steps.extends (steps_arguments [] [] w' rest)).isTerm hsaid⟩
    · obtain ⟨id', hid, hsaid⟩ := ih hu
      exact ⟨id', List.mem_cons_of_mem _ hid, hsaid⟩

theorem exists_operand (statement : List Token) (hu : u ∈ operandTerms rest) (hleaf : u.IsLeaf) :
    ∃ id, (operand statement rest w).value = some id ∧ (operand statement rest w).workspace.program.IsTerm u id := by
  cases rest with
  | nil => cases hu
  | cons t after =>
    by_cases hnewline : t.kind = .newline
    · simp [operandTerms, hnewline] at hu
    · simp only [operandTerms, hnewline, if_false] at hu
      obtain rfl := List.mem_singleton.1 hu
      simp only [operand, hnewline, if_false]
      exact isTerm_of_isLeaf hleaf w

/-- A new node has parts that were there before. -/
theorem exists_part_push {w : Workspace} {k : Node.Kind} {id : NodeId} (hid : id ∈ k.children) (hsaid : w.program.IsTerm u id)
    (location : Location) :
    ∃ id ∈ (w.push k location).2.program.parts [w.program.size], (w.push k location).2.program.IsTerm u id := by
  refine ⟨id, ?_, (Program.extends_push ..).isTerm hsaid⟩
  refine Program.mem_parts.2 ⟨w.program.size, List.mem_cons_self, .inr ?_⟩
  exact (Program.children_push w.program k location).symm ▸ hid

theorem exists_part_command {st : NodeId} (hvalue : (command t rest w).value = some st) (hu : u ∈ commandTerms t rest w)
    (hleaf : u.IsLeaf) :
    ∃ id ∈ (command t rest w).workspace.program.parts [st], (command t rest w).workspace.program.IsTerm u id := by
  cases hcondition : Condition.ofMnemonic? t.value with
  | some condition =>
    simp only [commandTerms, hcondition] at hu
    obtain ⟨target, htarget, hsaid⟩ := exists_operand (t :: rest) (w := w) hu hleaf
    simp only [command, hcondition, htarget] at hvalue ⊢
    cases hvalue
    exact exists_part_push List.mem_cons_self hsaid t.location
  | none =>
    by_cases hcompare : t.value = compareMnemonic
    · set left := operand (t :: rest) rest w with hleft
      have hsteps := steps_operand [] [] left.workspace (t :: rest) left.rest
      simp only [commandTerms, hcondition, if_pos hcompare] at hu
      simp only [command, hcondition, if_pos hcompare, ← hleft] at hvalue ⊢
      split at hvalue
      · rename_i l r hl hr
        cases hvalue
        rcases List.mem_append.1 hu with hu | hu
        · obtain ⟨id, hid, hsaid⟩ := exists_operand (t :: rest) (w := w) hu hleaf
          obtain rfl : l = id := Option.some.inj (hl.symm.trans hid)
          exact exists_part_push List.mem_cons_self ((Stage.Steps.extends hsteps).isTerm hsaid) t.location
        · obtain ⟨id, hid, hsaid⟩ := exists_operand (t :: rest) (w := left.workspace) hu hleaf
          obtain rfl : r = id := Option.some.inj (hr.symm.trans hid)
          exact exists_part_push (List.mem_cons_of_mem _ List.mem_cons_self) hsaid t.location
      · cases hvalue
    · simp only [commandTerms, hcondition, if_neg hcompare] at hu
      obtain rfl := List.mem_singleton.1 hu
      simp only [command, hcondition, if_neg hcompare] at hvalue ⊢
      exact exists_part_term hvalue hleaf

/-- A term of a line that gives a statement is the statement itself or one of its operands. -/
theorem exists_part_statement {st : NodeId} (hvalue : (statement t rest w).value = some st) (hu : u ∈ statementTerms t rest w)
    (hleaf : u.IsLeaf) :
    ∃ id ∈ (statement t rest w).workspace.program.parts [st], (statement t rest w).workspace.program.IsTerm u id := by
  cases hkind : t.kind with
  | directive =>
    simp only [statement, statementTerms, hkind] at hvalue hu ⊢
    obtain ⟨id, hid, hsaid⟩ := exists_argument hu hleaf
    cases hvalue
    refine exists_part_push (k := .directive t.value (arguments rest w).value _) hid ?_ t.location
    exact checks_of_reject (P := fun w' => w'.program.IsTerm u id) (fun _ _ _ _ h => h) hsaid t
      (arguments rest w).value.length (optionalBody (arguments rest w).rest).closed (lastLocation (t :: rest))
  | label =>
    simp only [statementTerms, hkind] at hu
    cases hu
  | identifier =>
    simp only [statement, statementTerms, hkind] at hvalue hu ⊢
    exact exists_part_command hvalue hu hleaf
  | _ =>
    simp only [statement, statementTerms, hkind] at hvalue hu ⊢
    obtain rfl := List.mem_singleton.1 hu
    exact exists_part_term hvalue hleaf

end Workspace

namespace Draft

open Workspace

/-- Where nothing is reported every term is a part of a statement. -/
theorem exists_part_read {tokens : List Token} {d : Draft} (hquiet : (read tokens d).diagnostics = d.diagnostics) {u : Token}
    (hu : u ∈ terms tokens d) (hleaf : u.IsLeaf) :
    ∃ id ∈ (read tokens d).program.parts (inOrder tokens d), (read tokens d).program.IsTerm u id := by
  fun_induction read tokens d with
  | case1 d =>
    rw [terms] at hu
    cases hu
  | case2 d t rest ht ih =>
    rw [terms, if_pos ht] at hu
    rw [inOrder, if_pos ht]
    exact ih hquiet hu
  | case3 d t rest ht ih =>
    rw [terms, if_neg ht] at hu
    rw [inOrder, if_neg ht]
    have hlater := steps_read (readLine t rest d).1 (readLine t rest d).2 []
    obtain ⟨hline, hrest⟩ := quiet_between (steps_readLine t rest d [] []) hlater hquiet
    rcases List.mem_append.1 hu with hu | hu
    · obtain ⟨⟨s, st, -, -, hst, -⟩, -, -, hprogram, -⟩ := readLine_quiet hline
      obtain ⟨id, hid, hsaid⟩ := exists_part_statement hst hu hleaf
      rw [← hprogram] at hid hsaid
      rw [hst, Program.parts_append]
      exact ⟨id, List.mem_append_left _ ((Stage.Steps.extends hlater).mem_parts hid), (Stage.Steps.extends hlater).isTerm hsaid⟩
    · obtain ⟨id, hid, hsaid⟩ := ih hrest hu
      rw [Program.parts_append]
      exact ⟨id, List.mem_append_right _ hid, hsaid⟩

end Draft

/-! ## Terms of a source -/

/-- Of tokens that stand one after the other no other is located where one of them is. -/
theorem Token.filter_location {ts : List Token} (h : ts.Pairwise fun t u => ¬ u.location.le t.location) {t : Token} (ht : t ∈ ts) :
    ts.filter (·.location = t.location) = [t] := by
  obtain ⟨before, after, rfl⟩ := List.append_of_mem ht
  obtain ⟨-, hafter, hbefore⟩ := List.pairwise_append.1 h
  have hnone {us : List Token} (hus : ∀ u ∈ us, u.location ≠ t.location) : us.filter (·.location = t.location) = [] := by
    rw [List.filter_eq_nil_iff]
    intro u hu
    simpa using hus u hu
  have hbefore : before.filter (·.location = t.location) = [] := hnone fun u hu he =>
    hbefore u hu t List.mem_cons_self (he ▸ Location.le_refl _)
  have hafter : after.filter (·.location = t.location) = [] := hnone fun u hu he =>
    (List.pairwise_cons.1 hafter).1 u hu (he ▸ Location.le_refl _)
  rw [List.filter_append, hbefore, List.filter_cons_of_pos (by simp), hafter]
  rfl

namespace Source

variable {s : Source} {t : Token}

/-- At a term that is no name there is the node that it says, or the report that it is out of range, and nothing else. -/
theorem answers (ht : t ∈ s.operands) (hkind : t.kind ∉ [.directive, .label, .identifier]) :
    s.parse.nodesAt t.location = t.leaf?.toList ∧ s.parse.illegalAt t.location = t.outOfRange?.toList := by
  obtain ⟨log, hparse⟩ := s.exists_parse_eq
  obtain ⟨log', hread⟩ := Workspace.exists_parse_eq log s.file s.tokens
  have hpairwise := s.tiled.1.pairwise
  have hsublist := Draft.terms_sublist s.tokens {}
  -- No other token stands where the term does, and the term is no name.
  have haway : ∀ u ∈ s.tokens, Token.IsAway t.location u := by
    intro u hu hplace
    have hmem : u ∈ s.tokens.filter (·.location = t.location) := List.mem_filter.2 ⟨hu, by simpa using hplace⟩
    rw [Token.filter_location hpairwise (hsublist.subset ht)] at hmem
    rw [List.mem_singleton.1 hmem]
    exact hkind
  obtain ⟨hnodes, hillegal⟩ := Draft.answers_read haway {}
  rw [Token.filter_location (hpairwise.sublist hsublist) ht] at hnodes hillegal
  rw [hparse, hread]
  constructor
  · refine Eq.trans ?_ (hnodes.trans ?_)
    · rfl
    · cases hleaf : t.leaf? <;> simp [Workspace.nodesAt, hleaf]
  · refine Eq.trans ?_ (hillegal.trans ?_)
    · rfl
    · cases hrange : t.outOfRange? <;> simp [Workspace.illegalAt, Workspace.diagnostics, hrange]

/-- If nothing is reported of a source, each of its terms that is a node by itself is a part of a statement. -/
theorem exists_part (hquiet : s.parse.diagnostics = []) (ht : t ∈ s.operands) (hleaf : t.IsLeaf) :
    ∃ id ∈ s.parse.program.parts s.parse.program.statements, s.parse.program.IsTerm t id := by
  obtain ⟨log, hparse⟩ := s.exists_parse_eq
  obtain ⟨log', hread⟩ := Workspace.exists_parse_eq log s.file s.tokens
  have hextends : (Draft.read s.tokens {}).program.Extends s.parse.program := by
    rw [hparse, hread]
    exact .refl _
  have hread : (Draft.read s.tokens {}).diagnostics = [] := by
    rw [hparse, hread] at hquiet
    exact hquiet
  have hperm : (Draft.inOrder s.tokens {}).Perm s.parse.program.statements := by
    rw [s.statements_parse]
    exact (List.filter_append_perm _ _).symm
  obtain ⟨id, hid, hsaid⟩ := Draft.exists_part_read (d := {}) hread ht hleaf
  exact ⟨id, (Program.parts_perm hperm).subset (hextends.mem_parts hid), hextends.isTerm hsaid⟩

end Source

end Assembler
