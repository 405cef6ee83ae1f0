import Assembler.Proofs.Bindings
import Assembler.Proofs.Interpolations
import Assembler.Proofs.Parsed
/-!
# When interpolations are evaluated

An interpolation is evaluated while its line is read, in the workspace that the lines before it have left. So a name
inside stands for the nearest label of that name that is declared before the interpolation in the text, and labels after
it make no difference. The functions that find the evaluations go through the tokens as the readers do; that they find
all of them, and no others, can be seen from the log (`Draft.evaluated_read`). Main statement:
`Source.interpolations_evaluated`.
-/

namespace Assembler

open Stage (Steps Sound Latest)

/-! ## Tokens stand one after the other -/

/-- Where more text has been read is later. -/
theorem Location.not_after_append_le (file : String) (before : List Char) {text : List Char} (hne : text ≠ []) :
    ¬ (after file (before ++ text)).le (after file before) := by
  have hlength : 0 < text.length := List.length_pos_iff.2 hne
  simp only [le_iff, after, List.count_append, lt_irrefl, true_and, false_or]
  by_cases hline : '\n' ∈ text
  · have hcount : 0 < text.count '\n' := List.count_pos_iff.2 hline
    omega
  · have hcolumn : (before ++ text).reverse.takeWhile (· ≠ '\n') = text.reverse ++ before.reverse.takeWhile (· ≠ '\n') := by
      rw [List.reverse_append, List.takeWhile_append_of_pos]
      intro c hc
      have hne : c ≠ '\n' := fun he => hline (he ▸ List.mem_reverse.1 hc)
      simpa using hne
    rw [hcolumn, List.length_append, List.length_reverse]
    omega

/-- No token of a text is located before one that it comes after. -/
theorem Tiled.pairwise {file : String} {before text : List Char} {ts : List Token} (h : Tiled file before text ts) :
    ts.Pairwise fun t u => ¬ u.location.le t.location := by
  induction h with
  | done => exact List.Pairwise.nil
  | @token before trivia lexeme rest t ts htrivia hne hlexeme hlocation hrest ih =>
    refine List.pairwise_cons.2 ⟨fun u hu => ?_, ih⟩
    obtain ⟨skipped, lexeme', after, -, -, -, hlater⟩ := hrest.exists_lexeme hu
    rw [hlocation, hlater, List.append_assoc]
    exact Location.not_after_append_le file _ (List.append_ne_nil_of_left_ne_nil hne _)

/-! ## What an interpolation stands for -/

namespace Workspace

variable {w : Workspace}

theorem fst_firstBound (shared : Shared) (tokens : List Token) (s : Session) :
    (firstBound shared tokens s).1 = tokens.findSome? (·.target? (s.find? shared)) := by
  fun_induction firstBound shared tokens s with
  | case1 => rfl
  | case2 t rest s hkind node hnode => simp [Token.target?, hkind, hnode]
  | case3 t rest s hkind hnone ih =>
    rw [ih, List.findSome?_cons, Token.target?, if_pos hkind, hnone]
    rfl
  | case4 t rest s hkind ih =>
    rw [ih, List.findSome?_cons, Token.target?, if_neg hkind]
    rfl

theorem fst_interpolation (t : Token) (w : Workspace) :
    (interpolation t w).1 = (tokensInside t).1.findSome? (·.target? w.findInside?) := by
  simp only [interpolation, fst_firstBound]
  split <;> rfl

/-- In the root scope an interpolation looks up names as any name is, adds what is reported of it, and changes nothing else. -/
theorem Rooted.interpolation_eq (h : w.Rooted) (t : Token) :
    Workspace.interpolation t w = ((tokensInside t).1.findSome? (·.target? w.find?),
      { w with
        session := { w.session with diagnostics := w.diagnostics ++ t.complaints w.find? }
        log := (Workspace.interpolation t w).2.log }) := by
  have hfind : w.findInside? = w.find? := funext h.findInside?
  obtain ⟨ds, log, -, hw, -⟩ := Workspace.interpolation_eq w t
  have hdiagnostics := diagnostics_interpolation t w
  rw [hw, h.inside, hfind] at hdiagnostics
  obtain rfl := List.append_cancel_left hdiagnostics
  refine Prod.ext ?_ ?_
  · rw [fst_interpolation, hfind]
  · rw [hw, h.inside]
    rfl

end Workspace

/-! ## Evaluations -/

/-- An interpolation that is evaluated: its token, the tokens after it, and the workspace it is evaluated in. -/
structure Evaluation where
  token : Token
  rest : List Token
  workspace : Workspace

/-- What the log tells of an evaluation. -/
def Evaluation.event (e : Evaluation) : Event :=
  ⟨.debug, .phase .parser, "Evaluated interpolation",
    [("body", .plain e.token.value), ("resolved", .bool (e.workspace.interpolation e.token).1.isSome)]⟩

namespace Workspace

/-- A term is evaluated if it is an interpolation. -/
def evaluation (t : Token) (rest : List Token) (w : Workspace) : List Evaluation :=
  if t.kind = .interpolation then [⟨t, rest, w⟩] else []

/-- The evaluations while arguments are read. -/
def argumentEvaluations : List Token → Workspace → List Evaluation
  | [], _ => []
  | t :: rest, w =>
    if t.kind = .newline ∨ t.kind = .openBrace then []
    else
      evaluation t rest w ++
        match w.term t with
        | (none, _) => []
        | (some _, w) => argumentEvaluations rest w

/-- The evaluations while an operand is read. -/
def operandEvaluations (rest : List Token) (w : Workspace) : List Evaluation :=
  match rest with
  | [] => []
  | t :: after => evaluation t after w

/-- The evaluations while a statement is read that begins with a name. -/
def commandEvaluations (t : Token) (rest : List Token) (w : Workspace) : List Evaluation :=
  match Condition.ofMnemonic? t.value with
  | some _ => operandEvaluations rest w
  | none =>
    if t.value = compareMnemonic then
      let left := operand (t :: rest) rest w
      operandEvaluations rest w ++ operandEvaluations left.rest left.workspace
    else []

/-- The evaluations while a statement is read. -/
def statementEvaluations (t : Token) (rest : List Token) (w : Workspace) : List Evaluation :=
  match t.kind with
  | .directive => argumentEvaluations rest w
  | .label => []
  | .identifier => commandEvaluations t rest w
  | _ => evaluation t rest w

end Workspace

/-- The evaluations while all lines are read. -/
def Draft.evaluations (tokens : List Token) (d : Draft) : List Evaluation :=
  match tokens with
  | [] => []
  | t :: rest =>
    if t.isNewline then evaluations rest d
    else Workspace.statementEvaluations t rest d.toWorkspace ++ evaluations (readLine t rest d).1 (readLine t rest d).2
termination_by tokens.length
decreasing_by
  · simp
  · exact Nat.lt_succ_of_le (readLine_suffix t rest d).length_le

/-! ## The log tells of all evaluations -/

/-- An event that tells of an evaluation. -/
def Event.isEvaluation (e : Event) : Bool := e.target = .phase .parser && e.message = "Evaluated interpolation"

namespace Lexer

theorem target_event (fault : Fault) (at_ : Position) : (fault.event at_).target = .phase .lexer := by
  cases fault <;> rfl

theorem target_of_mem_next {l : Lexer} {e : Event} (he : e ∈ l.next.2) : e.target = .phase .lexer := by
  have hopen {e : Event} (he : e ∈ if (Trivia.read l.rest).unclosed then [Fault.unclosedComment.event l.anchor] else []) :
      e.target = .phase .lexer := by
    split at he
    · rw [List.mem_singleton.1 he, target_event]
    · cases he
  unfold next at he
  dsimp only at he
  split at he
  · exact hopen he
  · rcases List.mem_append.1 he with he | he
    · exact hopen he
    · obtain ⟨fault, -, rfl⟩ := List.mem_map.1 he
      exact target_event ..

/-- The lexer logs in its own name. -/
theorem target_of_mem_readAll {l : Lexer} {e : Event} (he : e ∈ l.readAll.2) : e.target = .phase .lexer := by
  fun_induction readAll l with
  | case1 l events hnext => exact target_of_mem_next (l := l) (by rwa [hnext])
  | case2 l t l' events hnext hlt tokens later heq ih =>
    rcases List.mem_append.1 he with he | he
    · exact target_of_mem_next (l := l) (by rwa [hnext])
    · rcases List.mem_cons.1 he with rfl | he
      · rfl
      · rw [heq] at ih
        exact ih he

theorem filter_isEvaluation_run (l : Lexer) : l.run.2.filter Event.isEvaluation = [] := by
  have htarget : ∀ e ∈ l.run.2, e.target = .phase .lexer := by
    intro e he
    rcases List.mem_append.1 he with he | he
    · exact target_of_mem_readAll he
    · rw [List.mem_singleton.1 he]
  refine List.filter_eq_nil_iff.2 fun e he => ?_
  simp [Event.isEvaluation, htarget e he]

end Lexer

namespace Workspace

/-- The events of a workspace that tell of evaluations. -/
def evaluated (w : Workspace) : List Event := w.log.toList.filter Event.isEvaluation

theorem evaluated_tell {e : Event} (he : e.isEvaluation = false) (w : Workspace) : (w.tell e).evaluated = w.evaluated := by
  simp [evaluated, tell, he]

theorem evaluated_reject (cause : Cause) (location : Location) (context : Option String) (w : Workspace) :
    (w.reject cause location context).evaluated = w.evaluated :=
  evaluated_tell rfl w

theorem evaluated_term (t : Token) (rest : List Token) (w : Workspace) :
    (term t w).2.evaluated = w.evaluated ++ (evaluation t rest w).map Evaluation.event := by
  by_cases hkind : t.kind = .interpolation
  · have hterm : term t w = interpolation t w := by simp only [term, hkind]
    have hlog : (interpolation t w).2.log.toList = w.log.toList ++ (tokensInside t).2 ++ [Evaluation.event ⟨t, rest, w⟩] := by
      simp [interpolation, Evaluation.event]
    have hinside : (tokensInside t).2.filter Event.isEvaluation = [] := Lexer.filter_isEvaluation_run _
    rw [hterm, evaluated, hlog, List.filter_append, List.filter_append, hinside, List.append_nil, evaluation, if_pos hkind]
    rfl
  · rw [evaluation, if_neg hkind, List.map_nil, List.append_nil]
    rcases term_cases t w with ⟨h, -⟩ | ⟨k, -, hterm⟩ | ⟨-, cause, context, hterm⟩
    · exact absurd h hkind
    · rw [hterm]
      rfl
    · rw [hterm, evaluated_reject]

theorem evaluated_arguments (tokens : List Token) (w : Workspace) :
    (arguments tokens w).workspace.evaluated = w.evaluated ++ (argumentEvaluations tokens w).map Evaluation.event := by
  fun_induction arguments tokens w with
  | case1 => simp [argumentEvaluations]
  | case2 t rest w h => simp [argumentEvaluations, h]
  | case3 t rest w h w' hterm =>
    have hfirst := evaluated_term t rest w
    rw [hterm] at hfirst
    rw [hfirst, argumentEvaluations, if_neg h, hterm, List.append_nil]
  | case4 t rest w h id w' hterm more ih =>
    have hfirst := evaluated_term t rest w
    rw [hterm] at hfirst
    rw [argumentEvaluations, if_neg h, hterm, List.map_append, ← List.append_assoc, ← hfirst]
    exact ih

theorem evaluated_operand (statement rest : List Token) (w : Workspace) :
    (operand statement rest w).workspace.evaluated = w.evaluated ++ (operandEvaluations rest w).map Evaluation.event := by
  cases rest with
  | nil => simp [operand, operandEvaluations, evaluated_reject]
  | cons t after =>
    by_cases hnewline : t.kind = .newline
    · simp [operand, operandEvaluations, evaluation, hnewline, evaluated_reject]
    · simp only [operand, hnewline, if_false]
      exact evaluated_term ..

theorem evaluated_directive (t : Token) (rest : List Token) (w : Workspace) :
    (directive t rest w).workspace.evaluated = w.evaluated ++ (argumentEvaluations rest w).map Evaluation.event := by
  rw [← evaluated_arguments]
  refine (evaluated_tell ?_ _).trans ?_
  · rfl
  · refine checks_of_reject (P := fun w' => w'.evaluated = (arguments rest w).workspace.evaluated) ?_ rfl ..
    exact fun w' cause location context h => (evaluated_reject cause location context w').trans h

theorem evaluated_label (t : Token) (rest : List Token) (w : Workspace) : (label t rest w).workspace.evaluated = w.evaluated := by
  simp only [label]
  split
  · refine evaluated_tell ?_ _
    rfl
  · rfl

theorem evaluated_command {t : Token} (ht : t.kind = .identifier) (rest : List Token) (w : Workspace) :
    (command t rest w).workspace.evaluated = w.evaluated ++ (commandEvaluations t rest w).map Evaluation.event := by
  have hleft := evaluated_operand (t :: rest) rest w
  cases hcondition : Condition.ofMnemonic? t.value with
  | some condition =>
    simp only [command, commandEvaluations, hcondition, ← hleft]
    split <;> rfl
  | none =>
    by_cases hcompare : t.value = compareMnemonic
    · have hright := evaluated_operand (t :: rest) (operand (t :: rest) rest w).rest (operand (t :: rest) rest w).workspace
      simp only [command, commandEvaluations, hcondition, if_pos hcompare, List.map_append, ← List.append_assoc, ← hleft,
        ← hright]
      split <;> rfl
    · simp only [command, commandEvaluations, hcondition, if_neg hcompare]
      have hterm (w : Workspace) : (term t w).2.evaluated = w.evaluated := by
        simpa [evaluation, ht] using evaluated_term t rest w
      rw [hterm, List.map_nil, List.append_nil]
      exact evaluated_tell rfl w

theorem evaluated_statement (t : Token) (rest : List Token) (w : Workspace) :
    (statement t rest w).workspace.evaluated = w.evaluated ++ (statementEvaluations t rest w).map Evaluation.event := by
  cases hkind : t.kind with
  | directive =>
    simp only [statement, statementEvaluations, hkind]
    exact evaluated_directive ..
  | label =>
    simp only [statement, statementEvaluations, hkind, List.map_nil, List.append_nil]
    exact evaluated_label ..
  | identifier =>
    simp only [statement, statementEvaluations, hkind]
    exact evaluated_command hkind rest w
  | _ =>
    simp only [statement, statementEvaluations, hkind]
    exact evaluated_term ..

theorem evaluated_endOfStatement (tokens : List Token) (w : Workspace) :
    (endOfStatement tokens w).2.evaluated = w.evaluated := by
  unfold endOfStatement
  split
  · rfl
  · split
    · rfl
    · exact evaluated_reject ..

end Workspace

namespace Draft

open Workspace

theorem evaluated_readLine (t : Token) (rest : List Token) (d : Draft) :
    (readLine t rest d).2.evaluated = d.evaluated ++ (statementEvaluations t rest d.toWorkspace).map Evaluation.event := by
  rw [← evaluated_statement]
  unfold readLine
  dsimp only
  split
  · rfl
  · rw [evaluated_endOfStatement, add_toWorkspace]
    exact evaluated_tell rfl _

/-- While lines are read, the log tells of the evaluations and of no others. -/
theorem evaluated_read (tokens : List Token) (d : Draft) :
    (read tokens d).evaluated = d.evaluated ++ (evaluations tokens d).map Evaluation.event := by
  fun_induction read tokens d with
  | case1 d => simp [evaluations]
  | case2 d t rest ht ih => rw [evaluations, if_pos ht, ih]
  | case3 d t rest ht ih => rw [evaluations, if_neg ht, ih, evaluated_readLine, List.map_append, List.append_assoc]

end Draft

/-! ## Where evaluations are found -/

/-- An interpolation is evaluated while some tokens are read: no statement is made before it, and what is left in the end
comes after it. -/
structure Evaluation.IsWithin (e : Evaluation) (w : Workspace) (tokens left : List Token) : Prop where
  kind : e.token.kind = .interpolation
  steps : ∀ os ss, ∃ os', Steps ⟨w, os, ss⟩ ⟨e.workspace, os', ss⟩
  read : e.token :: e.rest <:+ tokens
  left : left <:+ e.rest

namespace Evaluation.IsWithin

variable {e : Evaluation} {w w' : Workspace} {tokens tokens' left left' : List Token}

/-- Other tokens may be read before, if no statement is made of them. -/
theorem after (h : e.IsWithin w' tokens left) (hsteps : ∀ os ss, ∃ os', Steps ⟨w, os, ss⟩ ⟨w', os', ss⟩)
    (htokens : tokens <:+ tokens') : e.IsWithin w tokens' left where
  kind := h.kind
  steps os ss := by
    obtain ⟨os', hbefore⟩ := hsteps os ss
    obtain ⟨os'', hafter⟩ := h.steps os' ss
    exact ⟨os'', hbefore.trans hafter⟩
  read := h.read.trans htokens
  left := h.left

theorem leave (h : e.IsWithin w tokens left) (hleft : left' <:+ left) : e.IsWithin w tokens left' :=
  { h with left := hleft.trans h.left }

end Evaluation.IsWithin

namespace Workspace

variable {w : Workspace} {e : Evaluation} {t : Token} {rest tokens : List Token}

theorem isWithin_of_mem_evaluation (he : e ∈ evaluation t rest w) : e.IsWithin w (t :: rest) rest := by
  unfold evaluation at he
  split at he
  · obtain rfl := List.mem_singleton.1 he
    exact ⟨‹_›, fun os ss => ⟨os, .refl⟩, List.suffix_rfl, List.suffix_rfl⟩
  · cases he

theorem isWithin_of_mem_arguments (he : e ∈ argumentEvaluations tokens w) : e.IsWithin w tokens (arguments tokens w).rest := by
  fun_induction arguments tokens w with
  | case1 => cases he
  | case2 t rest w h => simp [argumentEvaluations, h] at he
  | case3 t rest w h w' hterm =>
    rw [argumentEvaluations, if_neg h, hterm, List.append_nil] at he
    exact isWithin_of_mem_evaluation he
  | case4 t rest w h id w' hterm more ih =>
    rw [argumentEvaluations, if_neg h, hterm] at he
    rcases List.mem_append.1 he with he | he
    · exact (isWithin_of_mem_evaluation he).leave (arguments_rest_suffix rest w')
    · refine (ih he).after (fun os ss => ?_) (List.suffix_cons ..)
      have hfirst := steps_term os ss w t
      rw [hterm] at hfirst
      exact ⟨_, hfirst⟩

theorem isWithin_of_mem_operand (statement : List Token) (he : e ∈ operandEvaluations rest w) :
    e.IsWithin w rest (operand statement rest w).rest := by
  cases rest with
  | nil => cases he
  | cons t after =>
    have hwithin : e.IsWithin w (t :: after) after := isWithin_of_mem_evaluation he
    have hkind : t.kind ≠ .newline := by
      intro hnewline
      simp [operandEvaluations, evaluation, hnewline] at he
    simp only [operand, hkind, if_false]
    exact hwithin

theorem isWithin_of_mem_command (he : e ∈ commandEvaluations t rest w) : e.IsWithin w rest (command t rest w).rest := by
  cases hcondition : Condition.ofMnemonic? t.value with
  | some condition =>
    simp only [commandEvaluations, hcondition] at he
    have htarget := isWithin_of_mem_operand (t :: rest) he
    simp only [command, hcondition]
    split <;> exact htarget
  | none =>
    by_cases hcompare : t.value = compareMnemonic
    · set left := operand (t :: rest) rest w with hleft
      simp only [commandEvaluations, hcondition, if_pos hcompare] at he
      have hboth : e.IsWithin w rest (operand (t :: rest) left.rest left.workspace).rest := by
        rcases List.mem_append.1 he with he | he
        · exact (isWithin_of_mem_operand (t :: rest) he).leave (operand_rest_suffix ..)
        · refine (isWithin_of_mem_operand (t :: rest) he).after (fun os ss => ?_) (operand_rest_suffix ..)
          exact ⟨_, steps_operand os ss w (t :: rest) rest⟩
      simp only [command, hcondition, if_pos hcompare]
      split <;> exact hboth
    · simp [commandEvaluations, hcondition, hcompare] at he

theorem isWithin_of_mem_statement (he : e ∈ statementEvaluations t rest w) :
    e.IsWithin w (t :: rest) (statement t rest w).rest ∧ t.kind ≠ .label := by
  have hrest {left : List Token} (h : e.IsWithin w rest left) : e.IsWithin w (t :: rest) left :=
    h.after (fun os ss => ⟨os, .refl⟩) (List.suffix_cons ..)
  cases hkind : t.kind with
  | directive =>
    simp only [statementEvaluations, hkind] at he
    simp only [statement, hkind]
    exact ⟨hrest ((isWithin_of_mem_arguments he).leave (optionalBody_rest_suffix _)), by simp⟩
  | label => simp [statementEvaluations, hkind] at he
  | identifier =>
    simp only [statementEvaluations, hkind] at he
    simp only [statement, hkind]
    exact ⟨hrest (isWithin_of_mem_command he), by simp⟩
  | _ =>
    simp only [statementEvaluations, hkind] at he
    simp only [statement, hkind]
    exact ⟨isWithin_of_mem_evaluation he, by simp⟩

end Workspace

/-! ## Where labels are declared -/

namespace Program

/-- The labels that some nodes declare are declared at some tokens. -/
def DeclaresAt (p : Program) (ids : List NodeId) (tokens : List Token) : Prop :=
  ∀ id ∈ ids, ∀ name label, p.kind? id = some (.labelDecl name label) → ∃ t ∈ tokens, p.location id = t.location

variable {p q : Program} {ids ids' : List NodeId} {tokens tokens' : List Token}

theorem DeclaresAt.nil : p.DeclaresAt [] tokens := fun _ hid => absurd hid List.not_mem_nil

theorem DeclaresAt.mono (h : p.DeclaresAt ids tokens) (hsub : tokens ⊆ tokens') : p.DeclaresAt ids tokens' := by
  intro id hid name label hk
  obtain ⟨t, ht, hlocation⟩ := h id hid name label hk
  exact ⟨t, hsub ht, hlocation⟩

theorem DeclaresAt.append (h : p.DeclaresAt ids tokens) (h' : p.DeclaresAt ids' tokens) : p.DeclaresAt (ids ++ ids') tokens :=
  List.forall_mem_append.2 ⟨h, h'⟩

theorem Extends.location_eq (h : p.Extends q) {id : NodeId} (hid : id < p.size) : q.location id = p.location id := by
  obtain ⟨n, hn⟩ := node?_of_lt hid
  rw [location, location, hn, h.node? hn]

theorem DeclaresAt.extends (h : p.DeclaresAt ids tokens) (hids : ∀ id ∈ ids, id < p.size) (hq : p.Extends q) :
    q.DeclaresAt ids tokens := by
  intro id hid name label hk
  rw [hq.kind?_eq (hids id hid)] at hk
  rw [hq.location_eq (hids id hid)]
  exact h id hid name label hk

/-- Of nodes that declare labels at tokens before and after another, just those before are located up to there. -/
theorem lastDeclared?_filter_le {pre post : List Token} {t : Token}
    (htokens : (pre ++ t :: post).Pairwise fun t u => ¬ u.location.le t.location) (hpre : p.DeclaresAt ids pre)
    (hpost : p.DeclaresAt ids' post) (name : String) :
    p.lastDeclared? name ((ids ++ ids').filter fun id => (p.location id).le t.location) = p.lastDeclared? name ids := by
  obtain ⟨-, hafter, hbefore⟩ := List.pairwise_append.1 htokens
  have hnone : p.lastDeclared? name (ids'.filter fun id => (p.location id).le t.location) = none := by
    rw [Option.eq_none_iff_forall_ne_some]
    intro label hlabel
    obtain ⟨id, hid, hk⟩ := exists_of_lastDeclared? hlabel
    obtain ⟨hid, hle⟩ := List.mem_filter.1 hid
    obtain ⟨u, hu, hlocation⟩ := hpost id hid name label hk
    rw [hlocation] at hle
    exact (List.pairwise_cons.1 hafter).1 u hu hle
  have hkept : p.lastDeclared? name (ids.filter fun id => (p.location id).le t.location) = p.lastDeclared? name ids := by
    refine lastDeclared?_filter _ fun id hid hle => ?_
    rw [Option.eq_none_iff_forall_ne_some]
    intro label hlabel
    obtain ⟨u, hu, hlocation⟩ := hpre id hid name label (declared?_eq_some.1 hlabel)
    rw [hlocation] at hle
    have hnot : ¬ t.location.le u.location := hbefore u hu t List.mem_cons_self
    exact hnot ((Location.le_total u.location t.location).resolve_left (by simp [hle]))
  rw [List.filter_append, lastDeclared?_append, hnone, Option.none_or, hkept]

end Program

namespace Workspace

variable {w : Workspace} {t : Token} {rest : List Token} {ss : List NodeId}

/-- A line declares a label at its first token, and only if that is one. -/
theorem declaresAt_statement (hs : Sound ⟨w, [], ss⟩) (t : Token) (rest : List Token) :
    (statement t rest w).workspace.program.DeclaresAt (statement t rest w).value.toList
      ([t].filter (·.kind = .label)) := by
  intro id hid name label hk
  have hvalue : (statement t rest w).value = some id := by simpa using hid
  have hpush {w : Workspace} {kind : Node.Kind} (hkind : (w.push kind t.location).2.program.kind? w.program.size =
      some (.labelDecl name label)) : kind = .labelDecl name label :=
    Option.some.inj ((kind?_push_self w kind t.location).symm.trans hkind)
  have hterm {w : Workspace} (hs : Sound ⟨w, [], ss⟩) (hid : (term t w).1 = some id)
      (hk : (term t w).2.program.kind? id = some (.labelDecl name label)) : False := by
    have hsteps := steps_term [] ss w t
    rw [hid] at hsteps
    obtain ⟨k, hk', hexpression⟩ := (hs.steps hsteps).formed.operand id List.mem_cons_self
    cases hk.symm.trans hk'
    cases hexpression
  cases hkind : t.kind with
  | directive =>
    simp only [statement, hkind] at hvalue hk
    cases hvalue
    cases hpush hk
  | label =>
    obtain ⟨log, hlabel⟩ := exists_label_eq w t rest
    simp only [statement, hkind, hlabel] at hvalue ⊢
    cases hvalue
    have hnode := node?_push_self ((w.push (.label t.value) t.location).2.bind t.value w.program.size).2
      (.labelDecl t.value w.program.size) t.location
    refine ⟨t, by simp [hkind], ?_⟩
    rw [Program.location]
    exact congrArg (fun n => (n.map (·.location)).getD {}) hnode
  | identifier =>
    simp only [statement, hkind] at hvalue hk
    cases hcondition : Condition.ofMnemonic? t.value with
    | some condition =>
      simp only [command, hcondition] at hvalue hk
      cases htarget : (operand (t :: rest) rest w).value with
      | none =>
        simp only [htarget] at hvalue
        cases hvalue
      | some target =>
        simp only [htarget] at hvalue hk
        cases hvalue
        cases hpush hk
    | none =>
      by_cases hcompare : t.value = compareMnemonic
      · simp only [command, hcondition, if_pos hcompare] at hvalue hk
        split at hvalue
        · cases hvalue
          simp only [*] at hk
          cases hpush hk
        · cases hvalue
      · simp only [command, hcondition, if_neg hcompare] at hvalue hk
        exact (hterm (hs.steps (steps_tell [] ss w _)) hvalue hk).elim
  | _ =>
    simp only [statement, hkind] at hvalue hk
    exact (hterm hs hvalue hk).elim

end Workspace

namespace Draft

open Workspace

variable {tokens : List Token} {d : Draft} {ss : List NodeId}

theorem readLine_suffix_statement (t : Token) (rest : List Token) (d : Draft) :
    (readLine t rest d).1 <:+ (statement t rest d.toWorkspace).rest := by
  unfold readLine
  dsimp only
  split
  · exact List.dropWhile_suffix _
  · exact endOfStatement_suffix ..

/-- What is said of the statement of a line holds to the end. -/
theorem declaresAt_line (hs : Sound ⟨d.toWorkspace, [], ss⟩) (t : Token) (rest : List Token) :
    (read (readLine t rest d).1 (readLine t rest d).2).program.DeclaresAt
      (statement t rest d.toWorkspace).value.toList ([t].filter (·.kind = .label)) := by
  have hsound := hs.steps (steps_statement [] ss d.toWorkspace t rest)
  have hline : (statement t rest d.toWorkspace).workspace.program.Extends (readLine t rest d).2.program := by
    unfold readLine
    dsimp only
    split
    · exact .refl _
    · rw [program_endOfStatement, add_toWorkspace]
      exact .refl _
  have hlater := (steps_read (readLine t rest d).1 (readLine t rest d).2 []).extends
  refine (declaresAt_statement hs t rest).extends (fun id hid => ?_) (hline.trans hlater)
  exact hsound.formed.statement id (List.mem_append_left _ hid)

/-- Labels are declared at the tokens that are read. -/
theorem declaresAt_read (hs : Sound ⟨d.toWorkspace, [], ss⟩) : (read tokens d).program.DeclaresAt (inOrder tokens d) tokens := by
  fun_induction read tokens d generalizing ss with
  | case1 d =>
    rw [inOrder]
    exact .nil
  | case2 d t rest ht ih =>
    rw [inOrder, if_pos ht]
    exact (ih hs).mono (List.subset_cons_self ..)
  | case3 d t rest ht ih =>
    rw [inOrder, if_neg ht]
    have hfirst := declaresAt_line hs t rest
    have hlater := ih (hs.steps (steps_readLine t rest d [] ss))
    refine (hfirst.mono ?_).append (hlater.mono ?_)
    · exact List.Subset.trans List.filter_sublist.subset (List.cons_subset_cons t (List.nil_subset rest))
    · exact List.Subset.trans (readLine_suffix t rest d).subset (List.subset_cons_self t rest)

end Draft

/-! ## What stands before an interpolation -/

/-- An evaluation divides the lines of a program: names stand for what the statements before it declare, at the tokens
before it, and what comes later is declared at the tokens after it. -/
structure Evaluation.Divides (e : Evaluation) (p : Program) (ss : List NodeId) (pre : List Token) (before after : List NodeId) :
    Prop where
  kind : e.token.kind = .interpolation
  rooted : e.workspace.Rooted
  find? : ∀ name, e.workspace.find? name = p.lastDeclared? name (ss.reverse ++ before)
  before : p.DeclaresAt before pre
  after : p.DeclaresAt after e.rest

namespace Draft

open Workspace

variable {tokens : List Token} {d : Draft} {ss : List NodeId} {e : Evaluation}

/-- An evaluation in a line comes before the statement that the line is read as, and that declares nothing. -/
theorem exists_divides_of_line {t : Token} {rest : List Token} (hs : Sound ⟨d.toWorkspace, [], ss⟩)
    (hl : Latest ⟨d.toWorkspace, [], ss⟩) (he : e ∈ statementEvaluations t rest d.toWorkspace) :
    ∃ pre, t :: rest = pre ++ e.token :: e.rest ∧
      e.Divides (read (readLine t rest d).1 (readLine t rest d).2).program ss pre []
        ((statement t rest d.toWorkspace).value.toList ++ inOrder (readLine t rest d).1 (readLine t rest d).2) := by
  obtain ⟨hwithin, hlabel⟩ := isWithin_of_mem_statement he
  obtain ⟨os, hsteps⟩ := hwithin.steps [] ss
  obtain ⟨pre, hpre⟩ := hwithin.read
  have hline := steps_readLine t rest d [] ss
  have hext := hline.extends.trans (steps_read (readLine t rest d).1 (readLine t rest d).2 []).extends
  have hids : ∀ id ∈ ss.reverse, id < d.program.size := fun id hid => hs.formed.statement id (List.mem_reverse.1 hid)
  refine ⟨pre, hpre.symm, hwithin.kind, (hs.steps hsteps).named.toRooted, fun name => ?_, .nil, ?_⟩
  · have hlatest : e.workspace.find? name = e.workspace.program.lastDeclared? name ss.reverse := hl.steps hs hsteps name
    have hbefore : e.workspace.program.lastDeclared? name ss.reverse = d.program.lastDeclared? name ss.reverse :=
      hsteps.extends.lastDeclared?_eq hids
    rw [List.append_nil, hlatest, hbefore, hext.lastDeclared?_eq hids]
  · have hfirst := declaresAt_line hs t rest
    rw [List.filter_cons_of_neg (by simpa using hlabel), List.filter_nil] at hfirst
    have hlater : (read (readLine t rest d).1 (readLine t rest d).2).program.DeclaresAt
        (inOrder (readLine t rest d).1 (readLine t rest d).2) (readLine t rest d).1 := declaresAt_read (hs.steps hline)
    have hleft : (readLine t rest d).1 <:+ e.rest := (readLine_suffix_statement t rest d).trans hwithin.left
    exact (hfirst.mono (List.nil_subset _)).append (hlater.mono hleft.subset)

/-- Every evaluation divides the tokens that are read and the lines that they are read as. -/
theorem exists_divides (hs : Sound ⟨d.toWorkspace, [], ss⟩) (hl : Latest ⟨d.toWorkspace, [], ss⟩) (he : e ∈ evaluations tokens d) :
    ∃ pre before after, tokens = pre ++ e.token :: e.rest ∧ inOrder tokens d = before ++ after ∧
      e.Divides (read tokens d).program ss pre before after := by
  fun_induction read tokens d generalizing ss with
  | case1 d =>
    rw [evaluations] at he
    cases he
  | case2 d t rest ht ih =>
    rw [evaluations, if_pos ht] at he
    obtain ⟨pre, before, after, htokens, hlines, h⟩ := ih hs hl he
    rw [inOrder, if_pos ht]
    refine ⟨t :: pre, before, after, by rw [htokens, List.cons_append], hlines, ?_⟩
    exact { h with before := h.before.mono (List.subset_cons_self t pre) }
  | case3 d t rest ht ih =>
    rw [evaluations, if_neg ht] at he
    rw [inOrder, if_neg ht]
    rcases List.mem_append.1 he with he | he
    · obtain ⟨pre, htokens, h⟩ := exists_divides_of_line hs hl he
      exact ⟨pre, [], _, htokens, rfl, h⟩
    · have hline := steps_readLine t rest d [] ss
      obtain ⟨pre, before, after, htokens, hlines, h⟩ := ih (hs.steps hline) (hl.steps hs hline) he
      obtain ⟨used, hused⟩ := readLine_suffix t rest d
      -- The statement of the line is the first of those before the evaluation, and the token that it begins with is too.
      set line := (statement t rest d.toWorkspace).value.toList with hvalue
      have hone : line.reverse = line := by
        rw [hvalue]
        cases (statement t rest d.toWorkspace).value <;> rfl
      refine ⟨t :: used ++ pre, line ++ before, after, ?_, by rw [hlines, List.append_assoc], h.kind, h.rooted, fun name => ?_, ?_,
        h.after⟩
      · rw [← hused, htokens]
        simp
      · rw [h.find?, List.reverse_append, hone, List.append_assoc]
      · refine ((declaresAt_line hs t rest).mono fun u hu => ?_).append (h.before.mono (List.subset_append_right ..))
        obtain rfl := List.mem_singleton.1 (List.mem_filter.1 hu).1
        exact List.mem_append_left _ List.mem_cons_self

theorem inOrder_behind (tokens : List Token) (d : Draft) (ds : List Diagnostic) (log : Log) (hoisted others : Array NodeId) :
    inOrder tokens (d.behind ds log hoisted others) = inOrder tokens d := by
  fun_induction inOrder tokens d with
  | case1 => rw [inOrder]
  | case2 d t rest ht ih => rw [inOrder, if_pos ht, ih]
  | case3 d t rest ht ih =>
    rw [inOrder, if_neg ht, readLine_behind, ih, toWorkspace_behind, statement_behind]
    rfl

end Draft

/-! ## Sources -/

namespace Source

variable (s : Source)

/-- The draft that the lines of a source are read into. -/
def start : Draft where
  log := ((#[] : Log) ++ (Lexer.ofSource s).run.2).push ⟨.debug, .phase .parser, "Parsing started",
    [("file", .plain s.file), ("tokens", .nat s.tokens.length)]⟩

/-- The evaluations of interpolations while a source is read. -/
def evaluations : List Evaluation := Draft.evaluations s.tokens s.start

/-- The label of a name that is declared last up to a location. -/
def labelBefore? (l : Location) (name : String) : Option NodeId :=
  s.parse.program.lastDeclared? name (s.lines.filter fun id => (s.parse.program.location id).le l)

theorem parse_eq : s.parse = (Draft.read s.tokens s.start).finish := rfl

theorem lines_eq : s.lines = Draft.inOrder s.tokens s.start := by
  have hstart : s.start = ({} : Draft).behind [] s.start.log #[] #[] := by simp [start, Draft.behind, Workspace.behind]
  rw [hstart, Draft.inOrder_behind]
  rfl

variable {s} {e : Evaluation}

theorem kind?_of_labelBefore? {l : Location} {name : String} {label : NodeId} (h : s.labelBefore? l name = some label) :
    s.parse.program.kind? label = some (.label name) := by
  obtain ⟨id, -, hk⟩ := Program.exists_of_lastDeclared? h
  exact s.bound_parse.declares id name label hk

/-- Where an interpolation is evaluated, a name stands for the label that is declared last before it. -/
theorem find?_of_mem_evaluations (he : e ∈ s.evaluations) : e.token ∈ s.tokens ∧ e.token.kind = .interpolation ∧
    e.workspace.Rooted ∧ e.workspace.find? = s.labelBefore? e.token.location := by
  have hsound : Sound ⟨s.start.toWorkspace, [], []⟩ := Stage.sound_fresh _
  have hlatest : Latest ⟨s.start.toWorkspace, [], []⟩ := Stage.latest_fresh _
  obtain ⟨pre, before, after, htokens, hlines, h⟩ := Draft.exists_divides hsound hlatest he
  have hordered := s.tiled.1.pairwise
  rw [htokens] at hordered
  refine ⟨by simp [htokens], h.kind, h.rooted, funext fun name => ?_⟩
  have hlast := Program.lastDeclared?_filter_le hordered h.before h.after name
  rw [← hlines, ← s.lines_eq] at hlast
  exact (h.find? name).trans hlast.symm

/-- All interpolations that are evaluated, which are those that the log tells of, stand for what the first name inside
stands for that is declared as a label before the interpolation: for the nearest such label. What is reported of them are
the tokens inside before that name, or that there are none, and nothing else is changed. -/
theorem interpolations_evaluated (s : Source) :
    s.parse.evaluated = s.evaluations.map Evaluation.event ∧
    (∀ l name label, s.labelBefore? l name = some label → s.parse.program.kind? label = some (.label name)) ∧
    ∀ e ∈ s.evaluations,
      let label? := s.labelBefore? e.token.location
      let found := (e.workspace.interpolation e.token).1
      let w := (e.workspace.interpolation e.token).2
      e.token ∈ s.tokens ∧ e.token.kind = .interpolation ∧
      found = (Workspace.tokensInside e.token).1.findSome? (·.target? label?) ∧
      w.diagnostics = e.workspace.diagnostics ++ e.token.complaints label? ∧
      w.session = { e.workspace.session with diagnostics := w.diagnostics } ∧
      w.shared = e.workspace.shared ∧ w.program = e.workspace.program := by
  refine ⟨?_, fun l name label h => kind?_of_labelBefore? h, fun e he => ?_⟩
  · have hfinish (d : Draft) : d.finish.evaluated = d.evaluated := Workspace.evaluated_tell rfl d.toWorkspace
    have hstart : s.start.evaluated = [] := by
      have hlexer : (Lexer.ofSource s).run.2.filter Event.isEvaluation = [] := Lexer.filter_isEvaluation_run _
      simp [Workspace.evaluated, start, hlexer, Event.isEvaluation]
    rw [parse_eq, hfinish, Draft.evaluated_read, hstart, List.nil_append]
    rfl
  · obtain ⟨htoken, hkind, hrooted, hfind⟩ := find?_of_mem_evaluations he
    rw [hrooted.interpolation_eq, hfind]
    exact ⟨htoken, hkind, rfl, rfl, rfl, rfl, rfl⟩

/-- A label after the interpolation is none for it, nor is the same name declared again. -/
theorem interpolations_evaluated_of_forward :
    let s := ofChars "a" "a:\njmp $\x7bb 5 a\x7d\na:\nb:\ncmp $\x7b\x7d $\x7b\x7ba\x7d\x7d\n".toList
    s.parse.evaluated.length = 3 ∧ ∃ e ∈ s.evaluations, e.token.location = ⟨"a", 2, 5⟩ ∧
      (e.workspace.interpolation e.token).1 = some 0 ∧
      (e.workspace.interpolation e.token).2.diagnostics = e.workspace.diagnostics ++
        [{ cause := .unresolvedIdentifier, location := ⟨"a", 2, 7⟩, context := some "b" },
          { cause := .expectedIdentifier, location := ⟨"a", 2, 9⟩ }] ∧
      (e.workspace.interpolation e.token).2.program = e.workspace.program := by
  intro s
  let t : Token := ⟨.interpolation, "b 5 a", ⟨"a", 2, 5⟩⟩
  have hmem : ∃ e ∈ s.evaluations, e.token = t := by decide +kernel
  obtain ⟨e, he, htoken⟩ := hmem
  obtain ⟨hlog, -, hall⟩ := s.interpolations_evaluated
  obtain ⟨-, -, hfound, hdiagnostics, -, -, hprogram⟩ := hall e he
  have htarget : (Workspace.tokensInside t).1.findSome? (·.target? (s.labelBefore? t.location)) = some 0 := by decide +kernel
  have hcomplaints : t.complaints (s.labelBefore? t.location) =
      [{ cause := .unresolvedIdentifier, location := ⟨"a", 2, 7⟩, context := some "b" },
        { cause := .expectedIdentifier, location := ⟨"a", 2, 9⟩ }] := by decide +kernel
  rw [← htoken] at htarget hcomplaints
  refine ⟨?_, e, he, by rw [htoken], hfound.trans htarget, ?_, hprogram⟩
  · rw [hlog]
    decide +kernel
  · rw [hdiagnostics, hcomplaints]

end Source

end Assembler
