import Assembler.Proofs.Messages
import Assembler.Proofs.Operands
/-!
# The phase that a report names

A report names the phase that goes with a diagnostic's cause. All that is reported when names are resolved has a cause of
that phase (`Program.phase_of_mem_faults`), but not all that the parser reports has one of the parser's: a number that is
out of range and a directive with too many arguments are illegal expressions, as a jump to a string literal is. These
excesses are found as the lines are read (`Draft.excesses`), and nothing else that the parser reports is misplaced
(`Source.misplaced_parse`). Main statement: `Source.phases_of_diagnostics`.
-/

namespace Assembler

/-! ## Excesses -/

namespace Workspace

/-- What is reported of a directive that has more arguments than it may have. -/
def tooMany? (t : Token) (count : Nat) : Option Diagnostic :=
  if maxArguments < count then
    some
      { cause := .illegalExpression, location := t.location,
        context := some ("directive '." ++ t.value ++ "' has " ++ Text.decimal count ++ " arguments (max "
          ++ Text.decimal maxArguments ++ ")") }
  else none

/-- What is reported of the numbers in a statement that are out of range, and then of too many arguments. -/
def statementExcesses (t : Token) (rest : List Token) (w : Workspace) : List Diagnostic :=
  (statementTerms t rest w).filterMap Token.outOfRange? ++
    if t.kind = .directive then (tooMany? t (arguments rest w).value.length).toList else []

end Workspace

/-- What is reported of numbers out of range and of too many arguments while all lines are read. -/
def Draft.excesses (tokens : List Token) (d : Draft) : List Diagnostic :=
  match tokens with
  | [] => []
  | t :: rest =>
    if t.isNewline then excesses rest d
    else Workspace.statementExcesses t rest d.toWorkspace ++ excesses (readLine t rest d).1 (readLine t rest d).2
termination_by tokens.length
decreasing_by
  · simp
  · exact Nat.lt_succ_of_le (readLine_suffix t rest d).length_le

/-- What is reported of the numbers in a source that are out of range, and of its directives with too many arguments. -/
def Source.excesses (s : Source) : List Diagnostic := Draft.excesses s.tokens {}

/-! ## What the parser reports -/

namespace Workspace

variable {w w' w'' : Workspace} {ds ds' : List Diagnostic}

/-- The diagnostics with a cause that is not the parser's. -/
def misplaced (w : Workspace) : List Diagnostic := w.diagnostics.filter (·.cause.phase ≠ .parser)

/-- Of what is reported from one workspace to another, these diagnostics have a cause that is not the parser's. -/
def Misplaces (ds : List Diagnostic) (w w' : Workspace) : Prop := w'.misplaced = w.misplaced ++ ds

namespace Misplaces

theorem of_eq (h : w'.diagnostics = w.diagnostics) : Misplaces [] w w' := by
  rw [Misplaces, misplaced, h, List.append_nil, misplaced]

theorem refl (w : Workspace) : Misplaces [] w w := of_eq rfl

theorem trans (h : Misplaces ds w w') (h' : Misplaces ds' w' w'') : Misplaces (ds ++ ds') w w'' := by
  rw [Misplaces, h', h, List.append_assoc]

/-- What is reported besides is the parser's. -/
theorem trans_nil (h : Misplaces ds w w') (h' : Misplaces [] w' w'') : Misplaces ds w w'' := by
  have hboth := h.trans h'
  rwa [List.append_nil] at hboth

theorem reject {cause : Cause} (h : cause.phase = .parser) (location : Location) (context : Option String) :
    Misplaces [] w (w.reject cause location context) := by
  simp [Misplaces, misplaced, Workspace.reject, tell, report, Session.report, diagnostics, h]

theorem illegal (location : Location) (context : Option String) :
    Misplaces [{ cause := .illegalExpression, location, context }] w (w.reject .illegalExpression location context) := by
  simp [Misplaces, misplaced, Workspace.reject, tell, report, Session.report, diagnostics, Cause.phase]

end Misplaces

theorem misplaces_literal {t : Token} {kind : Option Node.Kind} (hkind : t.leaf? = kind) (complaint : String)
    (hreport : kind = none → t.rangeComplaint? = some complaint) (w : Workspace) :
    Misplaces ([t].filterMap Token.outOfRange?) w (literal t kind complaint w).2 := by
  cases kind with
  | none =>
    have hrange : t.outOfRange? =
        some { cause := .illegalExpression, location := t.location, context := some complaint } := by
      rw [Token.outOfRange?, hkind, hreport rfl]
      rfl
    rw [List.filterMap_cons_some hrange]
    exact .illegal t.location (some complaint)
  | some k =>
    have hrange : t.outOfRange? = none := by rw [Token.outOfRange?, hkind]
    rw [List.filterMap_cons_none hrange]
    exact .of_eq rfl

/-- Whatever is wrong inside an interpolation, its cause is the parser's. -/
theorem misplaces_interpolation (t : Token) (w : Workspace) : Misplaces [] w (interpolation t w).2 := by
  have hnone : (t.complaints w.findInside?).filter (·.cause.phase ≠ .parser) = [] := by
    rw [List.filter_eq_nil_iff]
    intro d hd
    rcases Token.cases_of_mem_complaintsInside ((t.complaints_prefix _).subset hd) with rfl | ⟨u, -, rfl⟩
    · simp [Cause.phase]
    · unfold Token.passedOver
      split <;> simp [Cause.phase]
  rw [Misplaces, misplaced, diagnostics_interpolation, List.filter_append, hnone, misplaced]

theorem misplaces_term (t : Token) (w : Workspace) : Misplaces ([t].filterMap Token.outOfRange?) w (term t w).2 := by
  obtain ⟨kind, value, location⟩ := t
  cases kind with
  | identifier => exact misplaces_literal (show Token.leaf? _ = some _ from rfl) "" nofun w
  | string => exact misplaces_literal (show Token.leaf? _ = some _ from rfl) "" nofun w
  | integer => exact misplaces_literal rfl _ (fun _ => rfl) w
  | register => exact misplaces_literal rfl _ (fun _ => rfl) w
  | localSlot => exact misplaces_literal rfl _ (fun _ => rfl) w
  | interpolation => exact misplaces_interpolation _ w
  | newline => exact .reject rfl location none
  | _ => exact .reject rfl location (some _)

theorem misplaces_arguments (tokens : List Token) (w : Workspace) :
    Misplaces ((argumentTerms tokens w).filterMap Token.outOfRange?) w (arguments tokens w).workspace := by
  fun_induction arguments tokens w with
  | case1 => exact .refl _
  | case2 t rest w h =>
    rw [argumentTerms, if_pos h]
    exact .refl w
  | case3 t rest w h w' hterm =>
    have hfirst := misplaces_term t w
    rw [hterm] at hfirst
    rw [argumentTerms, if_neg h, hterm]
    exact hfirst
  | case4 t rest w h id w' hterm more ih =>
    -- The excess of the first argument is reported before those of the others.
    have hfirst := misplaces_term t w
    rw [hterm] at hfirst
    rw [argumentTerms, if_neg h, hterm, ← List.singleton_append, List.filterMap_append]
    exact hfirst.trans ih

theorem misplaces_operand (statement rest : List Token) (w : Workspace) :
    Misplaces ((operandTerms rest).filterMap Token.outOfRange?) w (operand statement rest w).workspace := by
  cases rest with
  | nil => exact .reject rfl _ none
  | cons t after =>
    by_cases hnewline : t.kind = .newline
    · simp only [operand, operandTerms, hnewline, if_true]
      exact .reject rfl _ none
    · simp only [operand, operandTerms, hnewline, if_false]
      exact misplaces_term t w

theorem misplaces_limitArguments (t : Token) (count : Nat) (w : Workspace) :
    Misplaces (tooMany? t count).toList w (w.limitArguments t count) := by
  unfold limitArguments tooMany?
  split
  · exact .illegal t.location _
  · exact .refl w

theorem misplaces_requireClosed (closed : Bool) (location : Location) (w : Workspace) :
    Misplaces [] w (w.requireClosed closed location) := by
  unfold requireClosed
  split
  · exact .refl w
  · exact .reject rfl location _

theorem misplaces_directive (t : Token) (rest : List Token) (w : Workspace) :
    Misplaces ((argumentTerms rest w).filterMap Token.outOfRange? ++ (tooMany? t (arguments rest w).value.length).toList) w
      (directive t rest w).workspace := by
  have harguments := misplaces_arguments rest w
  have hlimit := misplaces_limitArguments t (arguments rest w).value.length (arguments rest w).workspace
  have hclosed := misplaces_requireClosed (optionalBody (arguments rest w).rest).closed (lastLocation (t :: rest))
    ((arguments rest w).workspace.limitArguments t (arguments rest w).value.length)
  exact (harguments.trans hlimit).trans_nil (hclosed.trans_nil (.of_eq rfl))

theorem misplaces_label (t : Token) (rest : List Token) (w : Workspace) : Misplaces [] w (label t rest w).workspace := by
  refine .of_eq ?_
  simp only [label]
  split <;> rfl

theorem misplaces_command (t : Token) (rest : List Token) (w : Workspace) :
    Misplaces ((commandTerms t rest w).filterMap Token.outOfRange?) w (command t rest w).workspace := by
  have hleft := misplaces_operand (t :: rest) rest w
  cases hcondition : Condition.ofMnemonic? t.value with
  | some condition =>
    simp only [command, commandTerms, hcondition]
    split
    · exact hleft.trans_nil (.of_eq rfl)
    · exact hleft
  | none =>
    by_cases hcompare : t.value = compareMnemonic
    · have hright := misplaces_operand (t :: rest) (operand (t :: rest) rest w).rest (operand (t :: rest) rest w).workspace
      have hboth := hleft.trans hright
      simp only [command, commandTerms, hcondition, if_pos hcompare, List.filterMap_append]
      split
      · exact hboth.trans_nil (.of_eq rfl)
      · exact hboth
    · simp only [command, commandTerms, hcondition, if_neg hcompare]
      exact (Misplaces.of_eq rfl).trans (misplaces_term t _)

theorem misplaces_statement (t : Token) (rest : List Token) (w : Workspace) :
    Misplaces (statementExcesses t rest w) w (statement t rest w).workspace := by
  unfold statementExcesses
  cases hkind : t.kind with
  | directive =>
    simp only [statement, statementTerms, hkind, if_true]
    exact misplaces_directive t rest w
  | label =>
    simp only [statement, statementTerms, hkind]
    exact misplaces_label t rest w
  | identifier =>
    simp only [statement, statementTerms, hkind, reduceCtorEq, if_false, List.append_nil]
    exact misplaces_command t rest w
  | _ =>
    simp only [statement, statementTerms, hkind, reduceCtorEq, if_false, List.append_nil]
    exact misplaces_term t w

theorem misplaces_endOfStatement (tokens : List Token) (w : Workspace) : Misplaces [] w (endOfStatement tokens w).2 := by
  unfold endOfStatement
  split
  · exact .refl w
  · split
    · exact .refl w
    · exact .reject rfl _ none

end Workspace

namespace Draft

open Workspace

theorem misplaces_readLine (t : Token) (rest : List Token) (d : Draft) :
    Misplaces (statementExcesses t rest d.toWorkspace) d.toWorkspace (readLine t rest d).2.toWorkspace := by
  have hstatement := misplaces_statement t rest d.toWorkspace
  unfold readLine
  dsimp only
  split
  · exact hstatement
  · rw [add_toWorkspace]
    exact hstatement.trans_nil (.trans_nil (.of_eq rfl) (misplaces_endOfStatement ..))

/-- Of all that is reported while lines are read, the excesses and nothing else have a cause that is not the parser's. -/
theorem misplaces_read (tokens : List Token) (d : Draft) :
    Misplaces (excesses tokens d) d.toWorkspace (read tokens d).toWorkspace := by
  fun_induction read tokens d with
  | case1 d =>
    rw [excesses]
    exact .refl _
  | case2 d t rest ht ih =>
    rw [excesses, if_pos ht]
    exact ih
  | case3 d t rest ht ih =>
    rw [excesses, if_neg ht]
    exact (misplaces_readLine t rest d).trans ih

end Draft

theorem Source.misplaced_parse (s : Source) : s.parse.diagnostics.filter (·.cause.phase ≠ .parser) = s.excesses := by
  obtain ⟨log, hparse⟩ := s.exists_parse_eq
  obtain ⟨log', hread⟩ := Workspace.exists_parse_eq log s.file s.tokens
  rw [hparse, hread]
  exact Eq.trans (Draft.misplaces_read s.tokens {}) (List.nil_append _)

/-! ## What resolving names reports -/

/-- A fault is about a name that is not declared, or about a string literal that is jumped to. -/
theorem Program.cases_of_mem_faults {p : Program} {declared : String → Bool} {id : NodeId} {d : Diagnostic}
    (h : d ∈ p.faults declared id) : d.cause = .undeclaredIdentifier ∨
      d.cause = .illegalExpression ∧ ∃ value, d.context = some ("cannot jump to string literal " ++ Text.quoted value) := by
  obtain ⟨part, -, hname | htarget⟩ := exists_part_of_mem_faults h
  · unfold nameFault at hname
    split at hname
    · split at hname
      · cases hname
      · obtain rfl := List.mem_singleton.1 hname
        exact .inl rfl
    · cases hname
  · unfold targetFault at htarget
    split at htarget
    · rename_i value hk
      obtain rfl := List.mem_singleton.1 htarget
      exact .inr ⟨rfl, value, rfl⟩
    · cases htarget

theorem Program.phase_of_mem_faults {p : Program} {declared : String → Bool} {id : NodeId} {d : Diagnostic}
    (h : d ∈ p.faults declared id) : d.cause.phase = .analyzer := by
  rcases cases_of_mem_faults h with hcause | ⟨hcause, -⟩ <;> rw [hcause] <;> rfl

/-! ## An excess is none of these -/

/-- The first character of what a diagnostic explains. -/
def Diagnostic.initial? (d : Diagnostic) : Option Char := d.context.bind (·.toList.head?)

theorem Text.head_append {first : String} {c : Char} (h : first.toList.head? = some c) (rest : String) :
    (first ++ rest).toList.head? = some c := by
  rw [String.toList_append, List.head?_append, h]
  rfl

/-- The diagnostic is an illegal expression and explained by a text that does not begin as what is said of a jump does. -/
def Diagnostic.IsExcess (d : Diagnostic) : Prop := d.cause = .illegalExpression ∧ ∃ c, c ≠ 'c' ∧ d.initial? = some c

theorem Token.isExcess_of_outOfRange {t : Token} {d : Diagnostic} (h : t.outOfRange? = some d) : d.IsExcess := by
  unfold outOfRange? at h
  split at h
  · cases h
  · unfold rangeComplaint? at h
    split at h
    · cases h
      exact ⟨rfl, 'i', by decide, Text.head_append (Text.head_append rfl _) _⟩
    · cases h
      exact ⟨rfl, 'R', by decide, Text.head_append (Text.head_append rfl _) _⟩
    · cases h
      exact ⟨rfl, 'L', by decide, Text.head_append (Text.head_append rfl _) _⟩
    · cases h

theorem Workspace.isExcess_of_tooMany {t : Token} {count : Nat} {d : Diagnostic} (h : tooMany? t count = some d) :
    d.IsExcess := by
  unfold tooMany? at h
  split at h
  · cases h
    simp only [String.append_assoc]
    exact ⟨rfl, 'd', by decide, Text.head_append rfl _⟩
  · cases h

theorem Workspace.isExcess_of_mem_statementExcesses {t : Token} {rest : List Token} {w : Workspace} {d : Diagnostic}
    (h : d ∈ statementExcesses t rest w) : d.IsExcess := by
  rcases List.mem_append.1 h with h | h
  · obtain ⟨u, -, hrange⟩ := List.mem_filterMap.1 h
    exact Token.isExcess_of_outOfRange hrange
  · split at h
    · exact isExcess_of_tooMany (Option.mem_toList.1 h)
    · cases h

theorem Draft.isExcess_of_mem_excesses {tokens : List Token} {w : Draft} {d : Diagnostic} (h : d ∈ excesses tokens w) :
    d.IsExcess := by
  fun_induction excesses tokens w with
  | case1 => cases h
  | case2 w t rest ht ih => exact ih h
  | case3 w t rest ht ih =>
    rcases List.mem_append.1 h with h | h
    · exact Workspace.isExcess_of_mem_statementExcesses h
    · exact ih h

theorem Program.not_isExcess_of_mem_faults {p : Program} {declared : String → Bool} {id : NodeId} {d : Diagnostic}
    (h : d ∈ p.faults declared id) : ¬ d.IsExcess := by
  rintro ⟨hcause, c, hc, hinitial⟩
  rcases cases_of_mem_faults h with hname | ⟨-, value, hcontext⟩
  · rw [hcause] at hname
    cases hname
  · have htext : d.initial? = some 'c' := by
      rw [Diagnostic.initial?, hcontext]
      exact Text.head_append rfl _
    exact hc (Option.some.inj (hinitial.symm.trans htext))

namespace Source

variable {s : Source}

/-- What is reported when the names of a source are resolved. -/
def faults (s : Source) : List Diagnostic := s.parse.program.statements.flatMap (s.parse.program.faults s.declares)

theorem phase_of_mem_faults {d : Diagnostic} (h : d ∈ s.faults) : d.cause.phase = .analyzer := by
  obtain ⟨id, -, hfault⟩ := List.mem_flatMap.1 h
  exact Program.phase_of_mem_faults hfault

theorem not_mem_excesses_of_mem_faults {d : Diagnostic} (h : d ∈ s.faults) : d ∉ s.excesses := by
  obtain ⟨id, -, hfault⟩ := List.mem_flatMap.1 h
  exact fun hexcess => Program.not_isExcess_of_mem_faults hfault (Draft.isExcess_of_mem_excesses hexcess)

theorem mem_excesses_iff {d : Diagnostic} (h : d ∈ s.parse.diagnostics) : d ∈ s.excesses ↔ d.cause.phase ≠ .parser := by
  rw [← misplaced_parse, List.mem_filter, decide_eq_true_iff]
  exact and_iff_right h

/-- The two phases that report something of a source do not report the same. -/
theorem not_mem_parse_of_mem_faults {d : Diagnostic} (h : d ∈ s.faults) : d ∉ s.parse.diagnostics := by
  intro hparse
  refine not_mem_excesses_of_mem_faults h ((mem_excesses_iff hparse).2 ?_)
  rw [phase_of_mem_faults h]
  decide

/-- The phase in which a diagnostic of a source is reported. -/
def raisedIn (s : Source) (d : Diagnostic) : Phase := if d ∈ s.parse.diagnostics then .parser else .analyzer

theorem raisedIn_of_mem_faults {d : Diagnostic} (h : d ∈ s.faults) : s.raisedIn d = .analyzer :=
  if_neg (not_mem_parse_of_mem_faults h)

/-- A cause goes with the phase that reported it, except that of an excess. -/
theorem phase_eq_raisedIn_iff {d : Diagnostic} (h : d ∈ s.analyze.diagnostics) :
    d.cause.phase = s.raisedIn d ↔ d ∉ s.excesses := by
  rw [s.analyze_reports.1] at h
  rcases List.mem_append.1 h with hparse | hfault
  · rw [raisedIn, if_pos hparse, mem_excesses_iff hparse, not_not]
  · rw [raisedIn_of_mem_faults hfault]
    exact ⟨fun _ => not_mem_excesses_of_mem_faults hfault, fun _ => phase_of_mem_faults hfault⟩

/-- Every diagnostic that resolving names adds is reported by the analyzer and has a cause of that phase. The parser's have
the cause of another phase just if they are excesses: numbers out of range and directives with too many arguments, as they
are met line by line. So every report of a failed assembly, up to any limit, names the phase that reported its diagnostic
unless this is an excess, and so does the failure, which goes by the first. -/
theorem phases_of_diagnostics (s : Source) :
    s.analyze.diagnostics = s.parse.diagnostics ++ s.faults ∧
    (∀ d ∈ s.faults, s.raisedIn d = .analyzer ∧ d.cause.phase = .analyzer) ∧
    s.parse.diagnostics.filter (·.cause.phase ≠ .parser) = s.excesses ∧
    ∀ settings ds, (s.assemble settings).1 = .error (.diagnostics ds) →
      (∀ limit, ∃ shown, shown <+: ds ∧ (Failure.diagnostics ds).reports limit = shown.map .ofDiagnostic ∧
        ∀ d ∈ shown, (Report.ofDiagnostic d).phase = s.raisedIn d ↔ d ∉ s.excesses) ∧
      ∃ d ∈ ds.head?, (Failure.diagnostics ds).phase = s.raisedIn d ↔ d ∉ s.excesses := by
  refine ⟨s.analyze_reports.1, fun d hd => ⟨raisedIn_of_mem_faults hd, phase_of_mem_faults hd⟩, s.misplaced_parse,
    fun settings ds herror => ?_⟩
  have hphase (d : Diagnostic) (hd : d ∈ ds) : (Report.ofDiagnostic d).phase = s.raisedIn d ↔ d ∉ s.excesses :=
    phase_eq_raisedIn_iff ((Tells.failed herror).subset hd)
  refine ⟨fun limit => ⟨if limit = 0 then ds else ds.take limit, ?_, rfl, fun d hd => hphase d ?_⟩, ?_⟩
  · split
    · exact List.prefix_refl ds
    · exact List.take_prefix limit ds
  · split at hd
    · exact hd
    · exact List.mem_of_mem_take hd
  · -- A failure for nothing at all is none.
    obtain ⟨_, -, -, -, hfailure⟩ := s.assemble_outcome settings
    obtain ⟨_, ⟨⟩, hne, -⟩ := hfailure _ herror
    cases ds with
    | nil => exact absurd rfl hne
    | cons d rest => exact ⟨d, rfl, hphase d List.mem_cons_self⟩

/-- A local slot that is out of range, a name that is not declared, and a jump that stops at the end of its line: the failure
goes by the first, which the parser reported. -/
theorem phases_of_diagnostics_of_three :
    let s := ofChars "t.asm" "jmp %4294967296\njmp x\njmp\n".toList
    s.parse.diagnostics.map (fun d => (d.cause, d.cause.phase)) =
        [(.illegalExpression, .analyzer), (.unexpectedEol, .parser)] ∧
      s.faults.map (fun d => (d.cause, d.cause.phase)) = [(.undeclaredIdentifier, .analyzer)] ∧
      s.excesses.map (·.text) = ["t.asm:1:5: error: illegal expression: LOCAL index '4294967296' out of range"] ∧
      s.parse.diagnostics.filter (·.cause.phase ≠ .parser) = s.excesses ∧
      ∃ ds, (s.assemble {}).1 = .error (.diagnostics ds) ∧
        ∃ d ∈ ds.head?, (Failure.diagnostics ds).phase = s.raisedIn d ↔ d ∉ s.excesses := by
  intro s
  have hne : s.analyze.diagnostics ≠ [] := by decide +kernel
  have herror := s.assemble_of_diagnostics {} hne
  obtain ⟨-, -, hmisplaced, hfailed⟩ := s.phases_of_diagnostics
  exact ⟨by decide +kernel, by decide +kernel, by decide +kernel, hmisplaced, _, herror, (hfailed {} _ herror).2⟩

/-- The parser alone reports a local slot that is out of range, and the report and the failure name the analyzer. -/
theorem not_reported_by_phase :
    let s := ofChars "t.asm" "jmp %4294967296\n".toList
    s.faults = [] ∧ ∃ ds, (s.assemble {}).1 = .error (.diagnostics ds) ∧ ds.map s.raisedIn = [.parser] ∧
      ((Failure.diagnostics ds).reports 0).map (·.phase) = [.analyzer] ∧ (Failure.diagnostics ds).phase = .analyzer := by
  intro s
  have hne : s.analyze.diagnostics ≠ [] := by decide +kernel
  exact ⟨by decide +kernel, _, s.assemble_of_diagnostics {} hne, by decide +kernel, by decide +kernel, by decide +kernel⟩

end Source

end Assembler
