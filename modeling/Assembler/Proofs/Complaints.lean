import Assembler.Proofs.Prior
import Assembler.Proofs.Stages
/-!
# What the parser complains of

All that the parser reports is about the tokens it reads, or about the tokens inside an interpolation
among them. `Complaint` lists what it may say, each with its cause, its location and its context, and
every reader adds such diagnostics only to those there are (`Workspace.complains_term` to
`Draft.complains_read`).
-/

namespace Assembler

/-! ## Complaints -/

namespace Token

/-- What is reported of a token inside an interpolation that is passed over. -/
def passedOver (t : Token) : Diagnostic :=
  if t.kind = .identifier then { cause := .unresolvedIdentifier, location := t.location, context := some t.value }
  else { cause := .expectedIdentifier, location := t.location }

/-- What is reported of an interpolation in which no name stands for a node. -/
def complaintsInside (t : Token) : List Diagnostic :=
  let (tokens, _) := Workspace.tokensInside t
  if tokens.isEmpty then [{ cause := .expectedIdentifier, location := t.location }] else tokens.map passedOver

/-- What a token inside an interpolation stands for, if it is a name that is found. -/
def target? (find? : String → Option NodeId) (t : Token) : Option NodeId := if t.kind = .identifier then find? t.value else none

/-- What is reported of an interpolation: that it is empty, or each token inside that comes before the first one that
stands for something. -/
def complaints (find? : String → Option NodeId) (t : Token) : List Diagnostic :=
  let (tokens, _) := Workspace.tokensInside t
  if tokens.isEmpty then [{ cause := .expectedIdentifier, location := t.location }]
  else (tokens.takeWhile fun u => (u.target? find?).isNone).map passedOver

theorem complaints_prefix (find? : String → Option NodeId) (t : Token) : t.complaints find? <+: t.complaintsInside := by
  simp only [complaints, complaintsInside]
  split
  · exact List.prefix_rfl
  · exact (List.takeWhile_prefix _).map _

@[simp] theorem location_passedOver (t : Token) : t.passedOver.location = t.location := by
  unfold passedOver
  split <;> rfl

@[simp] theorem severity_passedOver (t : Token) : t.passedOver.severity = .error := by
  unfold passedOver
  split <;> rfl

/-- What is reported of an interpolation is at its own location if it is empty, and else at that of a token inside. -/
theorem cases_of_mem_complaintsInside {t : Token} {d : Diagnostic} (h : d ∈ t.complaintsInside) :
    d = { cause := .expectedIdentifier, location := t.location } ∨ ∃ u ∈ (Workspace.tokensInside t).1, d = u.passedOver := by
  unfold complaintsInside at h
  dsimp only at h
  split at h
  · exact .inl (List.mem_singleton.1 h)
  · obtain ⟨u, hu, rfl⟩ := List.mem_map.1 h
    exact .inr ⟨u, hu, rfl⟩

end Token

/-- What the parser may report of some tokens. -/
inductive Complaint (tokens : List Token) : Diagnostic → Prop
  | unexpectedEof {t : Token} (ht : t ∈ tokens) : Complaint tokens { cause := .unexpectedEof, location := t.location }
  | unexpectedEol {t : Token} (ht : t ∈ tokens) (hkind : t.kind = .newline) :
      Complaint tokens { cause := .unexpectedEol, location := t.location }
  | unexpectedToken {t : Token} (ht : t ∈ tokens) (hkind : t.kind ∉ [.string, .interpolation, .newline]) :
      Complaint tokens { cause := .unexpectedToken, location := t.location, context := some t.repr }
  | expectedEndOfStatement {t : Token} (ht : t ∈ tokens) (hkind : t.kind ≠ .newline) :
      Complaint tokens { cause := .expectedEndOfStatement, location := t.location }
  | unclosed {t : Token} (ht : t ∈ tokens) :
      Complaint tokens { cause := .expectedToken, location := t.location, context := some Token.Kind.closeBrace.name }
  | outOfRange {t : Token} {what : String} (ht : t ∈ tokens) (hkind : t.kind ∈ [.integer, .register, .localSlot])
      (hwhat : what ∈ ["integer literal '", Store.register.name ++ " index '", Store.localSlot.name ++ " index '"]) :
      Complaint tokens
        { cause := .illegalExpression, location := t.location, context := some (what ++ t.value ++ "' out of range") }
  | tooMany {t : Token} {count : Nat} (ht : t ∈ tokens) (hkind : t.kind = .directive) (hcount : maxArguments < count) :
      Complaint tokens
        { cause := .illegalExpression, location := t.location,
          context := some ("directive '." ++ t.value ++ "' has " ++ Text.decimal count ++ " arguments (max "
            ++ Text.decimal maxArguments ++ ")") }
  | inside {t : Token} {d : Diagnostic} (ht : t ∈ tokens) (hkind : t.kind = .interpolation) (hd : d ∈ t.complaintsInside) :
      Complaint tokens d

theorem Complaint.mono {tokens tokens' : List Token} {d : Diagnostic} (h : Complaint tokens d) (hsub : tokens ⊆ tokens') :
    Complaint tokens' d := by
  cases h with
  | unexpectedEof ht => exact .unexpectedEof (hsub ht)
  | unexpectedEol ht hkind => exact .unexpectedEol (hsub ht) hkind
  | unexpectedToken ht hkind => exact .unexpectedToken (hsub ht) hkind
  | expectedEndOfStatement ht hkind => exact .expectedEndOfStatement (hsub ht) hkind
  | unclosed ht => exact .unclosed (hsub ht)
  | outOfRange ht hkind hwhat => exact .outOfRange (hsub ht) hkind hwhat
  | tooMany ht hkind hcount => exact .tooMany (hsub ht) hkind hcount
  | inside ht hkind hd => exact .inside (hsub ht) hkind hd

/-- Whatever the parser complains of is an error. -/
theorem Complaint.severity_eq {tokens : List Token} {d : Diagnostic} (h : Complaint tokens d) : d.severity = .error := by
  cases h with
  | inside ht hkind hd =>
    obtain rfl | ⟨u, -, rfl⟩ := Token.cases_of_mem_complaintsInside hd
    · rfl
    · exact u.severity_passedOver
  | _ => rfl

namespace Workspace

variable {tokens tokens' : List Token} {w w' w'' : Workspace}

/-! ## Complaining -/

/-- A workspace has the diagnostics of another, and then some that are complaints of tokens. -/
def Complains (tokens : List Token) (w w' : Workspace) : Prop :=
  ∃ ds, w'.diagnostics = w.diagnostics ++ ds ∧ ∀ d ∈ ds, Complaint tokens d

namespace Complains

theorem of_eq (h : w'.diagnostics = w.diagnostics) : Complains tokens w w' := ⟨[], by simpa using h, by simp⟩

theorem refl (w : Workspace) : Complains tokens w w := of_eq rfl

theorem trans (h : Complains tokens w w') (h' : Complains tokens w' w'') : Complains tokens w w'' := by
  obtain ⟨ds, hds, hall⟩ := h
  obtain ⟨ds', hds', hall'⟩ := h'
  exact ⟨ds ++ ds', by rw [hds', hds, List.append_assoc], List.forall_mem_append.2 ⟨hall, hall'⟩⟩

theorem mono (h : Complains tokens w w') (hsub : tokens ⊆ tokens') : Complains tokens' w w' :=
  h.imp fun _ ⟨hds, hall⟩ => ⟨hds, fun d hd => (hall d hd).mono hsub⟩

theorem reject {cause : Cause} {location : Location} {context : Option String}
    (h : Complaint tokens { cause, location, context }) : Complains tokens w (w.reject cause location context) :=
  ⟨[_], rfl, List.forall_mem_singleton.2 h⟩

end Complains

/-! ## Terms -/

/-- Whether a token is a name that stands for a node. -/
def isBound (shared : Shared) (s : Session) (t : Token) : Bool := t.kind = .identifier && (s.find? shared t.value).isSome

/-- Each token before the first bound name is reported. -/
theorem diagnostics_firstBound (shared : Shared) (tokens : List Token) (s : Session) :
    (firstBound shared tokens s).2.diagnostics =
      s.diagnostics ++ (tokens.takeWhile (!isBound shared s ·)).map Token.passedOver := by
  fun_induction firstBound shared tokens s with
  | case1 => simp
  | case2 t rest s hkind node hnode => simp [isBound, hkind, hnode]
  | case3 t rest s hkind hnone ih =>
    rw [ih, List.takeWhile_cons_of_pos (by simp [isBound, hnone])]
    simp [Session.report, Token.passedOver, hkind, isBound, Session.find?]
  | case4 t rest s hkind ih =>
    rw [ih, List.takeWhile_cons_of_pos (by simp [isBound, hkind])]
    simp [Session.report, Token.passedOver, hkind, isBound, Session.find?]

theorem not_isBound (shared : Shared) (s : Session) (t : Token) :
    (!isBound shared s t) = (t.target? (s.find? shared)).isNone := by
  unfold isBound Token.target?
  by_cases hkind : t.kind = .identifier <;> simp [hkind]

/-- Names in an interpolation are looked up in the session inside. -/
theorem diagnostics_interpolation (t : Token) (w : Workspace) :
    (interpolation t w).2.diagnostics = w.diagnostics ++ t.complaints w.findInside? := by
  by_cases hempty : (tokensInside t).1.isEmpty
  · rw [List.isEmpty_iff] at hempty
    simp [interpolation, Token.complaints, hempty, firstBound, Session.absorb, Session.report, Session.child, diagnostics]
  · simp only [interpolation, Token.complaints, hempty, diagnostics, Session.absorb, diagnostics_firstBound, not_isBound,
      Bool.false_eq_true, if_false]
    rfl

/-- An interpolation is reported from its first token on, until a name in it stands for a node. -/
theorem exists_diagnostics_interpolation (t : Token) (w : Workspace) :
    ∃ ds, ds <+: t.complaintsInside ∧ (interpolation t w).2.diagnostics = w.diagnostics ++ ds :=
  ⟨_, t.complaints_prefix w.findInside?, diagnostics_interpolation t w⟩

theorem complains_interpolation {t : Token} (hkind : t.kind = .interpolation) (w : Workspace) :
    Complains [t] w (interpolation t w).2 := by
  obtain ⟨ds, hbegin, hds⟩ := exists_diagnostics_interpolation t w
  exact ⟨ds, hds, fun d hd => .inside List.mem_cons_self hkind (hbegin.subset hd)⟩

theorem complains_literal {t : Token} {kind : Option Node.Kind} {complaint : String}
    (h : kind = none → Complaint tokens { cause := .illegalExpression, location := t.location, context := some complaint })
    (w : Workspace) : Complains tokens w (literal t kind complaint w).2 := by
  cases kind with
  | none => exact .reject (h rfl)
  | some kind => exact .of_eq rfl

theorem complains_term (t : Token) (w : Workspace) : Complains [t] w (term t w).2 := by
  have hmem : t ∈ [t] := List.mem_cons_self
  unfold term
  split
  · exact .of_eq rfl
  · exact complains_literal (fun _ => .outOfRange hmem (by simp [*]) (by simp)) w
  · exact .of_eq rfl
  · exact complains_interpolation ‹_› w
  · exact complains_literal (fun _ => .outOfRange hmem (by simp [*]) (by simp)) w
  · exact complains_literal (fun _ => .outOfRange hmem (by simp [*]) (by simp)) w
  · exact .reject (.unexpectedEol hmem ‹_›)
  · rename_i hstring hinterpolation _ _ hnewline
    exact .reject (.unexpectedToken hmem (by simpa using ⟨hstring, hinterpolation, hnewline⟩))

/-! ## Statements -/

theorem complains_term_of_mem {t : Token} (ht : t ∈ tokens) (w : Workspace) : Complains tokens w (term t w).2 :=
  (complains_term t w).mono (List.cons_subset.2 ⟨ht, List.nil_subset _⟩)

theorem complains_arguments (tokens : List Token) (w : Workspace) : Complains tokens w (arguments tokens w).workspace := by
  fun_induction arguments tokens w with
  | case1 => exact .refl _
  | case2 => exact .refl _
  | case3 t rest w h w' hterm =>
    have hfirst : Complains (t :: rest) w (term t w).2 := complains_term_of_mem List.mem_cons_self w
    rwa [hterm] at hfirst
  | case4 t rest w h id w' hterm more ih =>
    have hfirst : Complains (t :: rest) w (term t w).2 := complains_term_of_mem List.mem_cons_self w
    rw [hterm] at hfirst
    exact hfirst.trans (ih.mono (List.subset_cons_self ..))

theorem exists_lastLocation_eq {tokens : List Token} (h : tokens ≠ []) : ∃ t ∈ tokens, lastLocation tokens = t.location :=
  ⟨tokens.getLast h, List.getLast_mem h, by simp [lastLocation, List.getLast?_eq_some_getLast h]⟩

theorem complains_directive {t : Token} (ht : t.kind = .directive) (rest : List Token) (w : Workspace) :
    Complains (t :: rest) w (directive t rest w).workspace := by
  have hlimit (w : Workspace) (count : Nat) : Complains (t :: rest) w (w.limitArguments t count) := by
    unfold limitArguments
    split
    · exact .reject (.tooMany List.mem_cons_self ht ‹_›)
    · exact .refl w
  have hclosed (w : Workspace) (closed : Bool) : Complains (t :: rest) w (w.requireClosed closed (lastLocation (t :: rest))) := by
    unfold requireClosed
    split
    · exact .refl w
    · obtain ⟨last, hlast, hlocation⟩ := exists_lastLocation_eq (List.cons_ne_nil t rest)
      rw [hlocation]
      exact .reject (.unclosed hlast)
  have harguments := (complains_arguments rest w).mono (List.subset_cons_self t rest)
  exact harguments.trans ((hlimit _ _).trans ((hclosed _ _).trans (.of_eq rfl)))

theorem complains_label (t : Token) (rest : List Token) (w : Workspace) : Complains tokens w (label t rest w).workspace := by
  refine .of_eq ?_
  simp only [label]
  split <;> rfl

theorem complains_operand {statement rest : List Token} (hne : statement ≠ []) (hsub : rest ⊆ statement) (w : Workspace) :
    Complains statement w (operand statement rest w).workspace := by
  unfold operand
  split
  · obtain ⟨last, hlast, hlocation⟩ := exists_lastLocation_eq hne
    rw [hlocation]
    exact .reject (.unexpectedEof hlast)
  · obtain ⟨ht, -⟩ := List.cons_subset.1 hsub
    split
    · exact .reject (.unexpectedEol ht ‹_›)
    · exact complains_term_of_mem ht w

theorem complains_command (t : Token) (rest : List Token) (w : Workspace) :
    Complains (t :: rest) w (command t rest w).workspace := by
  have hoperand {after : List Token} (hafter : after <:+ rest) (w : Workspace) :
      Complains (t :: rest) w (operand (t :: rest) after w).workspace :=
    complains_operand (List.cons_ne_nil t rest) (List.Subset.trans hafter.subset (List.subset_cons_self ..)) w
  have hleft := hoperand List.suffix_rfl w
  unfold command
  split
  · dsimp only
    split
    · exact hleft.trans (.of_eq rfl)
    · exact hleft
  · split
    · have hright := hoperand (operand_rest_suffix (t :: rest) rest w) (operand (t :: rest) rest w).workspace
      have hboth := hleft.trans hright
      dsimp only
      split
      · exact hboth.trans (.of_eq rfl)
      · exact hboth
    · exact (Complains.of_eq rfl).trans (complains_term_of_mem List.mem_cons_self _)

theorem complains_statement (t : Token) (rest : List Token) (w : Workspace) :
    Complains (t :: rest) w (statement t rest w).workspace := by
  unfold statement
  split
  · exact complains_directive ‹_› rest w
  · exact complains_label ..
  · exact complains_command t rest w
  · exact complains_term_of_mem List.mem_cons_self w

theorem complains_endOfStatement (tokens : List Token) (w : Workspace) : Complains tokens w (endOfStatement tokens w).2 := by
  unfold endOfStatement
  split
  · exact .refl w
  · split
    · exact .refl w
    · rename_i hnewline
      exact .reject (.expectedEndOfStatement List.mem_cons_self (by simpa [Token.isNewline] using hnewline))

end Workspace

/-! ## Programs -/

namespace Draft

open Workspace

theorem complains_readLine (t : Token) (rest : List Token) (d : Draft) :
    Complains (t :: rest) d.toWorkspace (readLine t rest d).2.toWorkspace := by
  have hstatement := complains_statement t rest d.toWorkspace
  unfold readLine
  dsimp only
  split
  · exact hstatement
  · rw [add_toWorkspace]
    have hsub := List.Subset.trans (statement_rest_suffix t rest d.toWorkspace).subset (List.subset_cons_self t rest)
    exact hstatement.trans (.trans (.of_eq rfl) ((complains_endOfStatement _ _).mono hsub))

/-- All that is reported while a program is read is a complaint about its tokens. -/
theorem complains_read (tokens : List Token) (d : Draft) : Complains tokens d.toWorkspace (read tokens d).toWorkspace := by
  fun_induction read tokens d with
  | case1 d => exact .refl _
  | case2 d t rest h ih => exact ih.mono (List.subset_cons_self ..)
  | case3 d t rest h ih =>
    have hsub := List.Subset.trans (readLine_suffix t rest d).subset (List.subset_cons_self t rest)
    exact (complains_readLine t rest d).trans (ih.mono hsub)

end Draft

theorem Workspace.complains_parse (file : String) (tokens : List Token) (w : Workspace) :
    Complains tokens w (parse file tokens w) :=
  .trans (.of_eq rfl) ((Draft.complains_read tokens _).trans (.of_eq rfl))

end Assembler
