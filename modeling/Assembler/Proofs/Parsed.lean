import Assembler.Proofs.Recovery
import Assembler.Proofs.Formed
import Assembler.Proofs.Grammar
/-!
# Programs that are read without a fault

If a reader reports nothing, the tokens it used are what the grammar has in that place, and what it
made says what they say. The other way round a reader that is given what the grammar has reports
nothing and uses all of it. So nothing is reported of a program just if it is laid out in sentences,
and then its statements say what the sentences say (`Workspace.parse_eq_nil_iff_layout`).
-/

namespace Assembler

open Stage (Steps)

namespace Workspace

variable {w : Workspace}

/-! ## What is not reported -/

theorem diagnostics_reject_ne (cause : Cause) (location : Location) (context : Option String) :
    (w.reject cause location context).diagnostics ≠ w.diagnostics := by
  intro h
  have := congrArg List.length h
  simp [reject, report, Session.report, tell, diagnostics] at this

/-- If nothing was reported from one stage to a later one, nothing was on the way. -/
theorem quiet_between {w₀ w₁ w₂ : Workspace} {os₀ ss₀ os₁ ss₁ os₁' ss₁' os₂ ss₂ : List NodeId}
    (h₁ : Steps ⟨w₀, os₀, ss₀⟩ ⟨w₁, os₁, ss₁⟩) (h₂ : Steps ⟨w₁, os₁', ss₁'⟩ ⟨w₂, os₂, ss₂⟩)
    (hq : w₂.diagnostics = w₀.diagnostics) : w₁.diagnostics = w₀.diagnostics ∧ w₂.diagnostics = w₁.diagnostics := by
  have hle := h₁.diagnostics_kept
  have hle' := h₂.diagnostics_kept
  have heq : w₁.diagnostics = w₀.diagnostics :=
    (hle.eq_of_length_le (hq ▸ hle').length_le).symm
  exact ⟨heq, hq.trans heq.symm⟩

theorem node?_push_self (w : Workspace) (kind : Node.Kind) (location : Location) :
    (w.push kind location).2.program.node? w.program.size = some { kind, location } :=
  (Program.node?_push ..).trans (if_pos rfl)

theorem kind?_push_self (w : Workspace) (kind : Node.Kind) (location : Location) :
    (w.push kind location).2.program.kind? w.program.size = some kind :=
  (Program.kind?_push ..).trans (if_pos rfl)

/-! ## Terms -/

theorem literal_cases (t : Token) (kind : Option Node.Kind) (complaint : String) (w : Workspace) :
    (∃ k, kind = some k ∧ literal t kind complaint w = (some w.program.size, (w.push k t.location).2)) ∨
    (kind = none ∧ ∃ cause context, literal t kind complaint w = (none, w.reject cause t.location context)) := by
  cases kind with
  | none => exact .inr ⟨rfl, _, _, rfl⟩
  | some k => exact .inl ⟨k, rfl, rfl⟩

/-- A term is an interpolation, or a node that the token itself tells, or it is reported. -/
theorem term_cases (t : Token) (w : Workspace) :
    (t.kind = .interpolation ∧ term t w = interpolation t w) ∨
    (∃ k, t.leaf? = some k ∧ term t w = (some w.program.size, (w.push k t.location).2)) ∨
    (t.leaf? = none ∧ ∃ cause context, term t w = (none, w.reject cause t.location context)) := by
  obtain ⟨kind, value, location⟩ := t
  cases kind with
  | interpolation => exact .inl ⟨rfl, rfl⟩
  | identifier => exact .inr (literal_cases _ (some (.identifier value none)) "" w)
  | string => exact .inr (literal_cases _ (some (.string value)) "" w)
  | integer => exact .inr (literal_cases _ ((Text.int64? value).map .integer) _ w)
  | register => exact .inr (literal_cases _ ((Text.uint32? value).map (.slot .register)) _ w)
  | localSlot => exact .inr (literal_cases _ ((Text.uint32? value).map (.slot .localSlot)) _ w)
  | _ => exact .inr (.inr ⟨rfl, _, _, rfl⟩)

/-- Where no name is found, every token is reported. -/
theorem length_firstBound (shared : Shared) (tokens : List Token) (s : Session)
    (hnone : (firstBound shared tokens s).1 = none) :
    (firstBound shared tokens s).2.diagnostics.length = s.diagnostics.length + tokens.length := by
  fun_induction firstBound shared tokens s with
  | case1 => rfl
  | case2 => cases hnone
  | case3 t rest s h hfind ih =>
    rw [ih hnone]
    simp [Session.report]
    omega
  | case4 t rest s h ih =>
    rw [ih hnone]
    simp [Session.report]
    omega

/-- An interpolation of which nothing is reported stands for a node. -/
theorem interpolation_isSome {t : Token} (hq : (interpolation t w).2.diagnostics = w.diagnostics) :
    (interpolation t w).1.isSome := by
  set child := (w.session.child w.shared).1
  set start : Session :=
    if (tokensInside t).1.isEmpty then child.report { cause := .expectedIdentifier, location := t.location }
    else child with hstart
  set found := firstBound (w.session.child w.shared).2 (tokensInside t).1 start with hfound
  have hnil : found.2.diagnostics = [] := by
    have : w.diagnostics ++ found.2.diagnostics = w.diagnostics := hq
    simpa using this
  change found.1.isSome
  rw [← Option.ne_none_iff_isSome]
  intro hnone
  have hlength := length_firstBound _ _ _ hnone
  rw [← hfound, hnil] at hlength
  cases htokens : (tokensInside t).1 with
  | nil => simp [hstart, htokens, Session.report] at hlength
  | cons u rest => simp [htokens] at hlength

theorem term_quiet {t : Token} (hq : (term t w).2.diagnostics = w.diagnostics) :
    t.IsTerm ∧ ∃ id, (term t w).1 = some id ∧ (term t w).2.program.IsTerm t id := by
  rcases term_cases t w with ⟨hkind, hterm⟩ | ⟨k, hleaf, hterm⟩ | ⟨-, cause, context, hterm⟩
  · rw [hterm] at hq ⊢
    obtain ⟨id, hid⟩ := Option.isSome_iff_exists.1 (interpolation_isSome hq)
    refine ⟨.inr hkind, id, hid, ?_⟩
    intro k hleaf
    simp [Token.leaf?, hkind] at hleaf
  · rw [hterm]
    refine ⟨.inl (by simp [Token.IsLeaf, hleaf]), _, rfl, ?_⟩
    intro k' hleaf'
    rw [hleaf] at hleaf'
    cases hleaf'
    exact node?_push_self ..
  · rw [hterm] at hq
    exact (diagnostics_reject_ne _ _ _ hq).elim

theorem term_of_isLeaf {t : Token} (ht : t.IsLeaf) (w : Workspace) : (term t w).2.diagnostics = w.diagnostics := by
  obtain ⟨k, hleaf⟩ := Option.isSome_iff_exists.1 ht
  rcases term_cases t w with ⟨hkind, -⟩ | ⟨_, -, hterm⟩ | ⟨hnone, -⟩
  · simp [Token.leaf?, hkind] at hleaf
  · rw [hterm]
    rfl
  · rw [hleaf] at hnone
    cases hnone

/-! ## Arguments -/

/-- Where arguments end: at the end of a line, at a brace, or at the end of the text. -/
def EndsArguments (tokens : List Token) : Prop := ∀ t ∈ tokens.head?, t.kind = .newline ∨ t.kind = .openBrace

theorem arguments_quiet {tokens : List Token} (hq : (arguments tokens w).workspace.diagnostics = w.diagnostics) :
    ∃ terms, tokens = terms ++ (arguments tokens w).rest ∧ (∀ t ∈ terms, t.IsTerm) ∧
      List.Forall₂ (arguments tokens w).workspace.program.IsTerm terms (arguments tokens w).value := by
  fun_induction arguments tokens w with
  | case1 => exact ⟨[], rfl, by simp, .nil⟩
  | case2 => exact ⟨[], rfl, by simp, .nil⟩
  | case3 t rest w ht w' hterm =>
    have hquiet : (term t w).2.diagnostics = w.diagnostics := by rw [hterm]; exact hq
    obtain ⟨-, id, hid, -⟩ := term_quiet hquiet
    rw [hterm] at hid
    cases hid
  | case4 t rest w ht id w' hterm more ih =>
    have hsteps := steps_term [] [] w t
    have hsteps' := steps_arguments [] [] w' rest
    rw [hterm] at hsteps
    obtain ⟨hquiet, hquiet'⟩ := quiet_between hsteps hsteps' hq
    obtain ⟨terms, htokens, hterms, hsay⟩ := ih hquiet'
    have hfirst := term_quiet (t := t) (w := w) (by rw [hterm]; exact hquiet)
    rw [hterm] at hfirst
    obtain ⟨hlegal, id', hid, hsaid⟩ := hfirst
    cases hid
    refine ⟨t :: terms, ?_, by simpa using ⟨hlegal, hterms⟩, .cons (hsteps'.extends.isTerm hsaid) hsay⟩
    rw [List.cons_append, ← htokens]

/-! ## Bodies -/

/-- A body that was closed: what is inside, with the braces paired, then the brace that closes it. -/
def Closes (depth : Nat) (tokens : List Token) (b : Body) : Prop :=
  ∃ inside closing, tokens = inside ++ closing :: b.rest ∧ Braced.isNested depth inside ∧ closing.kind = .closeBrace ∧
    b.text = Token.spelling inside

theorem Closes.cons {depth depth' : Nat} {tokens : List Token} {b : Body} (h : Closes depth' tokens b) (t : Token)
    (ht : ∀ inside, Braced.isNested depth (t :: inside) = Braced.isNested depth' inside) :
    Closes depth (t :: tokens) { b with text := t.repr ++ " " ++ b.text } := by
  obtain ⟨inside, closing, htokens, hnested, hclosing, htext⟩ := h
  refine ⟨t :: inside, closing, congrArg (t :: ·) htokens, ?_, hclosing, congrArg (t.repr ++ " " ++ ·) htext⟩
  rw [ht, hnested]

theorem closes_body {depth : Nat} {tokens : List Token} (hc : (body depth tokens).closed) :
    Closes depth tokens (body depth tokens) := by
  fun_induction body depth tokens with
  | case1 => cases hc
  | case2 t rest andMore depth ht ih => exact (ih hc).cons t fun inside => by simp [Braced.isNested, isPaired, ht]
  | case3 t rest ht => exact ⟨[], t, rfl, rfl, ht, rfl⟩
  | case4 t rest andMore depth ht ih => exact (ih hc).cons t fun inside => by simp [Braced.isNested, isPaired, ht]
  | case5 t rest andMore depth ho hz hs ih =>
    have hopen : t.kind ≠ .openBrace := ho
    have hclose : t.kind ≠ .closeBrace := fun hk => by cases depth <;> simp_all
    exact (ih hc).cons t fun inside => by simp [Braced.isNested, isPaired, hopen, hclose]

theorem body_append_of_isNested {depth : Nat} {inside : List Token} (h : Braced.isNested depth inside) {closing : Token}
    (hclosing : closing.kind = .closeBrace) (more : List Token) :
    body depth (inside ++ closing :: more) = ⟨Token.spelling inside, more, true⟩ := by
  unfold Braced.isNested at h
  fun_induction isPaired (fun t : Token => t.kind = .openBrace) (fun t => t.kind = .closeBrace) depth inside with
  | case1 depth =>
    obtain rfl : depth = 0 := by simpa using h
    simp [body, hclosing, Token.spelling]
  | case2 depth t inside ho ih => simp_all [body, Token.spelling]
  | case3 t inside ho hc => cases h
  | case4 t inside ho hc depth ih => simp_all [body, Token.spelling]
  | case5 depth t inside ho hc ih => simp_all [body, Token.spelling]

/-- A body that was closed, or none. -/
theorem optionalBody_closed {tokens : List Token} (hc : (optionalBody tokens).closed) :
    ∃ b : Option Braced, tokens = (b.map Braced.tokens).getD [] ++ (optionalBody tokens).rest ∧
      (∀ x ∈ b, x.IsLegal) ∧ (optionalBody tokens).text = Sentence.bodyText b := by
  unfold optionalBody at hc ⊢
  split at hc
  · rename_i next after
    by_cases hnext : next.kind = .openBrace
    · simp only [hnext, if_true] at hc ⊢
      obtain ⟨inside, closing, htokens, hnested, hclosing, htext⟩ := closes_body hc
      refine ⟨some ⟨next, inside, closing⟩, ?_, ?_, htext⟩
      · simpa [Braced.tokens] using htokens
      · rintro _ ⟨⟩
        exact ⟨hnext, hnested, hclosing⟩
    · simp only [hnext, if_false]
      exact ⟨none, rfl, by simp, rfl⟩
  · exact ⟨none, rfl, by simp, rfl⟩

theorem optionalBody_append_of_isLegal {b : Option Braced} (hb : ∀ x ∈ b, x.IsLegal) {more : List Token} (hmore : EndsLine more) :
    optionalBody ((b.map Braced.tokens).getD [] ++ more) = ⟨Sentence.bodyText b, more, true⟩ := by
  cases b with
  | none =>
    cases more with
    | nil => rfl
    | cons t more =>
      have hk : t.kind = .newline := by simpa [Token.isNewline] using hmore t rfl
      simp [optionalBody, hk, Sentence.bodyText]
  | some b =>
    obtain ⟨hopening, hinside, hclosing⟩ := hb b rfl
    simp [optionalBody, Braced.tokens, hopening, body_append_of_isNested hinside hclosing, Sentence.bodyText]

/-! ## Statements -/

theorem limitArguments_quiet {t : Token} {count : Nat} (hq : (w.limitArguments t count).diagnostics = w.diagnostics) :
    count ≤ maxArguments := by
  unfold limitArguments at hq
  split at hq
  · exact (diagnostics_reject_ne _ _ _ hq).elim
  · omega

theorem requireClosed_quiet {closed : Bool} {location : Location}
    (hq : (w.requireClosed closed location).diagnostics = w.diagnostics) : closed := by
  unfold requireClosed at hq
  split at hq
  · assumption
  · exact (diagnostics_reject_ne _ _ _ hq).elim

/-- What was read of some tokens is a sentence, and the statement made of it says what it says. -/
def Reading.IsSentence (tokens : List Token) (r : Reading (Option NodeId)) : Prop :=
  ∃ s id, s.IsLegal Token.IsTerm ∧ tokens = s.tokens ++ r.rest ∧ r.value = some id ∧ r.workspace.program.Says s id

/-- If nothing is reported of a directive, nothing is of its arguments or their number, and its body is closed. -/
theorem quiet_of_directive {t : Token} {rest : List Token} (hq : (directive t rest w).workspace.diagnostics = w.diagnostics) :
    (arguments rest w).workspace.diagnostics = w.diagnostics ∧ (arguments rest w).value.length ≤ maxArguments ∧
      (optionalBody (arguments rest w).rest).closed ∧
      (arguments rest w).workspace.program.Extends (directive t rest w).workspace.program := by
  set args := arguments rest w
  set b := optionalBody args.rest
  have hlimit := steps_limitArguments [] [] args.workspace t args.value.length
  have hclosed := steps_requireClosed [] [] (args.workspace.limitArguments t args.value.length) b.closed
    (lastLocation (t :: rest))
  obtain ⟨hquiet, hquiet'⟩ := quiet_between (steps_arguments [] [] w rest) (hlimit.trans hclosed) hq
  obtain ⟨hquiet', hquiet''⟩ := quiet_between hlimit hclosed hquiet'
  exact ⟨hquiet, limitArguments_quiet hquiet', requireClosed_quiet hquiet'',
    (Steps.extends (hlimit.trans hclosed)).trans (Program.extends_push ..)⟩

theorem directive_quiet {t : Token} {rest : List Token} (ht : t.kind = .directive)
    (hq : (directive t rest w).workspace.diagnostics = w.diagnostics) : (directive t rest w).IsSentence (t :: rest) := by
  obtain ⟨hquiet, hcount, hclosed, hext⟩ := quiet_of_directive hq
  set args := arguments rest w
  obtain ⟨terms, htokens, hterms, hsay⟩ := arguments_quiet hquiet
  obtain ⟨body, hrest, hbody, htext⟩ := optionalBody_closed hclosed
  have htokens' : rest = terms ++ ((body.map Braced.tokens).getD [] ++ (directive t rest w).rest) :=
    htokens.trans (congrArg (terms ++ ·) hrest)
  refine ⟨.directive t terms body, _, ⟨ht, hterms, hsay.length_eq ▸ hcount, hbody⟩, ?_, rfl, args.value, ?_, ?_⟩
  · rw [Sentence.tokens, List.cons_append, List.append_assoc, ← htokens']
  · exact hsay.imp fun _ _ => hext.isTerm
  · rw [← htext]
    exact node?_push_self ..

/-- What is read of a sentence with more tokens after it, its terms as nodes in some relation to them. -/
def Reads (N : Token → NodeId → Prop) (s : Sentence) (more : List Token) (w : Workspace) (r : Reading (Option NodeId)) : Prop :=
  r.rest = more ∧ r.workspace.diagnostics = w.diagnostics ∧
    ∃ id, r.value = some id ∧ r.workspace.program.Says s id ∧ r.workspace.program.Relates N s id

theorem reads_label (N : Token → NodeId → Prop) (t : Token) (rest : List Token) (w : Workspace) :
    Reads N (.label t) rest w (label t rest w) := by
  set first := (w.push (.label t.value) t.location).2
  set bound := (first.bind t.value w.program.size).2
  set kind : Node.Kind := .labelDecl t.value w.program.size
  have h : (label t rest w).rest = rest ∧ (label t rest w).workspace.diagnostics = w.diagnostics ∧
      (label t rest w).value = some bound.program.size ∧
      (label t rest w).workspace.program = (bound.push kind t.location).2.program := by
    simp only [label]
    split <;> exact ⟨by simp, rfl, rfl, rfl⟩
  obtain ⟨hrest, hquiet, hid, hprogram⟩ := h
  have hext : first.program.Extends (bound.push kind t.location).2.program := Program.extends_push ..
  refine ⟨hrest, hquiet, _, hid, ⟨w.program.size, ?_, ?_⟩, trivial⟩
  · rw [hprogram]
    exact hext.node? (node?_push_self ..)
  · rw [hprogram]
    exact node?_push_self ..

theorem operand_quiet {statement rest : List Token} (hq : (operand statement rest w).workspace.diagnostics = w.diagnostics) :
    ∃ t id, rest = t :: (operand statement rest w).rest ∧ t.IsTerm ∧ (operand statement rest w).value = some id ∧
      (operand statement rest w).workspace.program.IsTerm t id := by
  cases rest with
  | nil => exact (diagnostics_reject_ne _ _ _ hq).elim
  | cons t after =>
    by_cases ht : t.kind = .newline
    · simp only [operand, ht, if_true] at hq
      exact (diagnostics_reject_ne _ _ _ hq).elim
    · simp only [operand, ht, if_false] at hq ⊢
      obtain ⟨hterm, id, hid, hsay⟩ := term_quiet hq
      exact ⟨t, id, rfl, hterm, hid, hsay⟩

end Workspace

namespace Condition

theorem ofMnemonic?_eq_some {s : String} {condition : Condition} :
    ofMnemonic? s = some condition ↔ s = condition.mnemonic := by
  constructor
  · intro h
    simpa [eq_comm] using List.find?_some h
  · rintro rfl
    cases condition <;> rfl

end Condition

namespace Workspace

section Command
variable {t : Token} (rest : List Token) (w : Workspace)

theorem command_jump {condition : Condition} (hv : t.value = condition.mnemonic) :
    let target := operand (t :: rest) rest w
    (command t rest w).workspace.diagnostics = target.workspace.diagnostics ∧
      ∀ id, target.value = some id → command t rest w =
        ⟨some target.workspace.program.size, target.rest, (target.workspace.push (.jump condition id) t.location).2⟩ := by
  intro target
  simp only [command, Condition.ofMnemonic?_eq_some.2 hv]
  constructor
  · split <;> rfl
  · intro id hid
    rw [show (operand (t :: rest) rest w).value = some id from hid]
    rfl

theorem ofMnemonic?_compareMnemonic : Condition.ofMnemonic? compareMnemonic = none := by decide

theorem command_compare (hv : t.value = compareMnemonic) :
    let left := operand (t :: rest) rest w
    let right := operand (t :: rest) left.rest left.workspace
    (command t rest w).workspace.diagnostics = right.workspace.diagnostics ∧
      ∀ l r, left.value = some l → right.value = some r → command t rest w =
        ⟨some right.workspace.program.size, right.rest, (right.workspace.push (.compare l r) t.location).2⟩ := by
  intro left right
  simp only [command, hv, ofMnemonic?_compareMnemonic, if_true]
  constructor
  · split <;> rfl
  · intro l r hl hr
    rw [show (operand (t :: rest) rest w).value = some l from hl,
      show (operand (t :: rest) (operand (t :: rest) rest w).rest (operand (t :: rest) rest w).workspace).value = some r from hr]
    rfl

theorem command_bare (ht : t.kind = .identifier) (hm : ¬ t.IsMnemonic) :
    ∃ log, command t rest w = ⟨(term t { w with log }).1, rest, (term t { w with log }).2⟩ := by
  have hnone : Condition.ofMnemonic? t.value = none := by
    rw [Option.eq_none_iff_forall_ne_some]
    intro condition h
    exact hm ⟨ht, .inl ⟨condition, Condition.ofMnemonic?_eq_some.1 h⟩⟩
  have hne : t.value ≠ compareMnemonic := fun h => hm ⟨ht, .inr h⟩
  simp only [command, hnone, hne, if_false]
  exact ⟨_, rfl⟩

end Command

theorem command_quiet {t : Token} {rest : List Token} (ht : t.kind = .identifier)
    (hq : (command t rest w).workspace.diagnostics = w.diagnostics) : (command t rest w).IsSentence (t :: rest) := by
  by_cases hm : t.IsMnemonic
  · rcases hm.2 with ⟨condition, hv⟩ | hv
    · obtain ⟨hdiagnostics, hcommand⟩ := command_jump rest w hv
      obtain ⟨u, id, hrest, hu, hid, hsay⟩ := operand_quiet (hdiagnostics.symm.trans hq)
      rw [hcommand id hid]
      refine ⟨.jump condition t u, _, ⟨ht, hv, hu⟩, congrArg (t :: ·) hrest, rfl, id, ?_, node?_push_self ..⟩
      exact (Program.extends_push ..).isTerm hsay
    · obtain ⟨hdiagnostics, hcommand⟩ := command_compare rest w hv
      set left := operand (t :: rest) rest w
      have hsteps := steps_operand [] [] left.workspace (t :: rest) left.rest
      obtain ⟨hquietl, hquietr⟩ :=
        quiet_between (steps_operand [] [] w (t :: rest) rest) hsteps (hdiagnostics.symm.trans hq)
      obtain ⟨u, l, hrest, hu, hl, hsay⟩ := operand_quiet hquietl
      obtain ⟨v, r, hrest', hv', hr, hsay'⟩ := operand_quiet hquietr
      have hboth : rest = u :: v :: (operand (t :: rest) left.rest left.workspace).rest :=
        hrest.trans (congrArg (u :: ·) hrest')
      rw [hcommand l r hl hr]
      refine ⟨.compare t u v, _, ⟨ht, hv, hu, hv'⟩, congrArg (t :: ·) hboth, rfl, l, r, ?_,
        (Program.extends_push ..).isTerm hsay', node?_push_self ..⟩
      exact ((Steps.extends hsteps).trans (Program.extends_push ..)).isTerm hsay
  · obtain ⟨log, hcommand⟩ := command_bare rest w ht hm
    rw [hcommand] at hq ⊢
    obtain ⟨hterm, id, hid, hsay⟩ := term_quiet (w := { w with log }) hq
    exact ⟨.bare t, id, ⟨hterm, hm⟩, rfl, hid, hsay⟩

theorem statement_bare {t : Token} (rest : List Token) (w : Workspace) (hd : t.kind ≠ .directive) (hl : t.kind ≠ .label)
    (hm : ¬ t.IsMnemonic) :
    ∃ log, statement t rest w = ⟨(term t { w with log }).1, rest, (term t { w with log }).2⟩ := by
  unfold statement
  split
  · exact absurd (by assumption) hd
  · exact absurd (by assumption) hl
  · exact command_bare rest w (by assumption) hm
  · exact ⟨w.log, rfl⟩

theorem statement_quiet {t : Token} {rest : List Token}
    (hq : (statement t rest w).workspace.diagnostics = w.diagnostics) : (statement t rest w).IsSentence (t :: rest) := by
  unfold statement at hq ⊢
  split at hq
  · exact directive_quiet (by assumption) hq
  · rename_i ht
    obtain ⟨hrest, -, id, hid, hsay, -⟩ := reads_label (fun _ _ => True) t rest w
    exact ⟨.label t, id, ht, by rw [hrest]; rfl, hid, hsay⟩
  · exact command_quiet (by assumption) hq
  · rename_i hne
    obtain ⟨hterm, id, hid, hsay⟩ := term_quiet hq
    exact ⟨.bare t, id, ⟨hterm, fun hm => hne hm.1⟩, rfl, hid, hsay⟩

/-! ## Sentences are read

A sentence is read to its end if nothing is reported of its terms. That may hang on the workspace, but on nothing that
changes as terms are read.
-/

/-- A property of workspaces that stays as terms are read. -/
structure IsKept (I : Workspace → Prop) : Prop where
  log : ∀ w log, I w → I { w with log }
  term : ∀ t w, I w → I (term t w).2

/-- Nothing is reported of a term in a workspace with some property, and it is read as a node in some relation to it. -/
def Understands (I : Workspace → Prop) (N : Token → NodeId → Prop) (t : Token) : Prop :=
  ∀ w, I w → (term t w).2.diagnostics = w.diagnostics ∧ ∀ id ∈ (term t w).1, N t id

theorem isKept_true : IsKept fun _ => True := ⟨fun _ _ => id, fun _ _ => id⟩

theorem understands_of_isLeaf {t : Token} (ht : t.IsLeaf) : Understands (fun _ => True) (fun _ _ => True) t :=
  fun w _ => ⟨term_of_isLeaf ht w, fun _ _ => trivial⟩

theorem endsArguments_append {b : Option Braced} (hb : ∀ x ∈ b, x.IsLegal) {more : List Token} (hmore : EndsLine more) :
    EndsArguments ((b.map Braced.tokens).getD [] ++ more) := by
  intro t ht
  cases b with
  | none => exact .inl (by simpa [Token.isNewline] using hmore t ht)
  | some b =>
    cases ht
    exact .inr (hb b rfl).opening

theorem operand_of_isTerm {u : Token} (hu : u.IsTerm) (statement more : List Token) (w : Workspace) :
    operand statement (u :: more) w = ⟨(term u w).1, more, (term u w).2⟩ := by
  have hne : u.kind ≠ .newline := hu.kind_ne (by decide)
  simp only [operand, hne, if_false]

section Sentences
variable {I : Workspace → Prop} (hI : IsKept I) {N : Token → NodeId → Prop}

theorem Understands.term {t : Token} (ht : Understands I N t) (hw : I w) :
    t.IsTerm ∧ ∃ id, Workspace.term t w = (some id, (Workspace.term t w).2) ∧
      (Workspace.term t w).2.diagnostics = w.diagnostics ∧ (Workspace.term t w).2.program.IsTerm t id ∧ N t id := by
  obtain ⟨hquiet, hnode⟩ := ht w hw
  obtain ⟨hterm, id, hid, hsay⟩ := term_quiet hquiet
  exact ⟨hterm, id, Prod.ext hid rfl, hquiet, hsay, hnode id hid⟩

include hI

theorem arguments_of_understands {terms more : List Token} (hterms : ∀ t ∈ terms, Understands I N t)
    (hmore : EndsArguments more) (hw : I w) :
    (arguments (terms ++ more) w).rest = more ∧ (arguments (terms ++ more) w).workspace.diagnostics = w.diagnostics ∧
      List.Forall₂ N terms (arguments (terms ++ more) w).value := by
  induction terms generalizing w with
  | nil =>
    cases more with
    | nil => exact ⟨rfl, rfl, .nil⟩
    | cons t more => simp [arguments, hmore t rfl]
  | cons t terms ih =>
    obtain ⟨ht, hterms⟩ := List.forall_mem_cons.1 hterms
    obtain ⟨hlegal, id, hterm, hquiet, -, hnode⟩ := ht.term hw
    obtain ⟨hrest, hquiet', hnodes⟩ := ih hterms (hI.term t w hw)
    have hne : ¬ (t.kind = .newline ∨ t.kind = .openBrace) :=
      not_or_intro (hlegal.kind_ne (by decide)) (hlegal.kind_ne (by decide))
    rw [List.cons_append, arguments, if_neg hne, hterm]
    exact ⟨hrest, hquiet'.trans hquiet, .cons hnode hnodes⟩

theorem reads_directive {name : Token} {terms : List Token} {b : Option Braced} (hterms : ∀ t ∈ terms, Understands I N t)
    (hcount : terms.length ≤ maxArguments) (hb : ∀ x ∈ b, x.IsLegal) {more : List Token} (hmore : EndsLine more)
    (hw : I w) :
    Reads N (.directive name terms b) more w
      (directive name (terms ++ ((b.map Braced.tokens).getD [] ++ more)) w) := by
  set rest := terms ++ ((b.map Braced.tokens).getD [] ++ more) with hrest
  obtain ⟨hargs, hquiet, hnodes⟩ := arguments_of_understands hI hterms (endsArguments_append hb hmore) hw
  obtain ⟨terms', htokens, -, hsay⟩ := arguments_quiet hquiet
  rw [hargs] at htokens
  obtain rfl : terms = terms' := List.append_cancel_right htokens
  set args := arguments rest w with hargs'
  have hlimit : ¬ args.value.length > maxArguments := by
    rw [← hsay.length_eq]
    omega
  have hdirective : ∃ log, directive name rest w = ⟨some args.workspace.program.size, more,
      (({ args.workspace with log } : Workspace).push (.directive name.value args.value (Sentence.bodyText b)) name.location).2⟩ := by
    simp only [directive, ← hargs', hargs, optionalBody_append_of_isLegal hb hmore, limitArguments, hlimit, requireClosed,
      if_true, if_false]
    exact ⟨_, rfl⟩
  obtain ⟨log, hdirective⟩ := hdirective
  rw [hdirective]
  refine ⟨rfl, hquiet, _, rfl, ⟨args.value, ?_, node?_push_self ..⟩, name.value, args.value, _, kind?_push_self .., hnodes⟩
  exact hsay.imp fun _ _ => (Program.extends_push ..).isTerm

theorem operand_of_understands {u : Token} (hu : Understands I N u) (statement more : List Token) (hw : I w) :
    (operand statement (u :: more) w).rest = more ∧
      (operand statement (u :: more) w).workspace.diagnostics = w.diagnostics ∧ I (operand statement (u :: more) w).workspace ∧
      ∃ id, (operand statement (u :: more) w).value = some id ∧
        (operand statement (u :: more) w).workspace.program.IsTerm u id ∧ N u id := by
  obtain ⟨hlegal, id, hterm, hquiet, hsay, hnode⟩ := hu.term hw
  rw [operand_of_isTerm hlegal]
  exact ⟨rfl, hquiet, hI.term u w hw, id, congrArg Prod.fst hterm, hsay, hnode⟩

theorem reads_statement {s : Sentence} (hs : s.IsLegal Token.IsTerm) (hterms : ∀ t ∈ s.terms, Understands I N t)
    {more : List Token} (hmore : EndsLine more) (hw : I w) :
    ∃ t rest, s.tokens ++ more = t :: rest ∧ ¬ t.isNewline ∧ Reads N s more w (statement t rest w) := by
  cases s with
  | label name =>
    have hk : name.kind = .label := hs
    refine ⟨name, more, rfl, by simp [Token.isNewline, hk], ?_⟩
    simp only [statement, hk]
    exact reads_label N name more w
  | directive name terms b =>
    obtain ⟨hk, -, hcount, hb⟩ := hs
    refine ⟨name, _, by rw [Sentence.tokens, List.cons_append, List.append_assoc], by simp [Token.isNewline, hk], ?_⟩
    simp only [statement, hk]
    exact reads_directive hI hterms hcount hb hmore hw
  | jump condition mnemonic target =>
    obtain ⟨hk, hv, -⟩ := hs
    refine ⟨mnemonic, target :: more, rfl, by simp [Token.isNewline, hk], ?_⟩
    simp only [statement, hk]
    obtain ⟨-, hcommand⟩ := command_jump (target :: more) w hv
    obtain ⟨hrest, hquiet, -, id, hid, hsay, hnode⟩ :=
      operand_of_understands hI (hterms target List.mem_cons_self) (mnemonic :: target :: more) more hw
    rw [hcommand id hid]
    exact ⟨hrest, hquiet, _, rfl, ⟨id, (Program.extends_push ..).isTerm hsay, node?_push_self ..⟩, _, id,
      kind?_push_self .., hnode⟩
  | compare mnemonic left right =>
    obtain ⟨hk, hv, -⟩ := hs
    obtain ⟨hleft, hright⟩ : Understands I N left ∧ Understands I N right := by simpa [Sentence.terms] using hterms
    refine ⟨mnemonic, left :: right :: more, rfl, by simp [Token.isNewline, hk], ?_⟩
    simp only [statement, hk]
    obtain ⟨-, hcommand⟩ := command_compare (left :: right :: more) w hv
    obtain ⟨hrest, hquiet, hfirst, l, hl, hsay, hnode⟩ :=
      operand_of_understands hI hleft (mnemonic :: left :: right :: more) (right :: more) hw
    set first := operand (mnemonic :: left :: right :: more) (left :: right :: more) w
    rw [hrest] at hcommand
    have hsteps := steps_operand [] [] first.workspace (mnemonic :: left :: right :: more) (right :: more)
    obtain ⟨hrest', hquiet', -, r, hr, hsay', hnode'⟩ :=
      operand_of_understands hI hright (mnemonic :: left :: right :: more) more hfirst
    rw [hcommand l r hl hr]
    refine ⟨hrest', hquiet'.trans hquiet, _, rfl, ⟨l, r, ?_, (Program.extends_push ..).isTerm hsay', node?_push_self ..⟩,
      l, r, kind?_push_self .., hnode, hnode'⟩
    exact ((Steps.extends hsteps).trans (Program.extends_push ..)).isTerm hsay
  | bare t =>
    obtain ⟨ht, hm⟩ := hs
    have hd : t.kind ≠ .directive := ht.kind_ne (by decide)
    have hl : t.kind ≠ .label := ht.kind_ne (by decide)
    obtain ⟨log, hstatement⟩ := statement_bare more w hd hl hm
    refine ⟨t, more, rfl, Token.not_isNewline (ht.kind_ne (by decide)), ?_⟩
    rw [hstatement]
    obtain ⟨-, id, hterm, hquiet, hsay, hnode⟩ := (hterms t List.mem_cons_self).term (hI.log w log hw)
    exact ⟨rfl, hquiet, id, congrArg Prod.fst hterm, hsay, hnode⟩

theorem exists_quiet_of_arguments {terms more : List Token} (hterms : ∀ t ∈ terms, t.IsTerm) (hw : I w)
    (hq : (arguments (terms ++ more) w).workspace.diagnostics = w.diagnostics) :
    ∀ u ∈ terms, ∃ w', I w' ∧ (term u w').2.diagnostics = w'.diagnostics := by
  induction terms generalizing w with
  | nil => simp
  | cons t terms ih =>
    obtain ⟨ht, hterms⟩ := List.forall_mem_cons.1 hterms
    have hne : ¬ (t.kind = .newline ∨ t.kind = .openBrace) :=
      not_or_intro (ht.kind_ne (by decide)) (ht.kind_ne (by decide))
    rw [List.cons_append, arguments, if_neg hne] at hq
    have hquiet : (term t w).2.diagnostics = w.diagnostics ∧
        ∀ u ∈ terms, ∃ w', I w' ∧ (term u w').2.diagnostics = w'.diagnostics := by
      cases hterm : term t w with
      | mk found w' =>
        have hkept : I w' := by simpa [hterm] using hI.term t w hw
        have hsteps := steps_term [] [] w t
        rw [hterm] at hq hsteps
        cases found with
        | none =>
          obtain ⟨-, id, hid, -⟩ := term_quiet (t := t) (w := w) (by rw [hterm]; exact hq)
          rw [hterm] at hid
          cases hid
        | some id =>
          obtain ⟨hfirst, hrest⟩ := quiet_between hsteps (steps_arguments [] [] w' (terms ++ more)) hq
          exact ⟨hfirst, ih hterms hkept hrest⟩
    exact List.forall_mem_cons.2 ⟨⟨w, hw, hquiet.1⟩, hquiet.2⟩

/-- If nothing is reported of a sentence, nothing is of any of its terms in the workspace it is read in. -/
theorem exists_quiet_of_statement {s : Sentence} (hs : s.IsLegal Token.IsTerm) {more : List Token} {t : Token}
    {rest : List Token} (htokens : s.tokens ++ more = t :: rest) (hw : I w)
    (hq : (statement t rest w).workspace.diagnostics = w.diagnostics) :
    ∀ u ∈ s.terms, ∃ w', I w' ∧ (term u w').2.diagnostics = w'.diagnostics := by
  cases s with
  | label name => simp [Sentence.terms]
  | directive name terms b =>
    obtain ⟨hk, hterms, -⟩ := hs
    rw [Sentence.tokens, List.cons_append, List.append_assoc, List.cons.injEq] at htokens
    obtain ⟨rfl, rfl⟩ := htokens
    simp only [statement, hk] at hq
    exact exists_quiet_of_arguments hI hterms hw (quiet_of_directive hq).1
  | jump condition mnemonic target =>
    obtain ⟨hk, hv, htarget⟩ := hs
    obtain ⟨rfl, rfl⟩ := List.cons.inj htokens
    simp only [statement, hk] at hq
    obtain ⟨hdiagnostics, -⟩ := command_jump (target :: more) w hv
    rw [operand_of_isTerm htarget] at hdiagnostics
    simpa [Sentence.terms] using ⟨w, hw, hdiagnostics.symm.trans hq⟩
  | compare mnemonic left right =>
    obtain ⟨hk, hv, hleft, hright⟩ := hs
    obtain ⟨rfl, rfl⟩ := List.cons.inj htokens
    simp only [statement, hk] at hq
    obtain ⟨hdiagnostics, -⟩ := command_compare (left :: right :: more) w hv
    simp only [operand_of_isTerm hleft, operand_of_isTerm hright] at hdiagnostics
    obtain ⟨hquiet, hquiet'⟩ := quiet_between (steps_term [] [] w left) (steps_term [] [] (term left w).2 right)
      (hdiagnostics.symm.trans hq)
    simpa [Sentence.terms] using ⟨⟨w, hw, hquiet⟩, _, hI.term left w hw, hquiet'⟩
  | bare u =>
    obtain ⟨hu, hm⟩ := hs
    obtain ⟨rfl, rfl⟩ := List.cons.inj htokens
    obtain ⟨log, hstatement⟩ := statement_bare more w (hu.kind_ne (by decide)) (hu.kind_ne (by decide)) hm
    have hquiet := (congrArg (·.workspace.diagnostics) hstatement).symm.trans hq
    simpa [Sentence.terms] using ⟨_, hI.log w log hw, hquiet⟩

end Sentences

/-! ## Lines -/

theorem endOfStatement_quiet {tokens : List Token} (hq : (endOfStatement tokens w).2.diagnostics = w.diagnostics) :
    EndsLine tokens := by
  cases tokens with
  | nil => simp [EndsLine]
  | cons t rest =>
    by_cases ht : t.isNewline
    · simpa [EndsLine] using ht
    · simp only [endOfStatement, ht] at hq
      exact (diagnostics_reject_ne _ _ _ hq).elim

theorem endOfStatement_of_endsLine {tokens : List Token} (h : EndsLine tokens) (w : Workspace) :
    endOfStatement tokens w = (tokens.drop 1, w) := by
  cases tokens with
  | nil => rfl
  | cons t rest => simp [endOfStatement, h t rfl]

end Workspace

namespace Draft

open Workspace

theorem readLine_some {t : Token} {rest : List Token} {d : Draft} {id : NodeId}
    (hid : (statement t rest d.toWorkspace).value = some id) :
    ∃ log, (readLine t rest d).1 =
        (endOfStatement (statement t rest d.toWorkspace).rest { (statement t rest d.toWorkspace).workspace with log }).1 ∧
      (readLine t rest d).2.toWorkspace =
        (endOfStatement (statement t rest d.toWorkspace).rest { (statement t rest d.toWorkspace).workspace with log }).2 := by
  simp only [readLine, hid, add_toWorkspace]
  exact ⟨_, rfl, rfl⟩

/-- A line of which nothing is reported is a sentence and its end. -/
theorem readLine_quiet {t : Token} {rest : List Token} {d : Draft}
    (hq : (readLine t rest d).2.diagnostics = d.diagnostics) :
    (statement t rest d.toWorkspace).IsSentence (t :: rest) ∧ EndsLine (statement t rest d.toWorkspace).rest ∧
      (readLine t rest d).1 = (statement t rest d.toWorkspace).rest.drop 1 ∧
      (readLine t rest d).2.program = (statement t rest d.toWorkspace).workspace.program ∧
      (statement t rest d.toWorkspace).workspace.diagnostics = d.diagnostics := by
  have hsteps := steps_statement [] [] d.toWorkspace t rest
  cases hid : (statement t rest d.toWorkspace).value with
  | none =>
    have hws : (readLine t rest d).2.toWorkspace = (statement t rest d.toWorkspace).workspace := by
      simp only [readLine, hid]
    have hquiet : (statement t rest d.toWorkspace).workspace.diagnostics = d.diagnostics := by
      rw [← hws]
      exact hq
    obtain ⟨-, id, -, -, hid', -⟩ := statement_quiet hquiet
    rw [hid] at hid'
    cases hid'
  | some id =>
    obtain ⟨log, hrest, hws⟩ := readLine_some hid
    set w : Workspace := { (statement t rest d.toWorkspace).workspace with log }
    have hlog := Stage.Step.log (statement t rest d.toWorkspace).workspace log [] []
    have hend := steps_endOfStatement [] [] w (statement t rest d.toWorkspace).rest
    obtain ⟨hquiet, hquiet'⟩ := quiet_between hsteps (hend.head hlog) (by rw [← hws]; exact hq)
    have hline := endOfStatement_quiet hquiet'
    rw [endOfStatement_of_endsLine hline] at hrest hws
    refine ⟨statement_quiet hquiet, hline, hrest, ?_, hquiet⟩
    rw [hws]

/-- A sentence is read with the end of its line. -/
theorem readLine_of_reads {N : Token → NodeId → Prop} {s : Sentence} {t : Token} {rest more : List Token} {d : Draft}
    (hmore : EndsLine more) (h : Reads N s more d.toWorkspace (statement t rest d.toWorkspace)) :
    (readLine t rest d).1 = more.drop 1 ∧ (readLine t rest d).2.diagnostics = d.diagnostics ∧
      ∃ id, (statement t rest d.toWorkspace).value = some id ∧ (readLine t rest d).2.program.Says s id ∧
        (readLine t rest d).2.program.Relates N s id := by
  obtain ⟨hrest, hquiet, id, hid, hsay, hnodes⟩ := h
  obtain ⟨log, hline, hws⟩ := readLine_some hid
  rw [hrest, endOfStatement_of_endsLine hmore] at hline hws
  refine ⟨hline, ?_, id, hid, ?_⟩
  · rw [hws]
    exact hquiet
  · rw [hws]
    exact ⟨hsay, hnodes⟩

/-! ## Programs -/

/-- If nothing is reported of a program, it is laid out in sentences, and its lines say what these say. -/
theorem read_quiet {tokens : List Token} {d : Draft} (hq : (read tokens d).diagnostics = d.diagnostics) :
    ∃ ss, Layout Token.IsTerm tokens ss ∧ List.Forall₂ (read tokens d).program.Says ss (inOrder tokens d) := by
  fun_induction read tokens d with
  | case1 d => exact ⟨[], .nil, by simp [inOrder]⟩
  | case2 d t rest ht ih =>
    obtain ⟨ss, hlayout, hsay⟩ := ih hq
    refine ⟨ss, .newline ht hlayout, ?_⟩
    rwa [inOrder, if_pos ht]
  | case3 d t rest ht ih =>
    have hlater := steps_read (readLine t rest d).1 (readLine t rest d).2 []
    obtain ⟨hline, hrest⟩ := quiet_between (steps_readLine t rest d [] []) hlater hq
    obtain ⟨⟨s, id, hs, htokens, hid, hsaid⟩, hend, hnext, hprogram, -⟩ := readLine_quiet hline
    obtain ⟨ss, hlayout, hsay⟩ := ih hrest
    refine ⟨s :: ss, ?_, ?_⟩
    · rw [htokens]
      rw [hnext] at hlayout
      exact .sentence hs hend (.of_drop hend hlayout)
    · rw [inOrder, if_neg ht, hid]
      rw [← hprogram] at hsaid
      exact .cons (hsaid.extends (Stage.Steps.extends hlater)) hsay

theorem read_of_endsLine {tokens : List Token} (hend : EndsLine tokens) (d : Draft) :
    read tokens d = read (tokens.drop 1) d ∧ inOrder tokens d = inOrder (tokens.drop 1) d := by
  cases tokens with
  | nil => exact ⟨rfl, rfl⟩
  | cons t rest => exact ⟨by rw [read, if_pos (hend t rfl)]; rfl, by rw [inOrder, if_pos (hend t rfl)]; rfl⟩

/-- Of a program that is laid out in sentences without interpolations nothing is reported. -/
theorem read_of_layout {tokens : List Token} {ss : List Sentence} (h : Layout Token.IsLeaf tokens ss) (d : Draft) :
    (read tokens d).diagnostics = d.diagnostics ∧
      List.Forall₂ (read tokens d).program.Says ss (inOrder tokens d) := by
  induction h generalizing d with
  | nil => exact ⟨by rw [read], by simp [inOrder]⟩
  | newline ht h ih =>
    rw [read, if_pos ht, inOrder, if_pos ht]
    exact ih d
  | @sentence s rest ss hs hend h ih =>
    have hterms : ∀ t ∈ s.terms, Understands (fun _ => True) (fun _ _ => True) t :=
      fun t ht => understands_of_isLeaf (hs.forall_terms t ht)
    obtain ⟨t, after, htokens, ht, hreads⟩ := reads_statement isKept_true (hs.imp fun _ _ => .inl) hterms hend trivial
    obtain ⟨hline, hquiet, id, hid, hsaid, -⟩ := readLine_of_reads hend hreads
    obtain ⟨hread, horder⟩ := read_of_endsLine hend (readLine t after d).2
    obtain ⟨hquiet', hsay⟩ := ih (readLine t after d).2
    rw [hread] at hquiet' hsay
    rw [horder] at hsay
    have hlater := steps_read (rest.drop 1) (readLine t after d).2 []
    rw [htokens, read, if_neg ht, inOrder, if_neg ht, hline, hid]
    exact ⟨hquiet'.trans hquiet, .cons (hsaid.extends (Stage.Steps.extends hlater)) hsay⟩

end Draft

/-- A sentence is hoisted just if the statement is that says the same. -/
theorem Program.Says.isHoisted_eq {p : Program} {s : Sentence} {id : NodeId} (h : p.Says s id)
    (hbare : ∀ t, s = .bare t → p.IsOperand id) : p.isHoisted id = s.isHoisted := by
  have hnode {n : Node} (hn : p.node? id = some n) : p.isHoisted id = n.kind.isHoisted := by
    simp [Program.isHoisted, Program.kind?, hn]
  cases s with
  | label name =>
    obtain ⟨_, _, hid⟩ := h
    exact hnode hid
  | directive name terms body =>
    obtain ⟨_, _, hid⟩ := h
    exact hnode hid
  | jump condition mnemonic target =>
    obtain ⟨_, _, hid⟩ := h
    exact hnode hid
  | compare mnemonic left right =>
    obtain ⟨_, _, _, _, hid⟩ := h
    exact hnode hid
  | bare term => exact (hbare term rfl).isHoisted_eq

theorem Layout.isLegal {IsTerm : Token → Prop} {tokens : List Token} {ss : List Sentence} (h : Layout IsTerm tokens ss) :
    ∀ s ∈ ss, s.IsLegal IsTerm := by
  induction h with
  | nil => simp
  | newline _ _ ih => exact ih
  | sentence hs _ _ ih => exact List.forall_mem_cons.2 ⟨hs, ih⟩

/-- Things that correspond still do when in both lists those with some property are put first. -/
theorem forall₂_partition {α β : Type} {R : α → β → Prop} {f : α → Bool} {g : β → Bool} {xs : List α} {ys : List β}
    (h : List.Forall₂ (fun x y => f x = g y ∧ R x y) xs ys) :
    List.Forall₂ R (xs.filter (f ·) ++ xs.filter (!f ·)) (ys.filter (g ·) ++ ys.filter (!g ·)) := by
  have hfilter (keep : Bool → Bool) : List.Forall₂ R (xs.filter (keep <| f ·)) (ys.filter (keep <| g ·)) := by
    refine (List.rel_filter ?_ h).imp fun _ _ hxy => hxy.2
    rintro x y ⟨hxy, -⟩
    change keep (f x) = true ↔ keep (g y) = true
    rw [hxy]
  exact List.rel_append (hfilter id) (hfilter not)

/-- The statements that say what some sentences say, the hoisted ones first. -/
theorem Program.forall₂_hoisted {p : Program} {ss : List Sentence} {ids : List NodeId}
    (h : List.Forall₂ p.Says ss ids) (hss : ∀ s ∈ ss, s.IsLegal Token.IsLeaf) :
    List.Forall₂ p.Says (ss.filter (·.isHoisted) ++ ss.filter (!·.isHoisted))
      (ids.filter (p.isHoisted ·) ++ ids.filter (!p.isHoisted ·)) := by
  refine forall₂_partition (((List.forall₂_and_left _ _).2 ⟨hss, h⟩).imp ?_)
  rintro s id ⟨hs, hsay⟩
  refine ⟨(hsay.isHoisted_eq ?_).symm, hsay⟩
  rintro t rfl
  exact IsTerm.isOperand hsay hs.1

/-- Nothing is reported of tokens without interpolations just if they are laid out in sentences, and then the
statements say what these say, one each; the tokens that stand in no body are used by one sentence each. -/
theorem Workspace.parse_eq_nil_iff_layout (file : String) (tokens : List Token)
    (hinterpolation : ∀ t ∈ outside .head tokens, t.kind ≠ .interpolation) :
    ((parse file tokens).diagnostics = [] ↔ ∃ ss, Layout Token.IsLeaf tokens ss) ∧
      ∀ ss, Layout Token.IsLeaf tokens ss →
        List.Forall₂ (parse file tokens).program.Says (ss.filter (·.isHoisted) ++ ss.filter (!·.isHoisted))
          (parse file tokens).program.statements ∧
        (outside .head tokens).filter (!·.isNewline) = ss.flatMap Sentence.ownTokens := by
  obtain ⟨log, hparse⟩ := exists_parse_eq #[] file tokens
  have hdiagnostics : (parse file tokens).diagnostics = (Draft.read tokens {}).diagnostics := by
    rw [hparse]
    rfl
  constructor
  · constructor
    · intro hquiet
      obtain ⟨ss, hlayout, -⟩ := Draft.read_quiet (d := {}) (hdiagnostics.symm.trans hquiet)
      refine ⟨ss, hlayout.imp fun s hs t ht hterm => hterm.resolve_right (hinterpolation t ?_)⟩
      have hmem : t ∈ (outside .head tokens).filter (!·.isNewline) := by
        rw [hlayout.outside_eq]
        exact List.mem_flatMap.2 ⟨s, hs, ht⟩
      exact (List.mem_filter.1 hmem).1
    · rintro ⟨ss, hlayout⟩
      exact hdiagnostics.trans (Draft.read_of_layout hlayout {}).1
  · intro ss hlayout
    have hsay := (Draft.read_of_layout hlayout {}).2
    refine ⟨?_, (hlayout.imp fun _ _ _ _ => .inl).outside_eq⟩
    rw [statements_parse]
    refine Program.forall₂_hoisted ?_ hlayout.isLegal
    rw [hparse]
    exact hsay

/-- A body over two lines, with an interpolation and braces in it, before a jump to a name that is a mnemonic. -/
theorem Workspace.parse_eq_nil_iff_layout_of_body :
    let t (kind : Token.Kind) (value : String) : Token := ⟨kind, value, {}⟩
    let inside := [t .openBrace "\x7b", t .newline "\n", t .interpolation "x", t .closeBrace "\x7d"]
    let body : Braced := ⟨t .openBrace "\x7b", inside, t .closeBrace "\x7d"⟩
    let first := Sentence.directive (t .directive "d") [t .register "0"] (some body)
    let second := Sentence.jump .always (t .identifier "jmp") (t .identifier "cmp")
    let tokens := first.tokens ++ t .newline "\n" :: t .newline "\n" :: second.tokens
    (∀ u ∈ outside .head tokens, u.kind ≠ .interpolation) ∧ (parse "a" tokens).diagnostics = [] ∧
      List.Forall₂ (parse "a" tokens).program.Says [first, second] (parse "a" tokens).program.statements := by
  intro t inside body first second tokens
  have h : ∀ u ∈ outside .head tokens, u.kind ≠ .interpolation := by decide +kernel
  have hsecond : Layout Token.IsLeaf second.tokens [second] := by
    have hs : second.IsLegal Token.IsLeaf := ⟨rfl, rfl, rfl⟩
    exact .sentence hs (by simp [EndsLine]) .nil
  have hfirst : first.IsLegal Token.IsLeaf := by
    refine ⟨rfl, ?_, by decide, ?_⟩
    · simp [Token.IsLeaf, Token.leaf?, t]
      decide
    · rintro _ ⟨⟩
      exact ⟨rfl, rfl, rfl⟩
  have hlayout : Layout Token.IsLeaf tokens [first, second] :=
    .sentence hfirst (by simp [EndsLine, Token.isNewline, t]) (.newline rfl (.newline rfl hsecond))
  obtain ⟨hiff, hsay⟩ := parse_eq_nil_iff_layout "a" tokens h
  exact ⟨h, hiff.2 ⟨_, hlayout⟩, (hsay _ hlayout).1⟩

end Assembler
