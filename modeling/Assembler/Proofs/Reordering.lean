import Assembler.Proofs.Meaning
/-!
# Lines in another order

Lines that are whole by themselves make a program of one clause each (`Workspace.IsLine.exists_clause`), and
the program takes them with the hoisted ones first. So it comes to the same end if lines are put in another
order, as long as the hoisted lines keep their order and the others keep theirs (`Workspace.same_outcome_of_order`).
-/

namespace Assembler

/-! ## Lines one after the other -/

/-- What a sentence ends with is not in its body. -/
theorem Sentence.getLast?_mem_ownTokens (s : Sentence) : ∀ t ∈ s.tokens.getLast?, t ∈ s.ownTokens := by
  intro t ht
  cases s with
  | directive name terms body =>
    cases body with
    | none => exact List.mem_of_getLast? ht
    | some b =>
      have htokens : (directive name terms (some b)).tokens = (name :: (terms ++ b.opening :: b.inside)) ++ [b.closing] := by
        simp [tokens, Braced.tokens]
      rw [htokens, List.getLast?_concat] at ht
      cases ht
      simp [ownTokens]
  | label | jump | compare | bare => exact List.mem_of_getLast? ht

/-- Tokens that end with the end of a line may be followed by others. -/
theorem Layout.append {IsTerm : Token → Prop} {ts us : List Token} {ss ss' : List Sentence} (h : Layout IsTerm ts ss)
    (hterm : ∀ t, IsTerm t → t.IsTerm) (hend : ∀ t ∈ ts.getLast?, t.isNewline) (h' : Layout IsTerm us ss') :
    Layout IsTerm (ts ++ us) (ss ++ ss') := by
  induction h with
  | nil => exact h'
  | @newline t rest ss ht h ih =>
    refine .newline ht (ih fun u hu => hend u ?_)
    rw [List.getLast?_cons, Option.mem_def.1 hu]
    rfl
  | @sentence s rest ss hs hends h ih =>
    cases rest with
    | nil =>
      -- A sentence does not end with the end of a line.
      rw [List.append_nil] at hend
      obtain ⟨t, ht⟩ : ∃ t, s.tokens.getLast? = some t := by
        cases hlast : s.tokens.getLast? with
        | none => exact absurd (List.getLast?_eq_none_iff.1 hlast) s.tokens_ne_nil
        | some t => exact ⟨t, rfl⟩
      have hmem := s.getLast?_mem_ownTokens t ht
      have hs' : s.IsLegal Token.IsTerm := hs.imp fun t _ => hterm t
      have hnot := s.not_isNewline_of_mem hs' t hmem
      rw [hend t ht] at hnot
      cases hnot
    | cons u rest =>
      rw [List.append_assoc]
      refine .sentence hs hends (ih fun v hv => hend v ?_)
      rw [List.getLast?_append, Option.mem_def.1 hv]
      rfl

namespace Workspace

/-- Tokens of which nothing is reported are laid out in sentences, of leaves if no interpolation stands outside a body. -/
theorem exists_layout_of_quiet {file : String} {ts : List Token} (hquiet : (parse file ts).diagnostics = [])
    (hinterpolation : ∀ t ∈ outside .head ts, t.kind ≠ .interpolation) : ∃ ss, Layout Token.IsLeaf ts ss := by
  obtain ⟨log, hparse⟩ := exists_parse_eq #[] file ts
  rw [hparse] at hquiet
  obtain ⟨ss, hlayout, -⟩ := Draft.read_quiet (d := {}) hquiet
  exact ⟨ss, hlayout.isLeaf hinterpolation⟩

/-- Tokens that go through the end of a line, and read by themselves make one statement and no diagnostic, with no
interpolation but in a body. -/
structure IsLine (file : String) (l : List Token) : Prop where
  newline : ∃ t, l.getLast? = some t ∧ t.isNewline
  quiet : (parse file l).diagnostics = []
  single : (parse file l).program.statements.length = 1
  interpolation : ∀ t ∈ outside .head l, t.kind ≠ .interpolation

/-- Whether the statement of a line is a directive or the declaration of a label. -/
def isHoistedLine (file : String) (l : List Token) : Bool :=
  (parse file l).program.statements.any ((parse file l).program.isHoisted ·)

/-- What is assembled of tokens. -/
def assembleTokens (file : String) (ts : List Token) (settings : Settings) : Except Failure Assembly :=
  ((parse file ts).resolve.sortDiagnostics.assemble file settings).1

end Workspace

/-! ## Clauses of lines -/

/-- Tokens that say this make one sentence, of this clause. -/
def Clause.IsSaidBy (said : List (Token.Kind × String)) (c : Clause) : Prop :=
  ∃ l s, l.map Token.said = said ∧ Layout Token.IsLeaf l [s] ∧ s.clause? = some c

theorem Clause.isSaidBy_unique : Relator.RightUnique Clause.IsSaidBy := by
  rintro said c c' ⟨l, s, hl, hlayout, hc⟩ ⟨l', s', hl', hlayout', hc'⟩
  obtain ⟨ss, hagain, hclauses⟩ := hlayout.of_said (hl'.trans hl.symm)
  obtain rfl := (hagain.imp fun _ _ _ _ => .inl).unique (hlayout'.imp fun _ _ _ _ => .inl) rfl
  rw [List.map_singleton, List.map_singleton, hc, hc'] at hclauses
  exact (Option.some.inj (List.cons.inj hclauses).1).symm

theorem Program.Holds.isHoisted_eq {p : Program} {c : Clause} {id : NodeId} (h : p.Holds c id) : p.isHoisted id = c.isHoisted := by
  have hkind {k : Node.Kind} (hk : p.kind? id = some k) : p.isHoisted id = k.isHoisted := by simp [Program.isHoisted, hk]
  cases c with
  | label name =>
    obtain ⟨label, hk⟩ := h
    exact hkind hk
  | directive name terms body =>
    obtain ⟨arguments, -, hk⟩ := h
    exact hkind hk
  | jump condition target =>
    obtain ⟨a, -, hk⟩ := h
    exact hkind hk
  | compare left right =>
    obtain ⟨a, b, -, -, hk⟩ := h
    exact hkind hk
  | bare term =>
    obtain ⟨k, hk, hexpression⟩ := h.isOperand
    rw [hkind hk]
    cases k <;> first | rfl | cases hexpression

namespace Workspace

variable {file : String}

/-- A line says one clause. -/
theorem IsLine.exists_clause {l : List Token} (h : IsLine file l) :
    ∃ s c, Layout Token.IsLeaf l [s] ∧ s.clause? = some c ∧ c.isHoisted = isHoistedLine file l := by
  obtain ⟨ss, hlayout⟩ := exists_layout_of_quiet h.quiet h.interpolation
  obtain ⟨cs, hcs⟩ := hlayout.exists_clauses
  obtain ⟨-, hholds⟩ := holds_parse file #[] hlayout hcs
  have hlength : cs.length = 1 := by
    have hperm : (Clause.inOrder cs).Perm cs := List.filter_append_perm ..
    rw [← hperm.length_eq, hholds.length_eq]
    exact h.single
  obtain ⟨c, rfl⟩ := List.length_eq_one_iff.1 hlength
  obtain ⟨s, _, hc, hnil, rfl⟩ := List.forall₂_cons_right_iff.1 hcs
  cases hnil
  refine ⟨s, c, hlayout, hc, ?_⟩
  have hone : Clause.inOrder [c] = [c] := by cases hc : c.isHoisted <;> simp [Clause.inOrder, hc]
  rw [hone] at hholds
  obtain ⟨id, _, hid, hnil, hstatements⟩ := List.forall₂_cons_left_iff.1 hholds
  cases hnil
  change c.isHoisted = (parse file l { log := #[] }).program.statements.any _
  rw [hstatements, List.any_cons, List.any_nil, Bool.or_false]
  exact hid.isHoisted_eq.symm

/-- Lines one after the other say their clauses. -/
theorem exists_clauses_of_lines {lines : List (List Token)} (h : ∀ l ∈ lines, IsLine file l) :
    ∃ ss cs, Layout Token.IsLeaf lines.flatten ss ∧ List.Forall₂ (fun s c => s.clause? = some c) ss cs ∧
      List.Forall₂ (fun l c => c.IsSaidBy (l.map Token.said) ∧ c.isHoisted = isHoistedLine file l) lines cs := by
  induction lines with
  | nil => exact ⟨[], [], .nil, .nil, .nil⟩
  | cons l lines ih =>
    obtain ⟨hl, hlines⟩ := List.forall_mem_cons.1 h
    obtain ⟨ss, cs, hlayout, hcs, hsaid⟩ := ih hlines
    obtain ⟨s, c, hfirst, hc, hhoisted⟩ := hl.exists_clause
    refine ⟨s :: ss, c :: cs, hfirst.append (fun _ => .inl) ?_ hlayout, .cons hc hcs, .cons ⟨⟨l, s, rfl, hfirst, hc⟩, hhoisted⟩ hsaid⟩
    intro t ht
    obtain ⟨u, hu, hnewline⟩ := hl.newline
    cases hu.symm.trans ht
    exact hnewline

/-- The clauses of lines take effect in the order in which the hoisted lines stand, and then the others. -/
theorem inOrder_eq_of_lines {lines lines' : List (List Token)} {cs cs' : List Clause}
    (hsaid : List.Forall₂ (fun l c => c.IsSaidBy (l.map Token.said) ∧ c.isHoisted = isHoistedLine file l) lines cs)
    (hsaid' : List.Forall₂ (fun l c => c.IsSaidBy (l.map Token.said) ∧ c.isHoisted = isHoistedLine file l) lines' cs')
    (hhoisted : (lines.filter (isHoistedLine file ·)).map (·.map Token.said) =
      (lines'.filter (isHoistedLine file ·)).map (·.map Token.said))
    (hothers : (lines.filter (!isHoistedLine file ·)).map (·.map Token.said) =
      (lines'.filter (!isHoistedLine file ·)).map (·.map Token.said)) : Clause.inOrder cs = Clause.inOrder cs' := by
  have hfilter (f : Bool → Bool) {lines : List (List Token)} {cs : List Clause}
      (hsaid : List.Forall₂ (fun l c => c.IsSaidBy (l.map Token.said) ∧ c.isHoisted = isHoistedLine file l) lines cs) :
      List.Forall₂ Clause.IsSaidBy ((lines.filter (f <| isHoistedLine file ·)).map (·.map Token.said))
        (cs.filter (f ·.isHoisted)) := by
    rw [List.forall₂_map_left_iff]
    refine (List.rel_filter ?_ hsaid).imp fun _ _ h => h.1
    rintro l c ⟨-, hc⟩
    change f (isHoistedLine file l) = true ↔ f c.isHoisted = true
    rw [hc]
  have heq (f : Bool → Bool) (hlines : (lines.filter (f <| isHoistedLine file ·)).map (·.map Token.said) =
      (lines'.filter (f <| isHoistedLine file ·)).map (·.map Token.said)) : cs.filter (f ·.isHoisted) = cs'.filter (f ·.isHoisted) :=
    List.right_unique_forall₂' Clause.isSaidBy_unique (hfilter f hsaid) (hlines ▸ hfilter f hsaid')
  exact congrArg₂ List.append (heq id hhoisted) (heq not hothers)

/-- Lines come to the same end in two orders that keep the hoisted lines in order and the others in order, wherever their
tokens are located: both are made into one code and one static area, or both are refused with the same diagnostics, but
for locations. -/
theorem same_outcome_of_order {lines lines' : List (List Token)} (h : ∀ l ∈ lines, IsLine file l)
    (h' : ∀ l ∈ lines', IsLine file l)
    (hhoisted : (lines.filter (isHoistedLine file ·)).map (·.map Token.said) =
      (lines'.filter (isHoistedLine file ·)).map (·.map Token.said))
    (hothers : (lines.filter (!isHoistedLine file ·)).map (·.map Token.said) =
      (lines'.filter (!isHoistedLine file ·)).map (·.map Token.said)) (settings : Settings) :
    SameOutcome (assembleTokens file lines.flatten settings) (assembleTokens file lines'.flatten settings) := by
  obtain ⟨ss, cs, hlayout, hcs, hsaid⟩ := exists_clauses_of_lines h
  obtain ⟨ss', cs', hlayout', hcs', hsaid'⟩ := exists_clauses_of_lines h'
  have horder := inOrder_eq_of_lines hsaid hsaid' hhoisted hothers
  obtain ⟨hquiet, hholds⟩ := holds_parse file #[] hlayout hcs
  obtain ⟨hquiet', hholds'⟩ := holds_parse file #[] hlayout' hcs'
  rw [← horder] at hholds'
  exact (isRead_parse file lines.flatten #[]).same_outcome (isRead_parse file lines'.flatten #[]) hquiet hquiet' hholds hholds'
    file file settings settings

/-- A directive that names a label between two declarations of it, and a jump that stands elsewhere. -/
theorem same_outcome_of_order_of_redeclared :
    let line (number : Nat) (text : String) : List Token := (Lexer.ofText "a" text.toList number).run.1
    let lines := [line 1 "a:\n", line 2 "jmp a\n", line 3 ".d a \x7b\n$\x7ba\x7d \x7d\n", line 5 "\na:\n", line 7 "cmp $0 'x'\n"]
    let lines' := [line 1 "a:\n", line 2 ".d a \x7b\n$\x7ba\x7d \x7d\n", line 4 "\na:\n", line 6 "jmp a\n", line 7 "cmp $0 'x'\n"]
    (assembleTokens "a" lines.flatten {}).isOk ∧
      SameOutcome (assembleTokens "a" lines.flatten {}) (assembleTokens "a" lines'.flatten {}) := by
  intro line lines lines'
  have hlines : ∀ l ∈ lines ++ lines', IsLine "a" l := by
    have hfacts : ∀ l ∈ lines ++ lines', l.getLast?.any Token.isNewline ∧ (parse "a" l).diagnostics = [] ∧
        (parse "a" l).program.statements.length = 1 ∧ ∀ t ∈ outside .head l, t.kind ≠ .interpolation := by
      decide +kernel
    intro l hl
    obtain ⟨hnewline, hquiet, hsingle, hinterpolation⟩ := hfacts l hl
    exact ⟨(Option.any_eq_true ..).1 hnewline, hquiet, hsingle, hinterpolation⟩
  refine ⟨by decide +kernel, same_outcome_of_order (fun l hl => hlines l ?_) (fun l hl => hlines l ?_) ?_ ?_ {}⟩
  · exact List.mem_append_left lines' hl
  · exact List.mem_append_right lines hl
  · decide +kernel
  · decide +kernel

end Workspace

end Assembler
