import Mathlib.Data.List.TakeWhile
import Assembler.Proofs.Prior
import Assembler.Proofs.Stages
/-!
# Reading goes on with the next line

A line that is no statement costs no other line: if tokens end with a line and leave no body open,
what follows them is read from where they end, in the state they leave (`Draft.reaches_append`). So
a program is what its first lines make, and then what its other lines make of that.
-/

namespace Assembler

/-! ## Whole lines -/

/-- Tokens that end where a line ends; there may be none. -/
def WholeLines (tokens : List Token) : Prop := ∀ t ∈ tokens.getLast?, t.isNewline

namespace WholeLines

theorem suffix {tokens rest : List Token} (h : WholeLines tokens) (hs : rest <:+ tokens) : WholeLines rest := by
  obtain ⟨first, rfl⟩ := hs
  intro t ht
  exact h t (by rw [List.getLast?_append, ht]; rfl)

theorem tail {t : Token} {rest : List Token} (h : WholeLines (t :: rest)) : WholeLines rest :=
  h.suffix (List.suffix_cons ..)

/-- A token that ends no line has its line's end after it. -/
theorem ne_nil {t : Token} {rest : List Token} (h : WholeLines (t :: rest)) (ht : ¬ t.isNewline) : rest ≠ [] := by
  rintro rfl
  exact ht (h t rfl)

theorem exists_newline {tokens : List Token} (h : WholeLines tokens) (hne : tokens ≠ []) :
    ∃ t ∈ tokens, t.isNewline :=
  ⟨tokens.getLast hne, List.getLast_mem hne, h _ (List.getLast?_eq_some_getLast hne)⟩

end WholeLines

theorem Token.not_isNewline {t : Token} (h : t.kind ≠ .newline) : ¬ t.isNewline := by
  simpa [Token.isNewline] using h

namespace Workspace

/-- A reading that left more tokens behind what it left. -/
def Reading.followedBy {α : Type} (r : Reading α) (more : List Token) : Reading α :=
  { r with rest := r.rest ++ more }

/-- A body with more tokens behind what it left. -/
def Body.followedBy (b : Body) (more : List Token) : Body := { b with rest := b.rest ++ more }

variable {tokens : List Token} (more : List Token) (w : Workspace)

/-! ## What is left is followed by what follows -/

theorem arguments_append (h : WholeLines tokens) (hne : tokens ≠ []) :
    arguments (tokens ++ more) w = (arguments tokens w).followedBy more ∧ (arguments tokens w).rest ≠ [] := by
  fun_induction arguments tokens w with
  | case1 => exact absurd rfl hne
  | case2 t rest w ht => exact ⟨by simp [arguments, ht, Reading.followedBy], hne⟩
  | case3 t rest w ht w' hterm =>
    have hrest := h.ne_nil (Token.not_isNewline fun hk => ht (.inl hk))
    exact ⟨by simp [arguments, ht, hterm, Reading.followedBy], hrest⟩
  | case4 t rest w ht id w' hterm args ih =>
    obtain ⟨heq, hrest⟩ := ih h.tail (h.ne_nil (Token.not_isNewline fun hk => ht (.inl hk)))
    refine ⟨?_, hrest⟩
    simp only [List.cons_append, arguments, ht, if_false, hterm, heq, Reading.followedBy, args]

theorem body_append (depth : Nat) (h : WholeLines tokens) (hclosed : (body depth tokens).closed) :
    body depth (tokens ++ more) = (body depth tokens).followedBy more ∧
      (body depth tokens).rest ≠ [] := by
  fun_induction body depth tokens with
  | case1 => cases hclosed
  | case3 t rest ht =>
    exact ⟨by simp [body, ht, Body.followedBy], h.ne_nil (Token.not_isNewline (by simp [ht]))⟩
  | case2 t rest andMore depth ht ih =>
    obtain ⟨heq, hrest⟩ := ih h.tail hclosed
    exact ⟨by simp [body, ht, heq, andMore, Body.followedBy], hrest⟩
  | case4 t rest andMore depth ht ih =>
    obtain ⟨heq, hrest⟩ := ih h.tail hclosed
    exact ⟨by simp [body, ht, heq, andMore, Body.followedBy], hrest⟩
  | case5 t rest andMore depth ho hc hs ih =>
    obtain ⟨heq, hrest⟩ := ih h.tail hclosed
    exact ⟨by simp [body, heq, andMore, Body.followedBy], hrest⟩

theorem optionalBody_append (h : WholeLines tokens) (hne : tokens ≠ []) (hclosed : (optionalBody tokens).closed) :
    optionalBody (tokens ++ more) = (optionalBody tokens).followedBy more ∧ (optionalBody tokens).rest ≠ [] := by
  cases tokens with
  | nil => exact absurd rfl hne
  | cons t rest =>
    simp only [optionalBody, List.cons_append] at hclosed ⊢
    split at hclosed <;> rename_i ht
    · simpa [ht] using body_append more 0 h.tail hclosed
    · simp [ht, Body.followedBy]

/-- A body that is left open is reported. -/
theorem exists_expectedToken_of_open (t : Token) (rest : List Token)
    (hopen : ¬ (optionalBody (arguments rest w).rest).closed) :
    ∃ d ∈ (directive t rest w).workspace.diagnostics, d.cause = .expectedToken := by
  simp only [directive, requireClosed, if_neg hopen]
  exact ⟨_, List.mem_append_right _ List.mem_cons_self, rfl⟩

theorem directive_append {t : Token} {rest : List Token} (h : WholeLines (t :: rest)) (ht : ¬ t.isNewline)
    (hclosed : ∀ d ∈ (directive t rest w).workspace.diagnostics, d.cause ≠ .expectedToken) :
    directive t (rest ++ more) w = (directive t rest w).followedBy more ∧ (directive t rest w).rest ≠ [] := by
  -- Only a body that is left open reads past its line, and that was reported.
  have hbody : (optionalBody (arguments rest w).rest).closed := by
    refine Decidable.byContradiction fun hopen => ?_
    obtain ⟨d, hd, hcause⟩ := exists_expectedToken_of_open w t rest hopen
    exact hclosed d hd hcause
  obtain ⟨hargs, hargs'⟩ := arguments_append more w h.tail (h.ne_nil ht)
  obtain ⟨heq, hrest⟩ := optionalBody_append more (h.tail.suffix (arguments_rest_suffix ..)) hargs' hbody
  refine ⟨?_, hrest⟩
  simp only [directive, hargs, Reading.followedBy, heq, Body.followedBy, requireClosed, hbody, if_true]

theorem operand_append (statement statement' : List Token) (h : WholeLines tokens) (hne : tokens ≠ []) :
    operand statement (tokens ++ more) w = (operand statement' tokens w).followedBy more ∧
      (operand statement' tokens w).rest ≠ [] := by
  cases tokens with
  | nil => exact absurd rfl hne
  | cons t rest =>
    by_cases ht : t.kind = .newline
    · simp [operand, ht, Reading.followedBy]
    · simp [operand, ht, Reading.followedBy, h.ne_nil (Token.not_isNewline ht)]

theorem command_append {t : Token} {rest : List Token} (h : WholeLines (t :: rest)) (ht : ¬ t.isNewline) :
    command t (rest ++ more) w = (command t rest w).followedBy more ∧ (command t rest w).rest ≠ [] := by
  obtain ⟨heq, hrest⟩ := operand_append more w (t :: rest ++ more) (t :: rest) h.tail (h.ne_nil ht)
  unfold command
  split
  · simp only [← List.cons_append, heq, Reading.followedBy]
    split
    · exact ⟨rfl, hrest⟩
    · exact ⟨rfl, hrest⟩
  · split
    · obtain ⟨heq', hrest'⟩ := operand_append more (operand (t :: rest) rest w).workspace (t :: rest ++ more)
        (t :: rest) (h.tail.suffix (operand_rest_suffix ..)) hrest
      simp only [← List.cons_append, heq, heq', Reading.followedBy]
      split
      · exact ⟨rfl, hrest'⟩
      · exact ⟨rfl, hrest'⟩
    · exact ⟨rfl, h.ne_nil ht⟩

theorem statement_append {t : Token} {rest : List Token} (h : WholeLines (t :: rest)) (ht : ¬ t.isNewline)
    (hclosed : ∀ d ∈ (statement t rest w).workspace.diagnostics, d.cause ≠ .expectedToken) :
    statement t (rest ++ more) w = (statement t rest w).followedBy more ∧ (statement t rest w).rest ≠ [] := by
  unfold statement at hclosed ⊢
  split at hclosed
  · exact directive_append more w h ht hclosed
  · exact ⟨rfl, h.ne_nil ht⟩
  · exact command_append more w h ht
  · exact ⟨rfl, h.ne_nil ht⟩

theorem toNewline_append (h : WholeLines tokens) (hne : tokens ≠ []) :
    toNewline (tokens ++ more) = toNewline tokens ++ more ∧ toNewline tokens ≠ [] := by
  have hne' : toNewline tokens ≠ [] := by
    obtain ⟨t, ht, hnewline⟩ := h.exists_newline hne
    intro hnil
    simpa [hnewline] using List.dropWhile_eq_nil_iff.1 hnil t ht
  refine ⟨?_, hne'⟩
  rw [toNewline, List.dropWhile_append, if_neg (by simpa [toNewline] using hne')]
  rfl

theorem endOfStatement_append (h : WholeLines tokens) (hne : tokens ≠ []) :
    endOfStatement (tokens ++ more) w = ((endOfStatement tokens w).1 ++ more, (endOfStatement tokens w).2) := by
  cases tokens with
  | nil => exact absurd rfl hne
  | cons t rest =>
    by_cases ht : t.isNewline
    · simp [endOfStatement, ht]
    · obtain ⟨heq, hrest⟩ := toNewline_append more h hne
      have hlength : 1 ≤ (toNewline (t :: rest)).length := List.length_pos_iff.2 hrest
      rw [List.cons_append] at heq ⊢
      simp only [endOfStatement, ht, Bool.false_eq_true, if_false, heq, List.drop_append_of_le_length hlength]

end Workspace

/-! ## Lines -/

namespace Draft

theorem readLine_append {t : Token} {rest : List Token} (more : List Token) (d : Draft)
    (h : WholeLines (t :: rest)) (ht : ¬ t.isNewline)
    (hclosed : ∀ g ∈ (readLine t rest d).2.diagnostics, g.cause ≠ .expectedToken) :
    readLine t (rest ++ more) d = ((readLine t rest d).1 ++ more, (readLine t rest d).2) := by
  -- What the end of the statement reports comes after what the statement did.
  have hkept : (Workspace.statement t rest d.toWorkspace).workspace.diagnostics <+: (readLine t rest d).2.diagnostics := by
    unfold readLine
    dsimp only
    split
    · exact List.prefix_rfl
    · rw [add_toWorkspace]
      change _ <+: (Workspace.endOfStatement _ _).2.diagnostics
      exact (Workspace.steps_endOfStatement [] [] (Workspace.tell _ _) _).diagnostics_kept
  obtain ⟨heq, hrest⟩ := Workspace.statement_append more d.toWorkspace h ht fun g hg => hclosed g (hkept.subset hg)
  have hlines : WholeLines (Workspace.statement t rest d.toWorkspace).rest :=
    h.tail.suffix (Workspace.statement_rest_suffix ..)
  simp only [readLine, heq, Workspace.Reading.followedBy]
  split
  · rw [(Workspace.toNewline_append more hlines hrest).1]
  · rw [Workspace.endOfStatement_append more _ hlines hrest]

/-- Reading comes from some tokens and a draft to others, line after line. -/
inductive Reaches : List Token → Draft → List Token → Draft → Prop
  | refl (tokens : List Token) (d : Draft) : Reaches tokens d tokens d
  | newline {t : Token} {rest tokens : List Token} {d e : Draft} (ht : t.isNewline)
      (h : Reaches rest d tokens e) : Reaches (t :: rest) d tokens e
  | line {t : Token} {rest tokens : List Token} {d e : Draft} (ht : ¬ t.isNewline)
      (h : Reaches (readLine t rest d).1 (readLine t rest d).2 tokens e) : Reaches (t :: rest) d tokens e

theorem Reaches.read_eq {tokens tokens' : List Token} {d e : Draft} (h : Reaches tokens d tokens' e) :
    read tokens d = read tokens' e := by
  induction h with
  | refl => rfl
  | newline ht _ ih => rw [read, if_pos ht, ih]
  | line ht _ ih => rw [read, if_neg ht, ih]

/-- What follows whole lines is read in the state that they leave. -/
theorem reaches_append (tokens more : List Token) (d : Draft) (h : WholeLines tokens)
    (hclosed : ∀ g ∈ (read tokens d).diagnostics, g.cause ≠ .expectedToken) :
    Reaches (tokens ++ more) d more (read tokens d) := by
  fun_induction read tokens d with
  | case1 d => exact .refl more d
  | case2 d t rest ht ih => exact .newline ht (ih h.tail hclosed)
  | case3 d t rest ht ih =>
    have hline : ∀ g ∈ (readLine t rest d).2.diagnostics, g.cause ≠ .expectedToken := fun g hg =>
      hclosed g ((steps_read _ _ []).diagnostics_kept.subset hg)
    refine .line ht ?_
    change Reaches (readLine t (rest ++ more) d).1 (readLine t (rest ++ more) d).2 more _
    rw [readLine_append more d h ht hline]
    exact ih (h.tail.suffix (readLine_suffix t rest d)) hclosed

end Draft

/-! ## Programs -/

namespace Workspace

open Draft (Reaches)

/-- Whole lines that leave no body open make what they make alone, and what follows them goes on from there. -/
theorem parse_append (file : String) (A B : List Token) (h : WholeLines A)
    (hclosed : ∀ d ∈ (parse file A).diagnostics, d.cause ≠ .expectedToken) :
    let a := Draft.read A {}
    let b := Draft.read B a.emptied
    (∃ log, parse file A = a.finish.behind [] log) ∧
    (∀ log, Reaches (A ++ B) { toWorkspace := { log } } B (a.behind [] log #[] #[])) ∧
    (parse file (A ++ B)).diagnostics = (parse file A).diagnostics ++ b.diagnostics ∧
    (parse file (A ++ B)).program.nodes = b.program.nodes ∧
    (parse file A).program.Extends (parse file (A ++ B)).program ∧
    (parse file (A ++ B)).shared = b.shared ∧
    (parse file (A ++ B)).program.statements =
      a.hoisted.toList ++ b.hoisted.toList ++ (a.others.toList ++ b.others.toList) := by
  intro a b
  obtain ⟨logA, hA⟩ := exists_parse_eq #[] file A
  obtain ⟨logAB, hAB⟩ := exists_parse_eq #[] file (A ++ B)
  have hstart (log : Log) : ({ toWorkspace := { log } } : Draft) = ({} : Draft).behind [] log #[] #[] := by
    simp [Draft.behind, behind]
  have hreaches : Reaches (A ++ B) {} B a := Draft.reaches_append A B {} h fun d hd => hclosed d (by rw [hA]; exact hd)
  -- Reading never looks at what was reported or listed before, so it may start from empty lists.
  have hend : Draft.read (A ++ B) {} = b.behind a.diagnostics a.log a.hoisted a.others := by
    rw [hreaches.read_eq, ← Draft.read_behind, Draft.emptied_behind]
  have hext : a.program.Extends b.program := (Draft.steps_read B a.emptied []).extends
  refine ⟨⟨logA, hA⟩, fun log => ?_, ?_, ?_, ?_, ?_, ?_⟩
  · rw [hstart, ← Draft.read_behind]
    refine Draft.reaches_append A B _ h fun d hd => hclosed d ?_
    rw [Draft.read_behind] at hd
    rw [hA]
    exact hd
  · rw [hA, hAB, hend]
    rfl
  · rw [hAB, hend]
    rfl
  · rw [hA, hAB, hend]
    exact hext
  · rw [hAB, hend]
    rfl
  · rw [hAB, hend]
    simp [behind, Draft.finish, Draft.behind, tell]

/-- A jump without a target costs nothing but itself. -/
theorem parse_append_after_jump_without_target :
    let A : List Token := [⟨.identifier, "jmp", {}⟩, ⟨.newline, "", {}⟩]
    let B : List Token := [⟨.label, "end", {}⟩]
    WholeLines A ∧ (∀ d ∈ (parse "a" A).diagnostics, d.cause ≠ .expectedToken) ∧
      (parse "a" (A ++ B)).diagnostics =
        (parse "a" A).diagnostics ++ (Draft.read B (Draft.read A {}).emptied).diagnostics := by
  intro A B
  have h : WholeLines A := by unfold WholeLines; decide
  have hclosed : ∀ d ∈ (parse "a" A).diagnostics, d.cause ≠ .expectedToken := by decide +kernel
  exact ⟨h, hclosed, (parse_append "a" A B h hclosed).2.2.1⟩

end Workspace

end Assembler
