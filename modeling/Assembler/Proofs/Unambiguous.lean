import Assembler.Proofs.Parsed
/-!
# One reading of a program

The first token of a sentence tells its form (`Sentence.IsLegal.form_first`), and the end of its line or
of its body where it ends. So tokens are laid out in sentences in one way at most (`Layout.unique`).
-/

namespace Assembler

/-- What kind of sentence begins with a token. -/
inductive Form
  | label | directive | jump (condition : Condition) | compare | bare

/-- The form of a sentence that begins with a token. -/
def Token.form (t : Token) : Form :=
  match t.kind with
  | .label => .label
  | .directive => .directive
  | .identifier =>
    match Condition.ofMnemonic? t.value with
    | some condition => .jump condition
    | none => if t.value = compareMnemonic then .compare else .bare
  | _ => .bare

theorem Token.form_eq_bare {t : Token} (ht : t.IsTerm) (hm : ¬ t.IsMnemonic) : t.form = .bare := by
  unfold form
  split
  · rename_i hk
    exact absurd hk (ht.kind_ne (by decide))
  · rename_i hk
    exact absurd hk (ht.kind_ne (by decide))
  · rename_i hk
    split
    · rename_i condition hcondition
      exact absurd ⟨hk, .inl ⟨condition, Condition.ofMnemonic?_eq_some.1 hcondition⟩⟩ hm
    · exact if_neg fun hv => hm ⟨hk, .inr hv⟩
  · rfl

namespace Sentence

def form : Sentence → Form
  | label _ => .label
  | directive .. => .directive
  | jump condition _ _ => .jump condition
  | compare .. => .compare
  | bare _ => .bare

/-- The token a sentence begins with. -/
def first : Sentence → Token
  | label name | directive name _ _ => name
  | jump _ mnemonic _ | compare mnemonic _ _ => mnemonic
  | bare term => term

theorem tokens_ne_nil (s : Sentence) : s.tokens ≠ [] := by
  cases s <;> exact List.cons_ne_nil _ _

theorem first_eq {s : Sentence} {rest more : List Token} {t : Token} (h : s.tokens ++ rest = t :: more) : s.first = t := by
  cases s <;> exact (List.cons.inj h).1

theorem IsLegal.form_first {s : Sentence} (hs : s.IsLegal Token.IsTerm) : s.first.form = s.form := by
  cases s with
  | label name => simp [first, form, Token.form, show name.kind = .label from hs]
  | directive name terms body => simp [first, form, Token.form, hs.1]
  | jump condition mnemonic target =>
    obtain ⟨hk, hv, -⟩ := hs
    simp [first, form, Token.form, hk, Condition.ofMnemonic?_eq_some.2 hv]
  | compare mnemonic left right =>
    obtain ⟨hk, hv, -, -⟩ := hs
    simp [first, form, Token.form, hk, hv, Workspace.ofMnemonic?_compareMnemonic]
  | bare term => exact Token.form_eq_bare hs.1 hs.2

theorem IsLegal.not_isNewline_head {s : Sentence} (hs : s.IsLegal Token.IsTerm) {rest more : List Token} {t : Token}
    (h : s.tokens ++ rest = t :: more) : ¬ t.isNewline := by
  rw [← first_eq h, s.not_isNewline_of_mem hs s.first ?_]
  · exact Bool.false_ne_true
  cases s with
  | directive name terms body => cases body <;> exact List.mem_cons_self
  | label | jump | compare | bare => exact List.mem_cons_self

/-! ## Where a sentence ends -/

theorem terms_unique {terms terms' more more' : List Token} (hterms : ∀ t ∈ terms, t.IsTerm)
    (hterms' : ∀ t ∈ terms', t.IsTerm) (hmore : ∀ t ∈ more.head?, ¬ t.IsTerm) (hmore' : ∀ t ∈ more'.head?, ¬ t.IsTerm)
    (h : terms ++ more = terms' ++ more') : terms = terms' ∧ more = more' := by
  induction terms generalizing terms' with
  | nil =>
    cases terms' with
    | nil => exact ⟨rfl, h⟩
    | cons t' terms' =>
      obtain rfl : more = t' :: (terms' ++ more') := h
      exact absurd (hterms' t' List.mem_cons_self) (hmore t' rfl)
  | cons t terms ih =>
    obtain ⟨ht, hterms⟩ := List.forall_mem_cons.1 hterms
    cases terms' with
    | nil =>
      obtain rfl : t :: (terms ++ more) = more' := h
      exact absurd ht (hmore' t rfl)
    | cons t' terms' =>
      obtain ⟨rfl, htail⟩ := List.cons.inj h
      obtain ⟨rfl, hrest⟩ := ih hterms (List.forall_mem_cons.1 hterms').2 htail
      exact ⟨rfl, hrest⟩

/-- The terms of a directive end where its body begins or its line ends. -/
theorem not_isTerm_head {body : Option Braced} (hbody : ∀ b ∈ body, b.IsLegal) {rest : List Token} (hend : EndsLine rest) :
    ∀ t ∈ ((body.map Braced.tokens).getD [] ++ rest).head?, ¬ t.IsTerm := by
  intro t ht hterm
  cases body with
  | none =>
    have hnewline : t.kind = .newline := by simpa [Token.isNewline] using hend t ht
    exact hterm.kind_ne (by decide) hnewline
  | some b =>
    obtain rfl : b.opening = t := Option.some.inj ht
    exact hterm.kind_ne (by decide) (hbody b rfl).opening

theorem Braced.tokens_injective : Function.Injective Braced.tokens := by
  rintro ⟨opening, inside, closing⟩ ⟨opening', inside', closing'⟩ h
  obtain ⟨rfl, h⟩ := List.cons.inj h
  obtain ⟨rfl, hclosing⟩ := List.append_inj' h rfl
  obtain rfl : closing = closing' := List.singleton_inj.1 hclosing
  rfl

/-- The reader of bodies finds the end of both. -/
theorem body_unique {body body' : Option Braced} (hbody : ∀ b ∈ body, b.IsLegal) (hbody' : ∀ b ∈ body', b.IsLegal)
    {rest rest' : List Token} (hend : EndsLine rest) (hend' : EndsLine rest')
    (h : (body.map Braced.tokens).getD [] ++ rest = (body'.map Braced.tokens).getD [] ++ rest') :
    body = body' ∧ rest = rest' := by
  have hread := Workspace.optionalBody_append_of_isLegal hbody hend
  rw [h, Workspace.optionalBody_append_of_isLegal hbody' hend'] at hread
  obtain rfl : rest' = rest := congrArg (·.rest) hread
  have htokens := List.append_cancel_right h
  refine ⟨?_, rfl⟩
  cases body with
  | none =>
    cases body' with
    | none => rfl
    | some b' => cases htokens
  | some b =>
    cases body' with
    | none => cases htokens
    | some b' => exact congrArg some (Braced.tokens_injective htokens)

/-- At the head of a line there is one sentence at most. -/
theorem unique {s s' : Sentence} (hs : s.IsLegal Token.IsTerm) (hs' : s'.IsLegal Token.IsTerm) {rest rest' : List Token}
    (hend : EndsLine rest) (hend' : EndsLine rest') (h : s.tokens ++ rest = s'.tokens ++ rest') : s = s' ∧ rest = rest' := by
  have hform : s.form = s'.form := by
    obtain ⟨t, more, htokens⟩ := List.exists_cons_of_ne_nil (List.append_ne_nil_of_left_ne_nil s.tokens_ne_nil rest)
    rw [← hs.form_first, ← hs'.form_first, first_eq htokens, first_eq (h.symm.trans htokens)]
  cases s with
  | label name =>
    cases s' with
    | label name' =>
      obtain ⟨rfl, hrest⟩ := List.cons.inj h
      exact ⟨rfl, hrest⟩
    | directive | jump | compare | bare => cases hform
  | directive name terms body =>
    cases s' with
    | directive name' terms' body' =>
      obtain ⟨-, hterms, -, hbody⟩ := hs
      obtain ⟨-, hterms', -, hbody'⟩ := hs'
      simp only [tokens, List.cons_append, List.append_assoc, List.cons.injEq] at h
      obtain ⟨rfl, htail⟩ := h
      obtain ⟨rfl, hafter⟩ := terms_unique hterms hterms' (not_isTerm_head hbody hend) (not_isTerm_head hbody' hend') htail
      obtain ⟨rfl, hrest⟩ := body_unique hbody hbody' hend hend' hafter
      exact ⟨rfl, hrest⟩
    | label | jump | compare | bare => cases hform
  | jump condition mnemonic target =>
    cases s' with
    | jump condition' mnemonic' target' =>
      obtain rfl : condition = condition' := Form.jump.inj hform
      simp only [tokens, List.cons_append, List.nil_append, List.cons.injEq] at h
      obtain ⟨rfl, rfl, hrest⟩ := h
      exact ⟨rfl, hrest⟩
    | label | directive | compare | bare => cases hform
  | compare mnemonic left right =>
    cases s' with
    | compare mnemonic' left' right' =>
      simp only [tokens, List.cons_append, List.nil_append, List.cons.injEq] at h
      obtain ⟨rfl, rfl, rfl, hrest⟩ := h
      exact ⟨rfl, hrest⟩
    | label | directive | jump | bare => cases hform
  | bare term =>
    cases s' with
    | bare term' =>
      obtain ⟨rfl, hrest⟩ := List.cons.inj h
      exact ⟨rfl, hrest⟩
    | label | directive | jump | compare => cases hform

end Sentence

/-- Tokens are laid out in sentences in one way at most. -/
theorem Layout.unique {tokens tokens' : List Token} {ss ss' : List Sentence} (h : Layout Token.IsTerm tokens ss)
    (h' : Layout Token.IsTerm tokens' ss') (heq : tokens = tokens') : ss = ss' := by
  induction h generalizing tokens' ss' with
  | nil =>
    cases h' with
    | nil => rfl
    | newline => cases heq
    | @sentence s' rest' =>
      exact absurd heq.symm (List.append_ne_nil_of_left_ne_nil s'.tokens_ne_nil rest')
  | newline ht _ ih =>
    cases h' with
    | nil => cases heq
    | newline _ h' => exact ih h' (List.cons.inj heq).2
    | sentence hs' => exact absurd ht (hs'.not_isNewline_head heq.symm)
  | @sentence s rest ss hs hend _ ih =>
    cases h' with
    | nil => exact absurd heq (List.append_ne_nil_of_left_ne_nil s.tokens_ne_nil rest)
    | newline ht => exact absurd ht (hs.not_isNewline_head heq)
    | sentence hs' hend' h' =>
      obtain ⟨rfl, hrest⟩ := Sentence.unique hs hs' hend hend' heq
      exact congrArg (s :: ·) (ih h' hrest)

end Assembler
