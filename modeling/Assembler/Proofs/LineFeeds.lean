import Assembler.Proofs.Tiling
/-!
# A line feed cuts a text in two

Every reader stops at a line feed or has come to its own end before it, however far it looks ahead: what it reads of a
text is the same if a line feed and more come after the text. What would go on over the line feed is a block comment or an
interpolation that is not closed, and an escape in a string whose character is missing (`endsInEscape`). The text after
the line feed is then read as if it stood alone, some lines further down. Main statement: `Lexer.run_newline`.
-/

namespace Assembler

/-! ## Runs of characters -/

section Runs

variable {p : Char → Bool}

theorem takeWhile_append_newline (hp : p '\n' = false) (s b : List Char) : (s ++ '\n' :: b).takeWhile p = s.takeWhile p := by
  induction s with
  | nil => rw [List.nil_append, List.takeWhile_cons, hp, if_neg Bool.false_ne_true, List.takeWhile_nil]
  | cons c s ih => rw [List.cons_append, List.takeWhile_cons, List.takeWhile_cons, ih]

theorem dropWhile_append_newline (hp : p '\n' = false) (s b : List Char) :
    (s ++ '\n' :: b).dropWhile p = s.dropWhile p ++ '\n' :: b := by
  induction s with
  | nil => rw [List.nil_append, List.dropWhile_cons, hp, if_neg Bool.false_ne_true, List.dropWhile_nil, List.nil_append]
  | cons c s ih =>
    rw [List.cons_append, List.dropWhile_cons, List.dropWhile_cons, ih]
    split <;> rfl

/-- What does not come next does not come next with a line feed either, unless it is one. -/
theorem ne_append_newline {d : Char} (hd : d ≠ '\n') {P : Prop} {s : List Char}
    (h : ∀ more, P → s = d :: more → False) (b more : List Char) (hP : P) : s ++ '\n' :: b ≠ d :: more := by
  intro he
  cases s with
  | nil => exact hd (List.cons.inj he).1.symm
  | cons c s =>
    obtain ⟨rfl, -⟩ := List.cons.inj he
    exact h s hP rfl

end Runs

/-! ## Trivia -/

namespace Trivia

/-- The same trivia with more text after what follows. -/
def extend (t : Trivia) (more : List Char) : Trivia := { t with rest := t.rest ++ more }

theorem extend_prepend (t : Trivia) (text more : List Char) :
    (t.prepend text).extend more = (t.extend more).prepend text := rfl

/-- Trivia end at a line feed, unless a comment between marks goes on over it. -/
theorem readFrom_append_newline (m : Mode) (s b : List Char) (h : (readFrom m s).unclosed = false) :
    readFrom m (s ++ '\n' :: b) = (readFrom m s).extend ('\n' :: b) := by
  have hnewline : Text.isInlineBlank '\n' = false := by decide
  fun_induction readFrom m s with
  | case1 => simp [readFrom, hnewline, extend]
  | case2 rest ih => rw [List.cons_append, List.cons_append, readFrom, ih h, extend_prepend]
  | case3 rest ih => rw [List.cons_append, List.cons_append, readFrom, ih h, extend_prepend]
  | case4 c rest hline hblock hc ih =>
    rw [List.cons_append, readFrom, if_pos hc, ih h, extend_prepend]
    · exact ne_append_newline (by decide) hline b
    · exact ne_append_newline (by decide) hblock b
  | case5 rest hline hblock hc ih =>
    rw [List.cons_append, readFrom, if_neg hc, if_pos rfl, ih h, extend_prepend]
    · exact ne_append_newline (by decide) hline b
    · exact ne_append_newline (by decide) hblock b
  | case6 c rest hline hblock hc hsemicolon =>
    rw [List.cons_append, readFrom, if_neg hc, if_neg hsemicolon]
    · rfl
    · exact ne_append_newline (by decide) hline b
    · exact ne_append_newline (by decide) hblock b
  | case7 => simp [readFrom, extend]
  | case8 rest => simp [readFrom, extend]
  | case9 c rest hc ih => rw [List.cons_append, readFrom, if_neg hc, ih h, extend_prepend]
  | case10 => cases h
  | case11 rest ih => rw [List.cons_append, List.cons_append, readFrom, ih h, extend_prepend]
  | case12 c rest hmark ih =>
    rw [List.cons_append, readFrom, ih h, extend_prepend]
    exact ne_append_newline (by decide) hmark b

theorem read_append_newline (s b : List Char) (h : (read s).unclosed = false) :
    read (s ++ '\n' :: b) = (read s).extend ('\n' :: b) :=
  readFrom_append_newline .blank s b h

end Trivia

/-! ## Strings -/

/-- Whether a text ends in a backslash that begins an escape, where each escape goes through the character after its
backslash at least. -/
def endsInEscape : List Char → Bool
  | [] => false
  | ['\\'] => true
  | '\\' :: _ :: s => endsInEscape s
  | _ :: s => endsInEscape s

theorem endsInEscape_cons {c : Char} (hc : c ≠ '\\') (s : List Char) : endsInEscape (c :: s) = endsInEscape s := by
  rw [endsInEscape] <;> simp [hc]

theorem endsInEscape_append {run : List Char} (hrun : '\\' ∉ run) (s : List Char) :
    endsInEscape (run ++ s) = endsInEscape s := by
  induction run with
  | nil => rfl
  | cons c run ih =>
    obtain ⟨hc, hrun⟩ := List.ne_and_not_mem_of_not_mem_cons hrun
    rw [List.cons_append, endsInEscape_cons hc.symm, ih hrun]

/-- The same stretch with more text after what follows. -/
def Stretch.extend (x : Stretch) (more : List Char) : Stretch := { x with rest := x.rest ++ more }

/-- An escape that has its character does not go on over a line feed. -/
theorem readEscape_append_newline {s : List Char} (hs : s ≠ []) (b : List Char) :
    readEscape (s ++ '\n' :: b) = (readEscape s).extend ('\n' :: b) := by
  have hnewline : Text.isHexDigit '\n' = false := by decide
  have hcode (rest : List Char) :
      ((rest ++ '\n' :: b).take 2).takeWhile Text.isHexDigit = (rest.take 2).takeWhile Text.isHexDigit := by
    rw [← List.take_takeWhile, ← List.take_takeWhile, takeWhile_append_newline hnewline]
  fun_cases readEscape s with
  | case1 => exact absurd rfl hs
  | case2 rest digits hdigits =>
    rw [List.cons_append, readEscape, hcode, if_pos hdigits]
    rfl
  | case3 rest digits hdigits =>
    have hlength : digits.length ≤ rest.length :=
      Nat.le_trans (List.takeWhile_prefix _).length_le (List.take_prefix _ _).length_le
    rw [List.cons_append, readEscape, hcode, if_neg hdigits, List.drop_append_of_le_length hlength]
    rfl
  | case4 rest digits value after hafter =>
    rw [List.cons_append, List.cons_append, readEscape, takeWhile_append_newline hnewline,
      dropWhile_append_newline hnewline, hafter]
    rfl
  | case5 rest digits value hafter =>
    rw [List.cons_append, List.cons_append, readEscape, takeWhile_append_newline hnewline,
      dropWhile_append_newline hnewline]
    split
    · rename_i after he
      exact absurd he (ne_append_newline (P := True) (by decide) (fun after _ => hafter after) b after trivial)
    · rfl
  | case6 c rest hx hu =>
    rw [List.cons_append, readEscape]
    · rfl
    · exact hx
    · exact fun more hc => ne_append_newline (by decide) hu b more hc

theorem readString_append_newline {quote : Char} (hquote : quote ≠ '\n') (s b : List Char)
    (h : endsInEscape (readString quote s).text = false) :
    readString quote (s ++ '\n' :: b) = (readString quote s).extend ('\n' :: b) := by
  fun_induction readString quote s with
  | case1 =>
    rw [List.nil_append, readString, if_neg hquote.symm, if_neg (by decide), if_pos rfl]
    rfl
  | case2 rest =>
    rw [List.cons_append, readString, if_pos rfl]
    rfl
  | case3 rest escape hne ih =>
    cases rest with
    | nil =>
      have hnil : readString quote escape.rest = ⟨[], [], [], [.unclosedString]⟩ := by
        simp [escape, readEscape, readString]
      rw [Stretch.followedBy, hnil] at h
      cases h
    | cons c rest =>
      obtain ⟨d, run, htext, hrun⟩ := exists_readEscape_text (c := c) rest
      have hbackslash : '\\' ∉ run := fun hmem => by
        have hcode := hrun '\\' hmem
        revert hcode
        decide
      have h : endsInEscape ('\\' :: (escape.text ++ (readString quote escape.rest).text)) = false := h
      have htext : escape.text = d :: run := htext
      rw [htext, List.cons_append, endsInEscape, endsInEscape_append hbackslash] at h
      rw [List.cons_append, readString, if_neg hne, if_pos rfl, readEscape_append_newline (List.cons_ne_nil c rest)]
      dsimp only [Stretch.extend]
      rw [ih h]
      rfl
  | case4 rest hquote hbackslash =>
    rw [List.cons_append, readString, if_neg hquote, if_neg hbackslash, if_pos rfl]
    rfl
  | case5 c rest hquote hbackslash hnewline ih =>
    have h : endsInEscape (c :: (readString quote rest).text) = false := h
    rw [endsInEscape_cons hbackslash] at h
    rw [List.cons_append, readString, if_neg hquote, if_neg hbackslash, if_neg hnewline, ih h]
    rfl

/-! ## Interpolations -/

theorem readBraced_append (depth : Nat) (s more : List Char) (h : .unclosedInterpolation ∉ (readBraced depth s).faults) :
    readBraced depth (s ++ more) = (readBraced depth s).extend more := by
  fun_induction readBraced depth s with
  | case1 => exact absurd (List.mem_singleton_self _) h
  | case2 depth rest ih =>
    rw [List.cons_append, readBraced.eq_def]
    dsimp only
    rw [if_pos rfl, ih h]
    rfl
  | case3 rest hne =>
    rw [List.cons_append, readBraced.eq_def]
    rfl
  | case4 rest depth hne ih =>
    rw [List.cons_append, readBraced.eq_def]
    dsimp only
    rw [if_neg hne, if_pos rfl, ih h]
    rfl
  | case5 depth c rest hopening hclosing ih =>
    rw [List.cons_append, readBraced.eq_def]
    dsimp only
    rw [if_neg hopening, if_neg hclosing, ih h]
    rfl

/-! ## Lexemes -/

namespace Lexeme

/-- The same lexeme with more text after what follows. -/
def extend (x : Lexeme) (more : List Char) : Lexeme := { x with rest := x.rest ++ more }

variable (s b : List Char)

theorem readName_append_newline : readName (s ++ '\n' :: b) = (readName s).extend ('\n' :: b) := by
  have hnewline : isIdentifierPart '\n' = false := by decide
  simp only [readName, takeWhile_append_newline hnewline, dropWhile_append_newline hnewline]
  cases s.dropWhile isIdentifierPart with
  | nil => rfl
  | cons c rest =>
    by_cases hc : c = ':'
    · subst hc
      rfl
    · rw [List.cons_append]
      split
      · rename_i he
        exact absurd (List.cons.inj he).1 hc
      · split
        · rename_i he
          exact absurd (List.cons.inj he).1 hc
        · rfl

theorem decimal_append_newline : readNumber.decimal (s ++ '\n' :: b) = (readNumber.decimal s).extend ('\n' :: b) := by
  have hnewline : Char.isDigit '\n' = false := by decide
  simp only [readNumber.decimal, takeWhile_append_newline hnewline, dropWhile_append_newline hnewline]
  rfl

theorem readNumber_eq_decimal {s : List Char}
    (h : ∀ x d more, s = '0' :: x :: d :: more → ¬ ((x = 'x' ∨ x = 'X') ∧ Text.isHexDigit d)) :
    readNumber s = readNumber.decimal s := by
  unfold readNumber
  split
  · exact if_neg (h _ _ _ rfl)
  · rfl

/-- Whether digits are in base sixteen is told by two more characters, and neither is a line feed. -/
theorem readNumber_append_newline : readNumber (s ++ '\n' :: b) = (readNumber s).extend ('\n' :: b) := by
  have hnewline : Text.isHexDigit '\n' = false := by decide
  by_cases hhex : ∃ x d more, s = '0' :: x :: d :: more ∧ (x = 'x' ∨ x = 'X') ∧ Text.isHexDigit d
  · obtain ⟨x, d, more, rfl, hx⟩ := hhex
    simp only [List.cons_append, readNumber, if_pos hx]
    rw [← List.cons_append, takeWhile_append_newline hnewline, dropWhile_append_newline hnewline]
    rfl
  · have hdecimal : ∀ x d more, s = '0' :: x :: d :: more → ¬ ((x = 'x' ∨ x = 'X') ∧ Text.isHexDigit d) :=
      fun x d more hs hx => hhex ⟨x, d, more, hs, hx⟩
    rw [readNumber_eq_decimal hdecimal, readNumber_eq_decimal, decimal_append_newline]
    rintro x d more hs ⟨hx, hd⟩
    rcases s with _ | ⟨z, _ | ⟨y, _ | ⟨w, s⟩⟩⟩ <;> injection hs with hz hs
    · exact absurd hz (by decide)
    · injection hs with hy hs
      subst hy
      exact absurd hx (by decide)
    · injection hs with hy hs
      injection hs with hw hs
      rw [← hw, hnewline] at hd
      cases hd
    · injection hs with hy hs
      injection hs with hw hs
      subst hz hy hw
      exact hdecimal y w s rfl ⟨hx, hd⟩

theorem readDirective_append_newline (dot : Char) :
    readDirective dot (s ++ '\n' :: b) = (readDirective dot s).extend ('\n' :: b) := by
  have hnewline : isIdentifierPart '\n' = false := by decide
  cases s with
  | nil => rfl
  | cons c s =>
    simp only [List.cons_append, readDirective]
    split
    · rw [← List.cons_append, takeWhile_append_newline hnewline, dropWhile_append_newline hnewline]
      rfl
    · rfl

theorem readSlot_append_newline (kind : Token.Kind) (mark : Char) :
    readSlot kind mark (s ++ '\n' :: b) = (readSlot kind mark s).extend ('\n' :: b) := by
  have hnewline : Char.isDigit '\n' = false := by decide
  cases s with
  | nil => rfl
  | cons c s =>
    simp only [List.cons_append, readSlot]
    split
    · rw [← List.cons_append, takeWhile_append_newline hnewline, dropWhile_append_newline hnewline]
      rfl
    · rfl

theorem readDollar_append_newline (dollar : Char) (h : .unclosedInterpolation ∉ (readDollar dollar s).faults) :
    readDollar dollar (s ++ '\n' :: b) = (readDollar dollar s).extend ('\n' :: b) := by
  cases s with
  | nil => exact readSlot_append_newline [] b .register dollar
  | cons c s =>
    by_cases hc : c = '\x7b'
    · subst hc
      rw [List.cons_append, readDollar, readBraced_append 0 s ('\n' :: b) h]
      rfl
    · have hslot (more : List Char) : readDollar dollar (c :: more) = readSlot .register dollar (c :: more) := by
        rw [readDollar]
        simp [hc]
      rw [List.cons_append, hslot, hslot, ← List.cons_append, readSlot_append_newline]

/-- A lexeme ends at a line feed or before it, unless it is an interpolation that is not closed or a string that ends in
an escape. -/
theorem read_append_newline (c : Char) (hopen : .unclosedInterpolation ∉ (read c s).faults)
    (hescape : (read c s).kind = .string → endsInEscape (read c s).text = false) :
    read c (s ++ '\n' :: b) = (read c s).extend ('\n' :: b) := by
  by_cases hnewline : c = '\n'
  · subst hnewline
    rfl
  by_cases hquote : c = '"' ∨ c = '\''
  · have hread (s : List Char) : read c s = readQuoted c s := by
      rw [read, if_neg hnewline, if_pos hquote]
    rw [hread] at hescape ⊢
    have hbackslash : c ≠ '\\' := by
      rintro rfl
      exact absurd hquote (by decide)
    have hescape : endsInEscape (c :: (readString c s).text) = false := hescape rfl
    rw [endsInEscape_cons hbackslash] at hescape
    rw [hread, readQuoted, readString_append_newline hnewline s b hescape]
    rfl
  unfold read at hopen ⊢
  simp only [if_neg hnewline, if_neg hquote] at hopen ⊢
  split
  · exact readNumber_append_newline (c :: s) b
  split
  · exact readDirective_append_newline s b c
  split
  · rename_i hdigit hdot hdollar
    rw [if_neg hdigit, if_neg hdot, if_pos hdollar] at hopen
    exact readDollar_append_newline s b c hopen
  split
  · exact readSlot_append_newline s b .localSlot c
  split
  · exact readName_append_newline (c :: s) b
  split <;> rfl

end Lexeme

/-! ## Positions -/

/-- One position is some lines below another, in the same column. -/
structure Position.IsBelow (lines : Nat) (p q : Position) : Prop where
  line : q.line = p.line + lines
  column : q.column = p.column

namespace Position.IsBelow

variable {lines : Nat} {p q : Position}

theorem advance (h : IsBelow lines p q) (c : Char) : IsBelow lines (p.advance c) (q.advance c) := by
  obtain ⟨hline, hcolumn⟩ := h
  unfold Position.advance
  split
  · exact ⟨by dsimp only; omega, rfl⟩
  · exact ⟨hline, by dsimp only; omega⟩

theorem after (h : IsBelow lines p q) (text : List Char) : IsBelow lines (p.after text) (q.after text) := by
  induction text generalizing p q with
  | nil => exact h
  | cons c text ih => exact ih (h.advance c)

end Position.IsBelow

/-- The same token some lines further down. -/
def Token.down (lines : Nat) (t : Token) : Token := { t with location := { t.location with line := t.location.line + lines } }

/-! ## Lexers -/

namespace Lexer

/-- From some lines further down, the same text has the same tokens, as many lines further down. -/
theorem readAll_of_isBelow {lines : Nat} {l l' : Lexer} (hfile : l'.file = l.file) (hrest : l'.rest = l.rest)
    (h : Position.IsBelow lines l.position l'.position) : l'.readAll.1 = l.readAll.1.map (Token.down lines) := by
  cases hread : (Trivia.read l.rest).rest with
  | nil =>
    have hread' : (Trivia.read l'.rest).rest = [] := by rwa [hrest]
    rw [readAll_of_nil hread, readAll_of_nil hread']
    rfl
  | cons c rest =>
    have hread' : (Trivia.read l'.rest).rest = c :: rest := by rwa [hrest]
    have hstart : Position.IsBelow lines l.start l'.start := by
      unfold start
      rw [hrest]
      exact h.after _
    have htoken : l'.token (Lexeme.read c rest) = (l.token (Lexeme.read c rest)).down lines := by
      simp [token, Token.down, Location.ofPosition, hfile, hstart.line, hstart.column]
    have hlt := length_rest_past_lt hread
    have ih := @readAll_of_isBelow lines (l.past (Lexeme.read c rest)) (l'.past (Lexeme.read c rest)) hfile rfl
      (hstart.after _)
    rw [readAll_of_cons hread, readAll_of_cons hread', List.map_cons, htoken, ih]
termination_by l.rest.length

/-- What is left of a text ends before a line feed that comes after it: every block comment and every interpolation is
closed, and no string ends in an escape. -/
structure Ends (l : Lexer) : Prop where
  closed : ∀ e ∈ l.readAll.2, e.message ∉ ["Unterminated block comment", "Unterminated interpolation"]
  escape : ∀ x ∈ Lexeme.readAll l.rest, x.kind = .string → endsInEscape x.text = false

namespace Ends

variable {l : Lexer} {c : Char} {rest : List Char}

theorem unclosed_eq_false (h : l.Ends) : (Trivia.read l.rest).unclosed = false := by
  refine Bool.eq_false_iff.2 fun hopen => ?_
  have hevents : Fault.unclosedComment.event l.anchor ∈ l.commentEvents := by
    rw [commentEvents, if_pos hopen]
    exact List.mem_singleton_self _
  have hmem : Fault.unclosedComment.event l.anchor ∈ l.readAll.2 := by
    cases hrest : (Trivia.read l.rest).rest with
    | nil => rwa [readAll_of_nil hrest]
    | cons c rest =>
      rw [readAll_of_cons hrest]
      exact List.mem_append_left _ (List.mem_append_left _ hevents)
  exact h.closed _ hmem List.mem_cons_self

theorem past (h : l.Ends) (hrest : (Trivia.read l.rest).rest = c :: rest) : (l.past (Lexeme.read c rest)).Ends where
  closed e he := by
    refine h.closed e ?_
    rw [readAll_of_cons hrest]
    exact List.mem_append_right _ (List.mem_cons_of_mem _ he)
  escape x hx := by
    refine h.escape x ?_
    rw [Lexeme.readAll_of_cons hrest]
    exact List.mem_cons_of_mem _ hx

theorem read_append_newline (h : l.Ends) (hrest : (Trivia.read l.rest).rest = c :: rest) (b : List Char) :
    Lexeme.read c (rest ++ '\n' :: b) = (Lexeme.read c rest).extend ('\n' :: b) := by
  refine Lexeme.read_append_newline rest b c (fun hopen => ?_) (h.escape _ ?_)
  · have hmem : Fault.unclosedInterpolation.event l.start ∈ l.readAll.2 := by
      rw [readAll_of_cons hrest]
      exact List.mem_append_left _ (List.mem_append_right _ (List.mem_map_of_mem hopen))
    exact h.closed _ hmem (List.mem_cons_of_mem _ (List.mem_singleton_self _))
  · rw [Lexeme.readAll_of_cons hrest]
    exact List.mem_cons_self

end Ends

/-- The same lexer with more text after its own. -/
def extend (l : Lexer) (more : List Char) : Lexer := { l with rest := l.rest ++ more }

/-- The tokens of a text stay as they are when a line feed and more come after it; then comes the line feed. -/
theorem readAll_append_newline (l : Lexer) (h : l.Ends) (b : List Char) :
    (l.extend ('\n' :: b)).readAll.1 = l.readAll.1 ++ ⟨.newline, "\n", .ofPosition l.file (l.position.after l.rest)⟩ ::
      (Lexer.mk l.file b ((l.position.after l.rest).advance '\n') (l.position.after l.rest)).readAll.1 := by
  have htrivia : Trivia.read (l.extend ('\n' :: b)).rest = (Trivia.read l.rest).extend ('\n' :: b) :=
    Trivia.read_append_newline l.rest b h.unclosed_eq_false
  have hstart : (l.extend ('\n' :: b)).start = l.start := by
    rw [start, htrivia]
    rfl
  have htext := Trivia.text_append_rest l.rest
  cases hrest : (Trivia.read l.rest).rest with
  | nil =>
    have hread : (Trivia.read (l.extend ('\n' :: b)).rest).rest = '\n' :: b := by
      rw [htrivia, Trivia.extend, hrest, List.nil_append]
    rw [hrest, List.append_nil] at htext
    rw [readAll_of_nil hrest, readAll_of_cons hread, token, past, hstart, start, htext]
    rfl
  | cons c rest =>
    have hread : (Trivia.read (l.extend ('\n' :: b)).rest).rest = c :: (rest ++ '\n' :: b) := by
      rw [htrivia, Trivia.extend, hrest, List.cons_append]
    have hpast : (l.extend ('\n' :: b)).past (Lexeme.read c (rest ++ '\n' :: b)) =
        (l.past (Lexeme.read c rest)).extend ('\n' :: b) := by
      rw [h.read_append_newline hrest, past, hstart]
      rfl
    have htoken : (l.extend ('\n' :: b)).token (Lexeme.read c (rest ++ '\n' :: b)) = l.token (Lexeme.read c rest) := by
      rw [h.read_append_newline hrest, token, hstart]
      rfl
    have hafter : (l.past (Lexeme.read c rest)).position.after (l.past (Lexeme.read c rest)).rest =
        l.position.after l.rest := by
      rw [hrest, ← Lexeme.text_append_rest c rest] at htext
      rw [← htext]
      simp only [past, start, Position.after, List.foldl_append]
    have hlt := length_rest_past_lt hrest
    have ih := readAll_append_newline (l.past (Lexeme.read c rest)) (h.past hrest) b
    rw [readAll_of_cons hread, readAll_of_cons hrest, hpast, htoken, ih, hafter]
    rfl
termination_by l.rest.length

/-- The tokens of two texts with a line feed between them are those of the first, the line feed, and those of the second
as many lines further down as come before it, if what the first meets ends with it. -/
theorem run_newline (file : String) (a b : List Char)
    (hclosed : ∀ e ∈ (ofText file a).run.2, e.message ∉ ["Unterminated block comment", "Unterminated interpolation"])
    (hescape : ∀ x ∈ Lexeme.readAll a, x.kind = .string → endsInEscape x.text = false) :
    (ofText file (a ++ '\n' :: b)).run.1 =
      (ofText file a).run.1 ++ ⟨.newline, "\n", .after file a⟩ ::
        (ofText file b).run.1.map (Token.down (1 + a.count '\n')) := by
  have hends : (ofText file a).Ends := ⟨fun e he => hclosed e (List.mem_append_left _ he), hescape⟩
  obtain ⟨p, hp⟩ : ∃ p, (ofText file a).position.after a = p := ⟨_, rfl⟩
  have hstart : Location.ofPosition file (ofText file a).position = .after file [] := rfl
  have hlocation : Location.ofPosition file p = .after file a := hp ▸ Location.ofPosition_after hstart a
  have hline : p.line = 1 + a.count '\n' := congrArg Location.line hlocation
  have hbelow : Position.IsBelow (1 + a.count '\n') (ofText file b).position (p.advance '\n') := by
    refine ⟨?_, rfl⟩
    rw [← hline]
    exact Nat.add_comm p.line 1
  have hsecond : (Lexer.mk file b (p.advance '\n') p).readAll.1 =
      (ofText file b).readAll.1.map (Token.down (1 + a.count '\n')) := readAll_of_isBelow rfl rfl hbelow
  have hjoined := (ofText file a).readAll_append_newline hends b
  have hrest : (ofText file a).rest = a := rfl
  rw [hrest, hp] at hjoined
  refine hjoined.trans ?_
  rw [← hlocation]
  exact congrArg (fun later => (ofText file a).readAll.1 ++ _ :: later) hsecond

/-- Here the first text closes a comment over a line feed and ends in a string that is not closed, and the second begins
with what would close a comment. -/
theorem run_newline_after_open_string :
    let a := "e: /*\n*/ 'x\\';".toList
    let b := "*/ e".toList
    (∀ e ∈ (ofText "f" a).run.2, e.message ∉ ["Unterminated block comment", "Unterminated interpolation"]) ∧
      (∀ x ∈ Lexeme.readAll a, x.kind = .string → endsInEscape x.text = false) ∧
      (ofText "f" (a ++ '\n' :: b)).run.1 = [⟨.label, "e", ⟨"f", 1, 1⟩⟩, ⟨.string, "x';", ⟨"f", 2, 4⟩⟩,
        ⟨.newline, "\n", ⟨"f", 2, 9⟩⟩, ⟨.unknown, "*", ⟨"f", 3, 1⟩⟩, ⟨.unknown, "/", ⟨"f", 3, 2⟩⟩,
        ⟨.identifier, "e", ⟨"f", 3, 4⟩⟩] := by
  intro a b
  have hclosed : ∀ e ∈ (ofText "f" a).run.2,
      e.message ∉ ["Unterminated block comment", "Unterminated interpolation"] := by decide +kernel
  have hescape : ∀ x ∈ Lexeme.readAll a, x.kind = .string → endsInEscape x.text = false := by decide +kernel
  refine ⟨hclosed, hescape, ?_⟩
  rw [run_newline "f" a b hclosed hescape]
  decide +kernel

end Lexer

end Assembler
