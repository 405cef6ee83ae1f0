import Mathlib.Data.List.Induction
import Assembler.Proofs.Bodies
/-!
# A text is trivia and lexemes by turns

What a lexer reads of a text and what it passes over make up the text, with nothing left out and nothing
read twice (`Source.tiled`). What is passed over is trivia (`IsTrivia`), each lexeme has the shape of its
kind (`IsLexeme`), and a token is located by the text before its lexeme (`Location.after`). A lexer finds
no token just if nothing but trivia is left.
-/

namespace Assembler

/-! ## Trivia -/

/-- Blanks and comments, and what comes after them. -/
inductive IsTrivia : List Char → List Char → Prop
  | nil (rest : List Char) : IsTrivia [] rest
  | blank {c : Char} {text rest : List Char} (hc : Text.isInlineBlank c) (htext : IsTrivia text rest) :
      IsTrivia (c :: text) rest
  | lineComment {mark comment rest : List Char} (hmark : mark ∈ [['/', '/'], [';']]) (hcomment : '\n' ∉ comment)
      (hrest : ∀ c ∈ rest.head?, c = '\n') : IsTrivia (mark ++ comment) rest
  | blockComment {comment text rest : List Char} (hcomment : ¬ ['*', '/'] <:+: comment) (htext : IsTrivia text rest) :
      IsTrivia ('/' :: '*' :: (comment ++ '*' :: '/' :: text)) rest
  | openComment {comment : List Char} (hcomment : ¬ ['*', '/'] <:+: comment) : IsTrivia ('/' :: '*' :: comment) []

/-- A text that does not go on with a character that would make a run longer. -/
def Stops (p : Char → Bool) (rest : List Char) : Prop := ∀ c ∈ rest.head?, p c = false

/-- Whether a character begins a comment or another token with the character after it. -/
def joins (c d : Char) : Bool :=
  match c with
  | '/' => d == '/' || d == '*'
  | '.' => isIdentifierStart d
  | '$' => d == '\x7b' || d.isDigit
  | '%' => d.isDigit
  | _ => false

namespace Trivia

/-- What is left of a text whose lines have come to their end is no trivia. -/
theorem readFrom_lineComment_append {comment rest : List Char} (hcomment : '\n' ∉ comment)
    (hrest : ∀ c ∈ rest.head?, c = '\n') : (readFrom .lineComment (comment ++ rest)).rest = (read rest).rest := by
  induction comment with
  | nil =>
    cases rest with
    | nil => rfl
    | cons c rest =>
      obtain rfl := hrest c rfl
      have hnewline : read ('\n' :: rest) = ⟨[], '\n' :: rest, false⟩ :=
        read_of_not_begins (by decide) (by decide) fun he => absurd he (by decide)
      rw [hnewline]
      rfl
  | cons c comment ih =>
    obtain ⟨hc, hcomment⟩ := List.ne_and_not_mem_of_not_mem_cons hcomment
    rw [List.cons_append, readFrom, if_neg (Ne.symm hc)]
    exact ih hcomment

theorem readFrom_openComment {comment : List Char} (hcomment : ¬ ['*', '/'] <:+: comment) :
    (readFrom .blockComment comment).rest = [] := by
  induction comment with
  | nil => rfl
  | cons c comment ih =>
    have ih := ih fun hi => hcomment (hi.trans (List.infix_cons_iff.2 (.inr List.infix_rfl)))
    rw [readFrom]
    · exact ih
    · rintro more rfl rfl
      exact hcomment ⟨[], more, rfl⟩

/-- Trivia are passed over. -/
theorem rest_read_of_isTrivia {text rest : List Char} (h : IsTrivia text rest) : (read (text ++ rest)).rest = (read rest).rest := by
  induction h with
  | nil => rfl
  | blank hc _ ih =>
    rw [List.cons_append, ← List.singleton_append, rest_read_of_filler (.blank hc .nil), ih]
  | @lineComment mark comment rest hmark hcomment hrest =>
    have hline := readFrom_lineComment_append hcomment hrest
    have hmark' : mark = ['/', '/'] ∨ mark = [';'] := by simpa using hmark
    rcases hmark' with rfl | rfl
    · simpa [read, readFrom, prepend] using hline
    · simpa [read, readFrom, prepend, show Text.isInlineBlank ';' = false by decide] using hline
  | @blockComment comment text rest hcomment _ ih =>
    have hblock := readFrom_blockComment comment (text ++ rest) hcomment
    simp only [List.cons_append, List.append_assoc, read, readFrom, prepend]
    exact hblock.trans ih
  | openComment hcomment => simpa [read, readFrom, prepend] using readFrom_openComment hcomment

/-- What is read of a comment goes through the mark that closes it and on with more trivia, or is all there is. -/
def IsOpen (comment rest : List Char) : Prop :=
  (∃ inside text, comment = inside ++ '*' :: '/' :: text ∧ ¬ ['*', '/'] <:+: inside ∧ IsTrivia text rest) ∨
    (¬ ['*', '/'] <:+: comment ∧ rest = [])

theorem IsOpen.cons {c : Char} {comment rest : List Char} (h : IsOpen comment rest)
    (hc : ∀ more, c :: (comment ++ rest) ≠ '*' :: '/' :: more) : IsOpen (c :: comment) rest := by
  have hunmarked {inside more : List Char} (hinside : ¬ ['*', '/'] <:+: inside) (hmore : comment ++ rest = inside ++ more) :
      ¬ ['*', '/'] <:+: c :: inside := by
    rw [List.infix_cons_iff, not_or]
    refine ⟨?_, hinside⟩
    rintro ⟨tail, htail⟩
    refine hc (tail ++ more) ?_
    rw [hmore, ← List.cons_append, ← htail]
    rfl
  rcases h with ⟨inside, text, rfl, hinside, htext⟩ | ⟨hcomment, rfl⟩
  · exact .inl ⟨c :: inside, text, rfl, hunmarked hinside (List.append_assoc ..), htext⟩
  · exact .inr ⟨hunmarked hcomment rfl, rfl⟩

theorem isTrivia_of_isOpen {comment rest : List Char} (h : IsOpen comment rest) : IsTrivia ('/' :: '*' :: comment) rest := by
  rcases h with ⟨inside, text, rfl, hinside, htext⟩ | ⟨hcomment, rfl⟩
  · exact .blockComment hinside htext
  · exact .openComment hcomment

/-- What is read in a mode. -/
def Mode.Reads : Mode → Trivia → Prop
  | blank, t => IsTrivia t.text t.rest
  | lineComment, t => '\n' ∉ t.text ∧ ∀ c ∈ t.rest.head?, c = '\n'
  | blockComment, t => IsOpen t.text t.rest

theorem reads_readFrom (m : Mode) (s : List Char) : m.Reads (readFrom m s) := by
  fun_induction readFrom m s with
  | case1 => exact .nil []
  | case2 rest ih => exact .lineComment (by simp) ih.1 ih.2
  | case3 rest ih => exact isTrivia_of_isOpen ih
  | case4 c rest _ _ hc ih => exact .blank hc ih
  | case5 rest _ _ _ ih => exact .lineComment (by simp) ih.1 ih.2
  | case6 c rest => exact .nil (c :: rest)
  | case7 => simp [Mode.Reads]
  | case8 => simp [Mode.Reads]
  | case9 c rest hc ih => exact ⟨by simpa [prepend, Ne.symm hc] using ih.1, ih.2⟩
  | case10 => exact .inr ⟨by simp, rfl⟩
  | case11 rest ih => exact .inl ⟨[], _, rfl, by simp, ih⟩
  | case12 c rest hmark ih =>
    refine ih.cons fun more he => ?_
    rw [text_append_rest_from] at he
    obtain ⟨rfl, rfl⟩ := List.cons.inj he
    exact hmark more rfl rfl

theorem isTrivia_read (s : List Char) : IsTrivia (read s).text (read s).rest := reads_readFrom .blank s

/-- After trivia comes no comment. -/
theorem joins_eq_false_of_rest {s rest : List Char} (h : (read s).rest = '/' :: rest) : Stops (joins '/') rest := by
  have hagain := rest_read_of_isTrivia (isTrivia_read s)
  rw [text_append_rest, h] at hagain
  intro d hd
  obtain ⟨more, rfl⟩ := List.head?_eq_some_iff.1 hd
  rw [Bool.eq_false_iff]
  intro hjoins
  have hshorter (m : Mode) : (readFrom m more).rest ≠ '/' :: d :: more := by
    intro he
    have hlength := congrArg List.length (text_append_rest_from m more)
    rw [he] at hlength
    simp only [List.length_append, List.length_cons] at hlength
    omega
  have hd' : d = '/' ∨ d = '*' := by simpa [joins] using hjoins
  rcases hd' with rfl | rfl
  · exact hshorter .lineComment hagain.symm
  · exact hshorter .blockComment hagain.symm

theorem rest_read_eq_nil_iff {s : List Char} : (read s).rest = [] ↔ IsTrivia s [] := by
  constructor
  · intro h
    have htrivia := isTrivia_read s
    have htext := text_append_rest s
    rw [h] at htrivia htext
    rwa [← List.append_nil (read s).text, htext] at htrivia
  · intro h
    have hrest := rest_read_of_isTrivia h
    rwa [List.append_nil] at hrest

end Trivia

/-! ## Lexemes -/

/-- What comes after a string literal's opening quote, and what comes after that: it goes through the closing quote, or
up to a line feed that no backslash escapes, or through the end of the text. -/
inductive IsQuoted (quote : Char) : List Char → List Char → Prop
  | closed (rest : List Char) : IsQuoted quote [quote] rest
  | newline (rest : List Char) : IsQuoted quote [] ('\n' :: rest)
  | atEnd : IsQuoted quote [] []
  | plain {c : Char} {text rest : List Char} (hc : c ∉ [quote, '\\', '\n']) (htext : IsQuoted quote text rest) :
      IsQuoted quote (c :: text) rest
  | escaped {c : Char} {text rest : List Char} (htext : IsQuoted quote text rest) : IsQuoted quote ('\\' :: c :: text) rest
  | backslash : IsQuoted quote ['\\'] []

/-- The text of a lexeme of a kind, and what comes after it. -/
inductive IsLexeme : Token.Kind → List Char → List Char → Prop
  | identifier {name rest : List Char} (hname : isName name) (hrest : Stops (fun c => isIdentifierPart c || c == ':') rest) :
      IsLexeme .identifier name rest
  | label {name : List Char} (hname : isName name) (rest : List Char) : IsLexeme .label (name ++ [':']) rest
  | directive {name rest : List Char} (hname : isName name) (hrest : Stops isIdentifierPart rest) :
      IsLexeme .directive ('.' :: name) rest
  | decimal {digits rest : List Char} (hdigits : isDecimal digits) (hrest : Stops Char.isDigit rest)
      (hhex : digits = ['0'] → ∀ x d more, rest = x :: d :: more → x ∈ ['x', 'X'] → ¬ Text.isHexDigit d) :
      IsLexeme .integer digits rest
  | hex {x : Char} {digits rest : List Char} (hx : x ∈ ['x', 'X']) (hne : digits ≠ [])
      (hdigits : ∀ d ∈ digits, Text.isHexDigit d) (hrest : Stops Text.isHexDigit rest) :
      IsLexeme .integer ('0' :: x :: digits) rest
  | register {digits rest : List Char} (hdigits : isDecimal digits) (hrest : Stops Char.isDigit rest) :
      IsLexeme .register ('$' :: digits) rest
  | localSlot {digits rest : List Char} (hdigits : isDecimal digits) (hrest : Stops Char.isDigit rest) :
      IsLexeme .localSlot ('%' :: digits) rest
  | interpolation {body : List Char} (hbody : isBraced 0 body) (rest : List Char) :
      IsLexeme .interpolation ('$' :: '\x7b' :: (body ++ ['\x7d'])) rest
  | openInterpolation {body : List Char} (hbody : ∀ inside more, body = inside ++ '\x7d' :: more → ¬ isBraced 0 inside) :
      IsLexeme .interpolation ('$' :: '\x7b' :: body) []
  | string {quote : Char} {text rest : List Char} (hquote : quote ∈ ['"', '\'']) (htext : IsQuoted quote text rest) :
      IsLexeme .string (quote :: text) rest
  | newline (rest : List Char) : IsLexeme .newline ['\n'] rest
  | punctuation {kind : Token.Kind} {c : Char} (hc : Token.Kind.ofPunctuation? c = some kind) (rest : List Char) :
      IsLexeme kind [c] rest
  | unknown {c : Char} {rest : List Char} (hc : isStray [c]) (hrest : Stops (joins c) rest) : IsLexeme .unknown [c] rest

theorem stops_dropWhile (p : Char → Bool) (s : List Char) : Stops p (s.dropWhile p) := by
  intro c hc
  have hhead := List.head?_dropWhile_not p s
  rw [Option.mem_def.1 hc] at hhead
  simpa using hhead

/-! ### Quoted text -/

theorem IsQuoted.append {quote : Char} {run text rest : List Char} (hrun : ∀ c ∈ run, c ∉ [quote, '\\', '\n'])
    (h : IsQuoted quote text rest) : IsQuoted quote (run ++ text) rest := by
  induction run with
  | nil => exact h
  | cons c run ih =>
    obtain ⟨hc, hrun⟩ := List.forall_mem_cons.1 hrun
    exact .plain hc (ih hrun)

/-- An escape is a character and what belongs to its code. -/
theorem exists_readEscape_text {c : Char} (s : List Char) :
    ∃ d run, (readEscape (c :: s)).text = d :: run ∧
      ∀ e ∈ run, Text.isHexDigit e ∨ e = '\x7b' ∨ e = '\x7d' := by
  unfold readEscape
  split
  · rename_i h
    cases h
  · rename_i rest h
    dsimp only
    split
    · exact ⟨'x', [], rfl, by simp⟩
    · exact ⟨'x', _, rfl, fun e he => .inl (List.mem_takeWhile_imp he)⟩
  · rename_i rest h
    have hdigits : ∀ e ∈ rest.takeWhile Text.isHexDigit, Text.isHexDigit e := fun e he => List.mem_takeWhile_imp he
    dsimp only
    split
    · refine ⟨'u', '\x7b' :: rest.takeWhile Text.isHexDigit ++ ['\x7d'], rfl, fun e he => ?_⟩
      rcases List.mem_append.1 he with he | he
      · rcases List.mem_cons.1 he with rfl | he
        · exact .inr (.inl rfl)
        · exact .inl (hdigits e he)
      · exact .inr (.inr (List.mem_singleton.1 he))
    · refine ⟨'u', _, rfl, fun e he => ?_⟩
      rcases List.mem_cons.1 he with rfl | he
      · exact .inr (.inl rfl)
      · exact .inl (hdigits e he)
  · exact ⟨_, [], rfl, by simp⟩

theorem isQuoted_readString {quote : Char} (hquote : quote ∈ ['"', '\'']) (s : List Char) :
    IsQuoted quote (readString quote s).text (readString quote s).rest := by
  fun_induction readString quote s with
  | case1 => exact .atEnd
  | case2 rest => exact .closed rest
  | case3 rest escape _ ih =>
    cases rest with
    | nil =>
      have hnil : readString quote escape.rest = ⟨[], [], [], [.unclosedString]⟩ := by simp [escape, readEscape, readString]
      rw [Stretch.followedBy, hnil]
      exact .backslash
    | cons c rest =>
      obtain ⟨d, run, htext, hrun⟩ := exists_readEscape_text (c := c) rest
      -- Nothing in the code of a character ends the literal or begins another escape.
      have hcode : ∀ a ∈ run, a ∉ [quote, '\\', '\n'] := by
        intro a ha hmem
        have hmem' : a ∈ ['"', '\'', '\\', '\n'] := by
          rcases List.mem_cons.1 hmem with rfl | hmem
          · exact List.mem_append_left ['\\', '\n'] hquote
          · exact List.mem_append_right ['"', '\''] hmem
        rcases hrun a ha with ha | rfl | rfl
        · rw [isHexDigit_iff] at ha
          fin_cases hmem' <;> revert ha <;> decide
        · exact absurd hmem' (by decide)
        · exact absurd hmem' (by decide)
      have hread := IsQuoted.escaped (c := d) (ih.append hcode)
      rw [← List.cons_append, ← htext] at hread
      exact hread
  | case4 rest hc => exact .newline rest
  | case5 c rest hquote hbackslash hnewline ih => exact .plain (by simp [hquote, hbackslash, hnewline]) ih

/-! ### Braced text -/

/-- What stands between braces goes through the one that closes it, or is not closed and goes on to the end. -/
def IsBracedText (depth : Nat) (text rest : List Char) : Prop :=
  (∃ body, text = body ++ ['\x7d'] ∧ isBraced depth body) ∨
    (∀ inside more, text = inside ++ '\x7d' :: more → ¬ isBraced depth inside) ∧ rest = []

theorem IsBracedText.cons {depth depth' : Nat} {c : Char} {text rest : List Char} (h : IsBracedText depth' text rest)
    (hdepth : ∀ s, isBraced depth (c :: s) = isBraced depth' s) (hc : c = '\x7d' → depth ≠ 0) :
    IsBracedText depth (c :: text) rest := by
  rcases h with ⟨body, rfl, hbody⟩ | ⟨hopen, rfl⟩
  · exact .inl ⟨c :: body, rfl, (hdepth body).trans hbody⟩
  · refine .inr ⟨fun inside more he hinside => ?_, rfl⟩
    cases inside with
    | nil =>
      obtain ⟨rfl, -⟩ := List.cons.inj he
      exact hc rfl (by simpa [isBraced, isPaired] using hinside)
    | cons d inside =>
      obtain ⟨rfl, hmore⟩ := List.cons.inj (he.trans (List.cons_append ..))
      exact hopen inside more hmore ((hdepth inside).symm.trans hinside)

theorem isBracedText_readBraced (depth : Nat) (s : List Char) :
    IsBracedText depth (readBraced depth s).text (readBraced depth s).rest := by
  fun_induction readBraced depth s with
  | case1 => exact .inr ⟨by simp, rfl⟩
  | case2 depth rest ih => exact ih.cons (by simp [isBraced, isPaired]) fun hc => absurd hc (by decide)
  | case3 => exact .inl ⟨[], rfl, rfl⟩
  | case4 rest _ depth ih => exact ih.cons (by simp [isBraced, isPaired]) (by simp)
  | case5 depth c rest hopening hclosing ih =>
    exact ih.cons (by simp [isBraced, isPaired, hopening, hclosing]) fun hc => absurd hc hclosing

/-! ### Readers -/

namespace Lexeme

variable {c : Char}

theorem isLexeme_readName (hc : isIdentifierStart c) (rest : List Char) :
    IsLexeme (readName (c :: rest)).kind (readName (c :: rest)).text (readName (c :: rest)).rest := by
  have hname := isName_takeWhile hc rest
  have hstops := stops_dropWhile isIdentifierPart (c :: rest)
  unfold readName
  split
  · exact .label hname _
  · rename_i hcolon
    refine .identifier hname fun d hd => ?_
    rw [Bool.or_eq_false_iff]
    refine ⟨hstops d hd, ?_⟩
    rw [beq_eq_false_iff_ne]
    rintro rfl
    obtain ⟨more, hmore⟩ := List.head?_eq_some_iff.1 hd
    exact hcolon more hmore

theorem isLexeme_readNumber (hc : c.isDigit) (rest : List Char) :
    IsLexeme (readNumber (c :: rest)).kind (readNumber (c :: rest)).text (readNumber (c :: rest)).rest := by
  have hdecimal (hhex : ∀ x d more, c :: rest = '0' :: x :: d :: more → ¬ ((x = 'x' ∨ x = 'X') ∧ Text.isHexDigit d)) :
      IsLexeme (readNumber.decimal (c :: rest)).kind (readNumber.decimal (c :: rest)).text
        (readNumber.decimal (c :: rest)).rest := by
    refine .decimal (isDecimal_takeWhile hc rest) (stops_dropWhile _ _) fun hzero x d more hrest hx hd => ?_
    have hsplit : (readNumber.decimal (c :: rest)).text ++ (readNumber.decimal (c :: rest)).rest = c :: rest :=
      List.takeWhile_append_dropWhile
    rw [hzero, hrest] at hsplit
    exact hhex x d more hsplit.symm ⟨by simpa using hx, hd⟩
  unfold readNumber
  split
  · rename_i x d more heq
    split
    · rename_i hx
      refine .hex (by simpa using hx.1) ?_ (fun _ he => List.mem_takeWhile_imp he) (stops_dropWhile _ _)
      simp [hx.2]
    · rename_i hx
      refine hdecimal fun x' d' more' heq' => ?_
      rw [heq] at heq'
      simp only [List.cons.injEq, true_and] at heq'
      obtain ⟨rfl, rfl, -⟩ := heq'
      exact hx
  · rename_i hshort
    exact hdecimal fun x d more heq => absurd heq (hshort x d more)

theorem isLexeme_readDirective (rest : List Char) :
    IsLexeme (readDirective '.' rest).kind (readDirective '.' rest).text (readDirective '.' rest).rest := by
  unfold readDirective
  split
  · rename_i c rest
    split
    · rename_i hc
      exact .directive (isName_takeWhile hc rest) (stops_dropWhile _ _)
    · rename_i hc
      exact .unknown (by decide) (by simpa [Stops, single, joins] using hc)
  · exact .unknown (by decide) (by simp [Stops, single])

theorem isLexeme_readSlot {kind : Token.Kind} {mark : Char} (hmark : isStray [mark]) {rest : List Char}
    (hslot : ∀ digits rest, isDecimal digits → Stops Char.isDigit rest → IsLexeme kind (mark :: digits) rest)
    (hjoins : ∀ d ∈ rest.head?, joins mark d = d.isDigit) :
    IsLexeme (readSlot kind mark rest).kind (readSlot kind mark rest).text (readSlot kind mark rest).rest := by
  unfold readSlot
  split
  · rename_i d rest
    split
    · rename_i hd
      exact hslot _ _ (isDecimal_takeWhile hd rest) (stops_dropWhile _ _)
    · rename_i hd
      refine .unknown hmark fun e he => ?_
      obtain rfl : d = e := Option.some.inj he
      rw [hjoins d rfl]
      simpa using hd
  · exact .unknown hmark (by simp [Stops, single])

theorem isLexeme_readDollar (rest : List Char) :
    IsLexeme (readDollar '$' rest).kind (readDollar '$' rest).text (readDollar '$' rest).rest := by
  unfold readDollar
  split
  · rename_i body
    rcases isBracedText_readBraced 0 body with ⟨inside, htext, hinside⟩ | ⟨hopen, hrest⟩
    · dsimp only
      rw [htext]
      exact .interpolation hinside _
    · dsimp only
      rw [hrest]
      exact .openInterpolation hopen
  · rename_i hbrace
    refine isLexeme_readSlot (by decide) (fun _ _ => .register) fun d hd => ?_
    have hd' : d ≠ '\x7b' := by
      rintro rfl
      obtain ⟨more, hmore⟩ := List.head?_eq_some_iff.1 hd
      exact hbrace more hmore
    simp [joins, hd']

/-- What follows trivia is read as a lexeme of its kind. -/
theorem isLexeme_read {s rest : List Char} (h : (Trivia.read s).rest = c :: rest) :
    IsLexeme (read c rest).kind (read c rest).text (read c rest).rest := by
  obtain ⟨hblank, hc⟩ := Trivia.not_begins_of_rest h
  unfold read
  split
  · subst_vars
    exact .newline rest
  split
  · rename_i hquote
    exact .string (by simpa using hquote) (isQuoted_readString (by simpa using hquote) rest)
  split
  · exact isLexeme_readNumber ‹_› rest
  split
  · subst_vars
    exact isLexeme_readDirective rest
  split
  · subst_vars
    exact isLexeme_readDollar rest
  split
  · subst_vars
    exact isLexeme_readSlot (by decide) (fun _ _ => .localSlot) fun d _ => rfl
  split
  · exact isLexeme_readName ‹_› rest
  · cases hkind : Token.Kind.ofPunctuation? c with
    | some kind => exact .punctuation hkind rest
    | none =>
      refine .unknown (by simp_all [isStray, Text.isInlineBlank]) fun d hd => ?_
      unfold joins
      split
      · exact Trivia.joins_eq_false_of_rest h d hd
      all_goals first | rfl | contradiction

end Lexeme

/-! ## Locations -/

/-- Where a text goes on after another: the line is counted by the line feeds before it, the column by the characters
after the last of them. -/
def Location.after (file : String) (before : List Char) : Location :=
  ⟨file, 1 + before.count '\n', 1 + (before.reverse.takeWhile (· ≠ '\n')).length⟩

/-- One more character is one more line, or one more column of the same line. -/
theorem Location.ofPosition_advance {file : String} {p : Position} {before : List Char}
    (h : Location.ofPosition file p = .after file before) (c : Char) :
    Location.ofPosition file (p.advance c) = .after file (before ++ [c]) := by
  simp only [Location.ofPosition, Location.after, Location.mk.injEq, true_and] at h
  obtain ⟨hline, hcolumn⟩ := h
  by_cases hc : c = '\n'
  · simp [Position.advance, Location.ofPosition, Location.after, hc, hline, Nat.add_assoc]
  · simp [Position.advance, Location.ofPosition, Location.after, hc, hline, hcolumn, Nat.add_assoc]

/-- Where reading has come to after a text is counted on from where the text began. -/
theorem Location.ofPosition_after {file : String} {p : Position} {before : List Char}
    (h : Location.ofPosition file p = .after file before) (text : List Char) :
    Location.ofPosition file (p.after text) = .after file (before ++ text) := by
  induction text generalizing p before with
  | nil => rwa [List.append_nil]
  | cons c text ih =>
    rw [← List.singleton_append, ← List.append_assoc]
    exact ih (ofPosition_advance h c)

/-! ## Texts -/

/-- A text that comes after another is trivia and the lexemes of tokens by turns, and ends with trivia. -/
inductive Tiled (file : String) : (before text : List Char) → List Token → Prop
  | done {before text : List Char} (htext : IsTrivia text []) : Tiled file before text []
  | token {before trivia lexeme rest : List Char} {t : Token} {ts : List Token} (htrivia : IsTrivia trivia (lexeme ++ rest))
      (hne : lexeme ≠ []) (hlexeme : IsLexeme t.kind lexeme rest) (hlocation : t.location = .after file (before ++ trivia))
      (hrest : Tiled file (before ++ trivia ++ lexeme) rest ts) : Tiled file before (trivia ++ lexeme ++ rest) (t :: ts)

namespace Lexer

theorem next_eq_none_iff {l : Lexer} : l.next.1 = none ↔ IsTrivia l.rest [] := by
  rw [← Trivia.rest_read_eq_nil_iff]
  unfold next
  dsimp only
  split <;> simp [*]

/-- A token that is found is a lexeme after trivia, and the lexer goes on after it. -/
theorem next_eq_some {l l' : Lexer} {t : Token} (h : l.next.1 = some (t, l')) : ∃ c rest,
    (Trivia.read l.rest).rest = c :: rest ∧
    t = ⟨(Lexeme.read c rest).kind, String.ofList (Lexeme.read c rest).value,
      .ofPosition l.file (l.position.after (Trivia.read l.rest).text)⟩ ∧
    l'.file = l.file ∧ l'.rest = (Lexeme.read c rest).rest ∧
    l'.position = (l.position.after (Trivia.read l.rest).text).after (Lexeme.read c rest).text := by
  cases hrest : (Trivia.read l.rest).rest with
  | nil =>
    rw [next_of_nil hrest] at h
    cases h
  | cons c rest =>
    rw [next_of_cons hrest] at h
    cases h
    exact ⟨c, rest, rfl, rfl, rfl, rfl, rfl⟩

theorem tiled_readAll (l : Lexer) (before : List Char) (h : Location.ofPosition l.file l.position = .after l.file before) :
    Tiled l.file before l.rest l.readAll.1 := by
  fun_induction readAll l generalizing before with
  | case1 l events hnext => exact .done (next_eq_none_iff.1 (by rw [hnext]))
  | case2 l t l' events hnext hlt tokens later heq ih =>
    obtain ⟨c, rest, hrest, rfl, hfile, hafter, hposition⟩ := next_eq_some (congrArg Prod.fst hnext)
    have htrivia := Trivia.isTrivia_read l.rest
    have htext := Trivia.text_append_rest l.rest
    rw [hrest, ← Lexeme.text_append_rest c rest] at htrivia htext
    have hstart := Location.ofPosition_after h (Trivia.read l.rest).text
    have hlater := ih (before ++ (Trivia.read l.rest).text ++ (Lexeme.read c rest).text) (by
      rw [hfile, hposition]
      exact Location.ofPosition_after hstart _)
    rw [heq, hfile, hafter] at hlater
    have htiled := Tiled.token (t := ⟨_, String.ofList (Lexeme.read c rest).value, _⟩) htrivia
      (Lexeme.text_ne_nil c rest) (Lexeme.isLexeme_read hrest) hstart hlater
    rwa [List.append_assoc, htext] at htiled

end Lexer

/-- The text of a source is trivia and lexemes by turns, and its tokens stand where their lexemes begin. A lexer finds
no token just where the text is at its end but for trivia. -/
theorem Source.tiled (s : Source) :
    Tiled s.file [] s.text s.tokens ∧ ∀ l : Lexer, l.next.1 = none ↔ IsTrivia l.rest [] :=
  ⟨(Lexer.ofSource s).tiled_readAll [] rfl, fun _ => Lexer.next_eq_none_iff⟩

end Assembler
