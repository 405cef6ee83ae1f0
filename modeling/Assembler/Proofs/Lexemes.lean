import Mathlib.Data.List.TakeWhile
import Assembler.Token.Lexer
/-!
# Lexemes of a text

A text is a row of lexemes with trivia between them (`Lexeme.readAll`), and the tokens of a lexer say
what the lexemes of its text say, wherever it starts to count (`Lexer.map_said_readAll`). Filler, that
is blanks and closed comments, is passed over, and a blank ends whatever lexeme comes before it.
-/

namespace Assembler

/-! ## What keeps lexemes apart -/

/-- Blanks and closed comments, in any mix. -/
inductive Filler : List Char → Prop
  | nil : Filler []
  | blank {c : Char} {s : List Char} (hc : Text.isInlineBlank c) (hs : Filler s) : Filler (c :: s)
  | comment {text s : List Char} (htext : ¬ ['*', '/'] <:+: text) (hs : Filler s) :
      Filler ('/' :: '*' :: (text ++ '*' :: '/' :: s))

/-- What keeps a token apart from the next: a blank, and more filler. -/
inductive Separator : List Char → Prop
  | mk {c : Char} {s : List Char} (hc : Text.isInlineBlank c) (hs : Filler s) : Separator (c :: s)

/-- A text that is at its end or goes on with a blank. -/
def Apart (s : List Char) : Prop := ∀ c ∈ s.head?, Text.isBlank c

theorem isBlank_of_isInlineBlank {c : Char} (h : Text.isInlineBlank c) : Text.isBlank c := by
  simp only [Text.isInlineBlank, Bool.and_eq_true] at h
  exact h.2

theorem apart_nil : Apart [] := by simp [Apart]

theorem Separator.filler {s : List Char} (h : Separator s) : Filler s := by
  cases h with
  | mk hc hs => exact .blank hc hs

theorem Separator.apart {s : List Char} (h : Separator s) (rest : List Char) : Apart (s ++ rest) := by
  cases h with
  | mk hc hs => simpa [Apart] using isBlank_of_isInlineBlank hc

/-! ## Characters -/

theorem isIdentifierStart_iff {c : Char} :
    isIdentifierStart c ↔ (97 ≤ c.toNat ∧ c.toNat ≤ 122) ∨ (65 ≤ c.toNat ∧ c.toNat ≤ 90) ∨ c.toNat = 95 := by
  have h : c = '_' ↔ c.toNat = 95 := ⟨by rintro rfl; rfl, fun h => Char.toNat_inj.1 h⟩
  simp only [isIdentifierStart, Bool.or_eq_true, Bool.and_eq_true, decide_eq_true_eq, beq_iff_eq, Char.le_def,
    UInt32.le_iff_toNat_le, h, or_assoc]
  rfl

theorem isHexDigit_iff {c : Char} :
    Text.isHexDigit c ↔ (48 ≤ c.toNat ∧ c.toNat ≤ 57) ∨ (97 ≤ c.toNat ∧ c.toNat ≤ 102) ∨ (65 ≤ c.toNat ∧ c.toNat ≤ 70) := by
  simp only [Text.isHexDigit, Bool.or_eq_true, Bool.and_eq_true, decide_eq_true_eq, Char.le_def,
    UInt32.le_iff_toNat_le, Char.isDigit_iff_toNat, or_assoc]
  rfl

theorem isIdentifierPart_of_isHexDigit {c : Char} (h : Text.isHexDigit c) : isIdentifierPart c := by
  rw [isHexDigit_iff] at h
  rw [isIdentifierPart, Bool.or_eq_true, isIdentifierStart_iff, Char.isDigit_iff_toNat]
  simp only [Char.reduceToNat]
  omega

theorem not_isIdentifierPart_of_isBlank {c : Char} (h : Text.isBlank c) : isIdentifierPart c = false := by
  rw [Bool.eq_false_iff, isIdentifierPart, ne_eq, Bool.or_eq_true, isIdentifierStart_iff, Char.isDigit_iff_toNat]
  simp [Text.isBlank] at h
  simp only [Char.reduceToNat]
  omega

theorem not_isHexDigit_of_isBlank {c : Char} (h : Text.isBlank c) : Text.isHexDigit c = false := by
  rw [Bool.eq_false_iff]
  intro hc
  have := isIdentifierPart_of_isHexDigit hc
  rw [not_isIdentifierPart_of_isBlank h] at this
  cases this

theorem not_isDigit_of_isBlank {c : Char} (h : Text.isBlank c) : c.isDigit = false := by
  have := not_isIdentifierPart_of_isBlank h
  simp only [isIdentifierPart, Bool.or_eq_false_iff] at this
  exact this.2

section Runs
variable {p : Char → Bool} {s rest : List Char}

/-- A run of characters goes as far as what comes after it. -/
theorem takeWhile_append_apart (hs : ∀ c ∈ s, p c) (hp : ∀ c, Text.isBlank c → p c = false) (hrest : Apart rest) :
    (s ++ rest).takeWhile p = s := by
  rw [List.takeWhile_append_of_pos hs]
  cases rest with
  | nil => simp
  | cons c rest => simp [hp c (hrest c rfl)]

theorem dropWhile_append_apart (hs : ∀ c ∈ s, p c) (hp : ∀ c, Text.isBlank c → p c = false) (hrest : Apart rest) :
    (s ++ rest).dropWhile p = rest := by
  rw [List.dropWhile_append_of_pos hs]
  cases rest with
  | nil => simp
  | cons c rest => simp [hp c (hrest c rfl)]

end Runs

/-! ## Trivia -/

namespace Trivia

theorem readFrom_blockComment (text s : List Char) (h : ¬ ['*', '/'] <:+: text) :
    (readFrom .blockComment (text ++ '*' :: '/' :: s)).rest = (readFrom .blank s).rest := by
  induction text with
  | nil => rfl
  | cons c text ih =>
    have ih := ih fun hi => h (hi.trans (List.infix_cons_iff.2 (.inr List.infix_rfl)))
    -- The mark that ends the comment is not begun by its last character.
    have hmark : ∀ rest, c :: (text ++ '*' :: '/' :: s) ≠ '*' :: '/' :: rest := by
      intro rest he
      cases text with
      | nil => simp at he
      | cons d text =>
        simp only [List.cons_append, List.cons.injEq] at he
        obtain ⟨rfl, rfl, -⟩ := he
        exact h ⟨[], text, rfl⟩
    rw [List.cons_append, readFrom]
    · exact ih
    · simpa using hmark

/-- Filler is passed over. -/
theorem rest_read_of_filler {s : List Char} (h : Filler s) (rest : List Char) :
    (read (s ++ rest)).rest = (read rest).rest := by
  induction h with
  | nil => rfl
  | @blank c s hc _ ih =>
    have hslash : c ≠ '/' := by rintro rfl; revert hc; decide
    rw [List.cons_append, read, readFrom]
    · rw [if_pos hc]
      exact ih
    · simp [hslash]
    · simp [hslash]
  | @comment text s htext _ ih =>
    have hcomment := readFrom_blockComment text (s ++ rest) htext
    simp only [List.cons_append, List.append_assoc, read, readFrom, prepend]
    exact hcomment.trans ih

/-- What stands at the head of a text is no trivia if it begins neither a blank nor a comment. -/
theorem read_of_not_begins {c : Char} {rest : List Char} (hblank : Text.isInlineBlank c = false) (hc : c ≠ ';')
    (hslash : c = '/' → Apart rest) : read (c :: rest) = ⟨[], c :: rest, false⟩ := by
  have hmark : ∀ d more, Text.isBlank d = false → c :: rest ≠ '/' :: d :: more := by
    rintro d more hd he
    obtain ⟨rfl, rfl⟩ := List.cons.inj he
    have := hslash rfl d rfl
    rw [hd] at this
    cases this
  rw [read, readFrom]
  · rw [hblank, if_neg Bool.false_ne_true, if_neg hc]
  · rintro more rfl rfl
    exact hmark '/' more (by decide) rfl
  · rintro more rfl rfl
    exact hmark '*' more (by decide) rfl

end Trivia

/-! ## Lexemes of a text -/

namespace Lexeme

def said (x : Lexeme) : Token.Kind × String := (x.kind, String.ofList x.value)

/-- The lexemes of a text, one after the other. -/
def readAll (s : List Char) : List Lexeme :=
  match h : (Trivia.read s).rest with
  | [] => []
  | c :: rest =>
    have : (read c rest).rest.length < s.length := by
      have := Trivia.length_rest_le s
      have := length_rest_le c rest
      simp_all
      omega
    read c rest :: readAll (read c rest).rest
termination_by s.length

theorem readAll_of_nil {s : List Char} (h : (Trivia.read s).rest = []) : readAll s = [] := by
  rw [readAll]
  split <;> simp_all

theorem readAll_of_cons {s rest : List Char} {c : Char} (h : (Trivia.read s).rest = c :: rest) :
    readAll s = read c rest :: readAll (read c rest).rest := by
  rw [readAll]
  split
  · simp_all
  · rename_i heq
    rw [h] at heq
    cases heq
    rfl

theorem readAll_of_filler {s : List Char} (h : Filler s) (rest : List Char) : readAll (s ++ rest) = readAll rest := by
  have hrest := Trivia.rest_read_of_filler h rest
  cases hread : (Trivia.read rest).rest with
  | nil => rw [readAll_of_nil (hrest.trans hread), readAll_of_nil hread]
  | cons c more => rw [readAll_of_cons (hrest.trans hread), readAll_of_cons hread]

end Lexeme

/-- What a token says, wherever it stands. -/
def Token.said (t : Token) : Token.Kind × String := (t.kind, t.value)

namespace Lexer

variable {l : Lexer} {c : Char} {rest : List Char}

/-- Where the next lexeme begins. -/
def start (l : Lexer) : Position := l.position.after (Trivia.read l.rest).text

/-- The token of the next lexeme. -/
def token (l : Lexer) (x : Lexeme) : Token := ⟨x.kind, String.ofList x.value, .ofPosition l.file l.start⟩

/-- The lexer that goes on after the next lexeme. -/
def past (l : Lexer) (x : Lexeme) : Lexer := ⟨l.file, x.rest, l.start.after x.text, l.start⟩

/-- What the log says of the trivia before the next lexeme. -/
def commentEvents (l : Lexer) : List Event :=
  if (Trivia.read l.rest).unclosed then [Fault.unclosedComment.event l.anchor] else []

theorem next_of_nil (h : (Trivia.read l.rest).rest = []) : l.next = (none, l.commentEvents) := by
  unfold next
  dsimp only
  rw [h]
  rfl

theorem next_of_cons (h : (Trivia.read l.rest).rest = c :: rest) :
    l.next = (some (l.token (Lexeme.read c rest), l.past (Lexeme.read c rest)),
      l.commentEvents ++ (Lexeme.read c rest).faults.map (·.event l.start)) := by
  unfold next
  dsimp only
  rw [h]
  rfl

theorem readAll_of_nil (h : (Trivia.read l.rest).rest = []) : l.readAll = ([], l.commentEvents) := by
  have hnext := next_of_nil h
  rw [readAll]
  split
  · rename_i heq
    rw [hnext] at heq
    cases heq
    rfl
  · rename_i heq
    rw [hnext] at heq
    cases heq

theorem readAll_of_cons (h : (Trivia.read l.rest).rest = c :: rest) :
    l.readAll = (l.token (Lexeme.read c rest) :: (l.past (Lexeme.read c rest)).readAll.1,
      l.commentEvents ++ (Lexeme.read c rest).faults.map (·.event l.start) ++
        scannedEvent (l.token (Lexeme.read c rest)) :: (l.past (Lexeme.read c rest)).readAll.2) := by
  have hnext := next_of_cons h
  rw [readAll]
  split
  · rename_i heq
    rw [hnext] at heq
    cases heq
  · rename_i heq
    rw [hnext] at heq
    cases heq
    rfl

theorem length_rest_past_lt (h : (Trivia.read l.rest).rest = c :: rest) :
    (l.past (Lexeme.read c rest)).rest.length < l.rest.length :=
  length_rest_lt_of_next (congrArg Prod.fst (next_of_cons h))

/-- A lexer's tokens are the lexemes of its text. -/
theorem map_said_readAll (l : Lexer) : l.readAll.1.map Token.said = (Lexeme.readAll l.rest).map Lexeme.said := by
  cases h : (Trivia.read l.rest).rest with
  | nil =>
    rw [readAll_of_nil h, Lexeme.readAll_of_nil h]
    rfl
  | cons c rest =>
    have hlt := length_rest_past_lt h
    have ih := map_said_readAll (l.past (Lexeme.read c rest))
    rw [readAll_of_cons h, Lexeme.readAll_of_cons h, List.map_cons, List.map_cons, ih]
    rfl
termination_by l.rest.length

end Lexer

/-- What the tokens of a text say. -/
def lexed (s : List Char) : List (Token.Kind × String) := (Lexeme.readAll s).map Lexeme.said

theorem lexed_nil : lexed [] = [] := by
  rw [lexed, Lexeme.readAll_of_nil rfl]
  rfl

theorem lexed_of_filler {s : List Char} (h : Filler s) (rest : List Char) : lexed (s ++ rest) = lexed rest := by
  rw [lexed, Lexeme.readAll_of_filler h]
  rfl

theorem lexed_of_read {c : Char} {tail : List Char} (hblank : Text.isInlineBlank c = false) (hc : c ≠ ';')
    (hslash : c = '/' → Apart tail) :
    lexed (c :: tail) = (Lexeme.read c tail).said :: lexed (Lexeme.read c tail).rest := by
  have h := congrArg Trivia.rest (Trivia.read_of_not_begins hblank hc hslash)
  rw [lexed, Lexeme.readAll_of_cons h, List.map_cons]
  rfl

/-- A character that begins neither a blank nor a comment. -/
def BeginsToken (c : Char) : Prop := Text.isInlineBlank c = false ∧ c ≠ ';' ∧ c ≠ '/'

instance (c : Char) : Decidable (BeginsToken c) := inferInstanceAs (Decidable (_ ∧ _ ∧ _))

theorem lexed_of_begins {c : Char} {tail : List Char} {x : Lexeme} (hc : BeginsToken c)
    (hread : Lexeme.read c tail = x) : lexed (c :: tail) = x.said :: lexed x.rest := by
  rw [lexed_of_read hc.1 hc.2.1 fun he => absurd he hc.2.2, hread]

theorem beginsToken_of_isIdentifierPart {c : Char} (h : isIdentifierPart c) : BeginsToken c := by
  refine ⟨?_, ?_, ?_⟩
  · rw [Bool.eq_false_iff]
    intro hc
    rw [not_isIdentifierPart_of_isBlank (isBlank_of_isInlineBlank hc)] at h
    cases h
  · rintro rfl
    revert h
    decide
  · rintro rfl
    revert h
    decide

/-! ## Readers -/

namespace Lexeme

variable {rest : List Char}

theorem readName_identifier {name : List Char} (hname : ∀ c ∈ name, isIdentifierPart c) (hrest : Apart rest) :
    readName (name ++ rest) = ⟨.identifier, name, name, rest, []⟩ := by
  have hblank := fun c => @not_isIdentifierPart_of_isBlank c
  simp only [readName, takeWhile_append_apart hname hblank hrest, dropWhile_append_apart hname hblank hrest]
  split
  · exact absurd (hrest ':' rfl) (by decide)
  · rfl

theorem readName_label {name : List Char} (hname : ∀ c ∈ name, isIdentifierPart c) :
    readName (name ++ ':' :: rest) = ⟨.label, name, name ++ [':'], rest, []⟩ := by
  have hcolon : isIdentifierPart ':' = false := by decide
  simp [readName, List.takeWhile_append_of_pos hname, List.dropWhile_append_of_pos hname, hcolon]

theorem readNumber_decimal {digits : List Char} (hdigits : ∀ c ∈ digits, c.isDigit) (hrest : Apart rest) :
    readNumber (digits ++ rest) = ⟨.integer, digits, digits, rest, []⟩ := by
  have hblank := fun c => @not_isDigit_of_isBlank c
  have hdecimal : readNumber.decimal (digits ++ rest) = ⟨.integer, digits, digits, rest, []⟩ := by
    simp only [readNumber.decimal, takeWhile_append_apart hdigits hblank hrest, dropWhile_append_apart hdigits hblank hrest]
  unfold readNumber
  split
  · rename_i x d more heq
    rw [if_neg]
    · exact hdecimal
    -- What comes second is another digit or comes after a blank.
    · rintro ⟨hx, -⟩
      have hx' : x.isDigit = false ∧ ¬ Text.isBlank x := by rcases hx with rfl | rfl <;> decide
      rcases digits with _ | ⟨a, _ | ⟨b, digits⟩⟩
      · rw [List.nil_append] at heq
        exact absurd (hrest '0' (by rw [heq]; rfl)) (by decide)
      · obtain ⟨-, rfl⟩ := List.cons.inj heq
        exact hx'.2 (hrest x rfl)
      · simp only [List.cons_append, List.cons.injEq] at heq
        have := hdigits b (by simp)
        rw [heq.2.1, hx'.1] at this
        cases this
  · exact hdecimal

theorem readNumber_largeHex {digits : List Char} (hdigits : ∀ c ∈ digits, Text.isHexDigit c)
    (hlarge : UInt64.size ≤ Text.numberOf 16 digits) (hrest : Apart rest) :
    ∃ faults, readNumber ('0' :: 'x' :: (digits ++ rest)) =
      ⟨.integer, '0' :: 'x' :: digits, '0' :: 'x' :: digits, rest, faults⟩ := by
  have hblank := fun c => @not_isHexDigit_of_isBlank c
  obtain ⟨d, more, rfl⟩ : ∃ d more, digits = d :: more := by
    cases digits with
    | nil => exact absurd hlarge (by decide)
    | cons d more => exact ⟨d, more, rfl⟩
  have hd := hdigits d List.mem_cons_self
  have htake := takeWhile_append_apart hdigits hblank hrest
  have hdrop := dropWhile_append_apart hdigits hblank hrest
  rw [List.cons_append] at htake hdrop ⊢
  simp only [readNumber, hd, true_or, and_self, if_true, htake, hdrop, hexValue, if_neg (Nat.not_lt.2 hlarge)]
  exact ⟨_, rfl⟩

theorem readDirective_name {c : Char} {name : List Char} (hc : isIdentifierStart c)
    (hname : ∀ d ∈ c :: name, isIdentifierPart d) (hrest : Apart rest) :
    readDirective '.' (c :: (name ++ rest)) = ⟨.directive, c :: name, '.' :: c :: name, rest, []⟩ := by
  have hblank := fun c => @not_isIdentifierPart_of_isBlank c
  have htake := takeWhile_append_apart hname hblank hrest
  have hdrop := dropWhile_append_apart hname hblank hrest
  rw [List.cons_append] at htake hdrop
  simp only [readDirective, hc, if_true, htake, hdrop]

theorem readSlot_digits (kind : Token.Kind) (mark : Char) {d : Char} {digits : List Char}
    (hdigits : ∀ c ∈ d :: digits, c.isDigit) (hrest : Apart rest) :
    readSlot kind mark (d :: (digits ++ rest)) = ⟨kind, d :: digits, mark :: d :: digits, rest, []⟩ := by
  have hblank := fun c => @not_isDigit_of_isBlank c
  have htake := takeWhile_append_apart hdigits hblank hrest
  have hdrop := dropWhile_append_apart hdigits hblank hrest
  rw [List.cons_append] at htake hdrop
  simp only [readSlot, hdigits d List.mem_cons_self, if_true, htake, hdrop]

/-- A mark with nothing that belongs to it means nothing. -/
theorem readDirective_apart (dot : Char) (hrest : Apart rest) : readDirective dot rest = single .unknown dot rest := by
  cases rest with
  | nil => rfl
  | cons c rest =>
    have hc : isIdentifierStart c = false := by
      have := not_isIdentifierPart_of_isBlank (hrest c rfl)
      simp only [isIdentifierPart, Bool.or_eq_false_iff] at this
      exact this.1
    simp [readDirective, hc]

theorem readSlot_apart (kind : Token.Kind) (mark : Char) (hrest : Apart rest) :
    readSlot kind mark rest = single .unknown mark rest := by
  cases rest with
  | nil => rfl
  | cons c rest => simp [readSlot, not_isDigit_of_isBlank (hrest c rfl)]

theorem read_digit {c : Char} (rest : List Char) (h : c.isDigit) : read c rest = readNumber (c :: rest) := by
  have hne : c ≠ '\n' ∧ c ≠ '"' ∧ c ≠ '\'' := by
    refine ⟨?_, ?_, ?_⟩ <;> (rintro rfl; revert h; decide)
  simp [read, hne, h]

theorem read_dollar_digit {d : Char} (rest : List Char) (h : d.isDigit) :
    read '$' (d :: rest) = readSlot .register '$' (d :: rest) := by
  have hne : d ≠ '\x7b' := by
    rintro rfl
    revert h
    decide
  simp [read, readDollar, hne]

theorem read_percent (rest : List Char) : read '%' rest = readSlot .localSlot '%' rest := by simp [read]

theorem isDigit_of_isIdentifierStart {c : Char} (h : isIdentifierStart c) : c.isDigit = false := by
  rw [isIdentifierStart_iff] at h
  rw [Bool.eq_false_iff, ne_eq, Char.isDigit_iff_toNat]
  simp only [Char.reduceToNat]
  omega

theorem read_identifierStart {c : Char} (rest : List Char) (h : isIdentifierStart c) :
    read c rest = readName (c :: rest) := by
  have hne : c ≠ '\n' ∧ c ≠ '"' ∧ c ≠ '\'' ∧ c ≠ '.' ∧ c ≠ '$' ∧ c ≠ '%' := by
    refine ⟨?_, ?_, ?_, ?_, ?_, ?_⟩ <;> (rintro rfl; revert h; decide)
  simp [read, hne, h, isDigit_of_isIdentifierStart h]

end Lexeme

end Assembler
