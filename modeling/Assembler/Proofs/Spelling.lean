import Mathlib.Tactic.FinCases
import Assembler.Proofs.Lexemes
/-!
# Tokens that are written and read again

A token that is written down is read back as that token, whatever stands after it, as long as a blank
comes first (`lexed_repr_append`). So tokens that are written one after the other, with blanks and
comments between them, are read back as they are (`Lexer.said_run_of_spelled`).
-/

namespace Assembler

/-! ## Values -/

/-- Whether marks come in pairs, none closed before it is opened, where some were open before. -/
def isPaired {α : Type} (opens closes : α → Bool) : (depth : Nat) → List α → Bool
  | depth, [] => depth == 0
  | depth, x :: rest =>
    if opens x then isPaired opens closes (depth + 1) rest
    else if closes x then
      match depth with
      | 0 => false
      | depth + 1 => isPaired opens closes depth rest
    else isPaired opens closes depth rest

/-- Whether the braces in a text are paired. -/
def isBraced (depth : Nat) (s : List Char) : Bool := isPaired (· = '\x7b') (· = '\x7d') depth s

/-- Whether a text is a name. -/
def isName : List Char → Bool
  | [] => false
  | c :: rest => isIdentifierStart c && rest.all isIdentifierPart

/-- Whether a text is digits in base ten, one at least. -/
def isDecimal (s : List Char) : Bool := !s.isEmpty && s.all Char.isDigit

/-- Whether a text is an integer in base sixteen that takes more than 64 bits. -/
def isLargeHex : List Char → Bool
  | '0' :: 'x' :: digits => digits.all Text.isHexDigit && decide (UInt64.size ≤ Text.numberOf 16 digits)
  | _ => false

/-- Whether a text is a character that begins no trivia and no token but itself, at least with a blank after it. -/
def isStray : List Char → Bool
  | [c] => !Text.isBlank c && c != ';' && c != '"' && c != '\'' && !c.isDigit && !isIdentifierStart c
      && (Token.Kind.ofPunctuation? c).isNone
  | _ => false

namespace Token

/-- Whether the value of a token is one that its kind can have. -/
def isWellFormed (t : Token) : Bool :=
  let value := t.value.toList
  match t.kind with
  | .identifier | .directive | .label => isName value
  | .register | .localSlot => isDecimal value
  | .integer => isDecimal value || isLargeHex value
  | .string => true
  | .interpolation => isBraced 0 value
  | .newline => value = ['\n']
  | .unknown => isStray value
  | kind => value = kind.name.toList

end Token

/-- Tokens written one after the other, each kept apart from the next. -/
inductive Spelled : List Token → List Char → Prop
  | nil : Spelled [] []
  | last (t : Token) : Spelled [t] t.repr.toList
  | cons (t : Token) {u : Token} {ts : List Token} {separator text : List Char} (hs : Separator separator)
      (h : Spelled (u :: ts) text) : Spelled (t :: u :: ts) (t.repr.toList ++ (separator ++ text))

theorem isName_iff {s : List Char} :
    isName s ↔ ∃ c name, s = c :: name ∧ isIdentifierStart c ∧ ∀ d ∈ c :: name, isIdentifierPart d := by
  cases s with
  | nil => simp [isName]
  | cons c name => simp +contextual [isName, isIdentifierPart]

theorem isDecimal_iff {s : List Char} : isDecimal s ↔ ∃ c digits, s = c :: digits ∧ ∀ d ∈ c :: digits, d.isDigit := by
  cases s with
  | nil => simp [isDecimal]
  | cons c digits => simp [isDecimal]

/-! ## Values are read back -/

/-- What a way to write characters between quotes writes of a character is read as the character. -/
def Escapes (escape : Char → List Char) : Prop :=
  ∀ c s, (readString '"' (escape c ++ s)).value = c :: (readString '"' s).value ∧
    (readString '"' (escape c ++ s)).rest = (readString '"' s).rest

theorem escapes_escapeChar : Escapes Token.escapeChar := by
  intro c s
  unfold Token.escapeChar
  split_ifs with h₁ h₂ h₃ h₄ h₅ h₆
  · subst h₁; simp [readString, readEscape, simpleEscape, Stretch.followedBy]
  · subst h₂; simp [readString, readEscape, simpleEscape, Stretch.followedBy]
  · subst h₃; simp [readString, readEscape, simpleEscape, Stretch.followedBy]
  · subst h₄; simp [readString, readEscape, simpleEscape, Stretch.followedBy]
  · subst h₅; simp [readString, readEscape, simpleEscape, Stretch.followedBy]
  · subst h₆; simp [readString, readEscape, simpleEscape, Stretch.followedBy]
  · simp [readString, h₁, h₂, h₃, Stretch.followedBy]

theorem Escapes.readString {escape : Char → List Char} (h : Escapes escape) (value rest : List Char) :
    (Assembler.readString '"' (value.flatMap escape ++ '"' :: rest)).value = value ∧
      (Assembler.readString '"' (value.flatMap escape ++ '"' :: rest)).rest = rest := by
  induction value with
  | nil => simp [Assembler.readString]
  | cons c value ih =>
    obtain ⟨hvalue, hrest⟩ := h c (value.flatMap escape ++ '"' :: rest)
    rw [List.flatMap_cons, List.append_assoc, hvalue, hrest, ih.1, ih.2]
    exact ⟨rfl, rfl⟩

/-- What stands between braces ends where they are paired. -/
theorem readBraced_paired {depth : Nat} {s : List Char} (h : isBraced depth s) (rest : List Char) :
    (readBraced depth (s ++ '\x7d' :: rest)).value = s ∧ (readBraced depth (s ++ '\x7d' :: rest)).rest = rest := by
  unfold isBraced at h
  fun_induction isPaired (· = '\x7b') (· = '\x7d') depth s with
  | case1 depth =>
    obtain rfl : depth = 0 := by simpa using h
    simp [readBraced]
  | case2 depth c s hc ih => simp_all [readBraced, Stretch.followedBy]
  | case3 c s hc hc' => cases h
  | case4 c s hc hc' depth ih => simp_all [readBraced, Stretch.followedBy]
  | case5 depth c s hc hc' ih => simp_all [readBraced, Stretch.followedBy]

namespace Lexeme

/-- A stray character before a blank is a token by itself. -/
theorem read_stray {c : Char} {rest : List Char} (h : isStray [c]) (hrest : Apart rest) :
    (read c rest).said = (.unknown, String.ofList [c]) ∧ (read c rest).rest = rest := by
  simp only [isStray, Bool.and_eq_true, Bool.not_eq_true', bne_iff_ne, ne_eq, Option.isNone_iff_eq_none] at h
  obtain ⟨⟨⟨⟨⟨⟨hblank, -⟩, hquote⟩, hquote'⟩, hdigit⟩, hstart⟩, hpunctuation⟩ := h
  have hnewline : c ≠ '\n' := by rintro rfl; revert hblank; decide
  unfold read
  rw [if_neg hnewline, if_neg (by simp [hquote, hquote']), if_neg (by simp [hdigit])]
  split
  · simp [readDirective_apart c hrest, single, said]
  split
  · rename_i hdollar
    have hslot : readDollar c rest = readSlot .register c rest := by
      unfold readDollar
      split
      · exact absurd (hrest '\x7b' rfl) (by decide)
      · rfl
    simp [hslot, readSlot_apart _ c hrest, single, said]
  split
  · simp [readSlot_apart _ c hrest, single, said]
  · simp [hstart, hpunctuation, single, said]

end Lexeme

/-! ## Tokens are read back -/

section Written
variable {rest : List Char}

theorem lexed_identifier {name : List Char} (h : isName name) (hrest : Apart rest) :
    lexed (name ++ rest) = (.identifier, String.ofList name) :: lexed rest := by
  obtain ⟨c, name, rfl, hc, hname⟩ := isName_iff.1 h
  have hread := Lexeme.readName_identifier hname hrest
  rw [List.cons_append, ← Lexeme.read_identifierStart _ hc] at hread
  exact lexed_of_begins (beginsToken_of_isIdentifierPart (hname c List.mem_cons_self)) hread

theorem lexed_label {name : List Char} (h : isName name) :
    lexed (name ++ ':' :: rest) = (.label, String.ofList name) :: lexed rest := by
  obtain ⟨c, name, rfl, hc, hname⟩ := isName_iff.1 h
  have hread := @Lexeme.readName_label rest _ hname
  rw [List.cons_append, ← Lexeme.read_identifierStart _ hc] at hread
  exact lexed_of_begins (beginsToken_of_isIdentifierPart (hname c List.mem_cons_self)) hread

theorem lexed_directive {name : List Char} (h : isName name) (hrest : Apart rest) :
    lexed ('.' :: (name ++ rest)) = (.directive, String.ofList name) :: lexed rest := by
  obtain ⟨c, name, rfl, hc, hname⟩ := isName_iff.1 h
  have hread : Lexeme.read '.' (c :: (name ++ rest)) = ⟨.directive, c :: name, '.' :: c :: name, rest, []⟩ := by
    simp [Lexeme.read, Lexeme.readDirective_name hc hname hrest]
  exact lexed_of_begins (by decide) hread

theorem lexed_decimal {digits : List Char} (h : isDecimal digits) (hrest : Apart rest) :
    lexed (digits ++ rest) = (.integer, String.ofList digits) :: lexed rest := by
  obtain ⟨c, digits, rfl, hdigits⟩ := isDecimal_iff.1 h
  have hc := hdigits c List.mem_cons_self
  have hread := Lexeme.readNumber_decimal hdigits hrest
  rw [List.cons_append, ← Lexeme.read_digit _ hc] at hread
  exact lexed_of_begins (beginsToken_of_isIdentifierPart (by simp [isIdentifierPart, hc])) hread

theorem lexed_largeHex {value : List Char} (h : isLargeHex value) (hrest : Apart rest) :
    lexed (value ++ rest) = (.integer, String.ofList value) :: lexed rest := by
  unfold isLargeHex at h
  split at h
  · rename_i digits
    simp only [Bool.and_eq_true, List.all_eq_true, decide_eq_true_eq] at h
    obtain ⟨faults, hread⟩ := Lexeme.readNumber_largeHex h.1 h.2 hrest
    rw [← Lexeme.read_digit _ (by decide)] at hread
    exact lexed_of_begins (by decide) hread
  · cases h

theorem lexed_slot {kind : Token.Kind} {mark : Char} {digits : List Char} (h : isDecimal digits)
    (hmark : BeginsToken mark)
    (hslot : ∀ d more, d.isDigit → Lexeme.read mark (d :: more) = Lexeme.readSlot kind mark (d :: more))
    (hrest : Apart rest) : lexed (mark :: (digits ++ rest)) = (kind, String.ofList digits) :: lexed rest := by
  obtain ⟨c, digits, rfl, hdigits⟩ := isDecimal_iff.1 h
  have hread := Lexeme.readSlot_digits kind mark hdigits hrest
  rw [← hslot c _ (hdigits c List.mem_cons_self)] at hread
  exact lexed_of_begins hmark hread

theorem lexed_register {digits : List Char} (h : isDecimal digits) (hrest : Apart rest) :
    lexed ('$' :: (digits ++ rest)) = (.register, String.ofList digits) :: lexed rest :=
  lexed_slot h (by decide) (fun _ more hd => Lexeme.read_dollar_digit more hd) hrest

theorem lexed_localSlot {digits : List Char} (h : isDecimal digits) (hrest : Apart rest) :
    lexed ('%' :: (digits ++ rest)) = (.localSlot, String.ofList digits) :: lexed rest :=
  lexed_slot h (by decide) (fun _ _ _ => Lexeme.read_percent _) hrest

theorem lexed_quoted {escape : Char → List Char} (h : Escapes escape) (value : List Char) :
    lexed ('"' :: (value.flatMap escape ++ '"' :: rest)) = (.string, String.ofList value) :: lexed rest := by
  obtain ⟨hvalue, hrest⟩ := h.readString value rest
  have hread (s : List Char) : Lexeme.read '"' s = Lexeme.readQuoted '"' s := by simp [Lexeme.read]
  rw [lexed_of_begins (by decide) (hread _)]
  simp only [Lexeme.readQuoted, Lexeme.said, hvalue, hrest]

theorem lexed_stringLiteral (value : String) :
    lexed ((Token.stringLiteral value).toList ++ rest) = (.string, value) :: lexed rest := by
  have htext : (Token.stringLiteral value).toList ++ rest = '"' :: (value.toList.flatMap Token.escapeChar ++ '"' :: rest) := by
    simp [Token.stringLiteral]
  rw [htext, lexed_quoted escapes_escapeChar, String.ofList_toList]

theorem lexed_interpolation {value : List Char} (h : isBraced 0 value) :
    lexed ('$' :: '\x7b' :: (value ++ '\x7d' :: rest)) = (.interpolation, String.ofList value) :: lexed rest := by
  obtain ⟨hvalue, hrest⟩ := readBraced_paired h rest
  have hread (s : List Char) : Lexeme.read '$' s = Lexeme.readDollar '$' s := by simp [Lexeme.read]
  rw [lexed_of_begins (by decide) (hread _)]
  simp only [Lexeme.readDollar, Lexeme.said, hvalue, hrest]

theorem lexed_stray {value : List Char} (h : isStray value) (hrest : Apart rest) :
    lexed (value ++ rest) = (.unknown, String.ofList value) :: lexed rest := by
  obtain ⟨c, rfl⟩ : ∃ c, value = [c] := by
    unfold isStray at h
    split at h
    · exact ⟨_, rfl⟩
    · cases h
  obtain ⟨hsaid, hrest'⟩ := Lexeme.read_stray h hrest
  simp only [isStray, Bool.and_eq_true, Bool.not_eq_true', bne_iff_ne, ne_eq] at h
  have hblank : Text.isInlineBlank c = false := by simp [Text.isInlineBlank, h]
  rw [List.singleton_append, lexed_of_read hblank h.1.1.1.1.1.2 fun _ => hrest, hsaid, hrest']

theorem lexed_newline : lexed ('\n' :: rest) = (.newline, String.ofList ['\n']) :: lexed rest :=
  lexed_of_begins (by decide) rfl

theorem Token.Kind.mem_of_ofPunctuation? {c : Char} {kind : Token.Kind} (h : ofPunctuation? c = some kind) :
    c ∈ ['\x7b', '\x7d', '(', ')', '[', ']', ','] := by
  unfold ofPunctuation? at h
  split_ifs at h <;> simp_all

theorem lexed_punctuation {c : Char} {kind : Token.Kind} (h : Token.Kind.ofPunctuation? c = some kind) :
    lexed (c :: rest) = (kind, String.ofList [c]) :: lexed rest := by
  have hcs := Token.Kind.mem_of_ofPunctuation? h
  have hread : BeginsToken c ∧ Lexeme.read c rest = Lexeme.single kind c rest := by
    fin_cases hcs <;> cases h <;>
      exact ⟨by decide, by simp [Lexeme.read, Char.isDigit, isIdentifierStart, Token.Kind.ofPunctuation?]⟩
  exact lexed_of_begins hread.1 hread.2

end Written

/-- A well-formed token is read back from its text, if a blank or nothing comes after it. -/
theorem lexed_repr_append {t : Token} (h : t.isWellFormed) {rest : List Char} (hrest : Apart rest) :
    lexed (t.repr.toList ++ rest) = t.said :: lexed rest := by
  obtain ⟨kind, value, location⟩ := t
  obtain ⟨value, rfl⟩ : ∃ s, value = String.ofList s := ⟨value.toList, by simp⟩
  cases kind
  all_goals
    simp only [Token.isWellFormed, Token.repr, Token.Kind.name, Token.said, String.toList_ofList, String.toList_append,
      List.append_assoc, decide_eq_true_eq, Bool.or_eq_true] at h ⊢
  case identifier => exact lexed_identifier h hrest
  case integer =>
    rcases h with h | h
    · exact lexed_decimal h hrest
    · exact lexed_largeHex h hrest
  case string => exact lexed_stringLiteral _
  case directive => exact lexed_directive h hrest
  case label => exact lexed_label h
  case register => exact lexed_register h hrest
  case localSlot => exact lexed_localSlot h hrest
  case interpolation => exact lexed_interpolation h
  case unknown => exact lexed_stray h hrest
  case newline =>
    rw [h]
    exact lexed_newline
  all_goals
    rw [h]
    exact lexed_punctuation (by decide)

/-- Tokens that are kept apart are read back one after the other. -/
theorem Spelled.lexed {ts : List Token} {text : List Char} (h : Spelled ts text) (hts : ∀ t ∈ ts, t.isWellFormed) :
    lexed text = ts.map Token.said := by
  induction h with
  | nil => exact lexed_nil
  | last t =>
    have hread := lexed_repr_append (hts t List.mem_cons_self) apart_nil
    rwa [List.append_nil, lexed_nil] at hread
  | @cons t u ts separator text hs _ ih =>
    have ih := ih fun v hv => hts v (List.mem_cons_of_mem t hv)
    rw [lexed_repr_append (hts t List.mem_cons_self) (hs.apart text), lexed_of_filler hs.filler, ih]
    rfl

/-- A text that spells some tokens is read as these tokens, wherever reading starts to count. -/
theorem Lexer.said_run_of_spelled {ts : List Token} {text : List Char} (h : Spelled ts text)
    (hts : ∀ t ∈ ts, t.isWellFormed) (file : String) (line column : Nat) :
    (Lexer.ofText file text line column).run.1.map Token.said = ts.map Token.said := by
  rw [← h.lexed hts]
  exact Lexer.map_said_readAll _

/-- A slash before a comment, and braces in an interpolation. -/
theorem Lexer.said_run_of_spelled_slash :
    let ts : List Token := [⟨.unknown, "/", {}⟩, ⟨.interpolation, "\x7b\"\x7d", {}⟩, ⟨.string, "\"\\\n", {}⟩,
      ⟨.integer, "0x10000000000000000", {}⟩]
    let text := "/ /**//***/$\x7b\x7b\"\x7d\x7d\t\"\\\"\\\\\\n\" 0x10000000000000000".toList
    Spelled ts text ∧ (∀ t ∈ ts, t.isWellFormed) ∧
      (Lexer.ofText "a" text).run.1.map Token.said = ts.map Token.said := by
  intro ts text
  have hcomments : Separator (' ' :: '/' :: '*' :: ([] ++ '*' :: '/' :: '/' :: '*' :: (['*'] ++ ['*', '/']))) :=
    .mk (by decide) (.comment (by decide) (.comment (by decide) .nil))
  have htab : Separator ['\t'] := .mk (by decide) .nil
  have hspace : Separator [' '] := .mk (by decide) .nil
  have htext : text = (Token.mk .unknown "/" {}).repr.toList ++
      (' ' :: '/' :: '*' :: ([] ++ '*' :: '/' :: '/' :: '*' :: (['*'] ++ ['*', '/'])) ++
        ((Token.mk .interpolation "\x7b\"\x7d" {}).repr.toList ++ (['\t'] ++
          ((Token.mk .string "\"\\\n" {}).repr.toList ++ ([' '] ++
            (Token.mk .integer "0x10000000000000000" {}).repr.toList))))) := by decide +kernel
  have h : Spelled ts text := by
    rw [htext]
    exact .cons _ hcomments (.cons _ htab (.cons _ hspace (.last _)))
  have hts : ∀ t ∈ ts, t.isWellFormed := by decide +kernel
  exact ⟨h, hts, said_run_of_spelled h hts "a" 1 1⟩

end Assembler
