import Assembler.Proofs.Interpolations
import Assembler.Proofs.Printed
/-!
# What string literals denote

A string literal is written as pieces (`Piece`), and each of them denotes a text of its own, at most one
character (`Piece.Denotes`). Which piece comes next depends on what comes after it: the digits of a code are
as many as there are (`Piece.Stands`). The value of a literal is what its pieces denote, from left to right,
and it ends at the quote that closes it, before a line feed, or with the text (`Lexer.strings_denote`).
-/

namespace Assembler

/-! ## Pieces -/

/-- What a string literal is made of: a character that no backslash escapes, one that a backslash escapes, a code of at
most two digits, a code between braces of which the second may be missing, and a backslash with nothing after it. -/
inductive Piece
  | plain (c : Char)
  | escaped (c : Char)
  | code (digits : List Char)
  | point (digits : List Char) (closed : Bool)
  | backslash
  deriving DecidableEq, Repr

namespace Piece

/-- A piece as it is written. -/
def text : Piece → List Char
  | plain c => [c]
  | escaped c => ['\\', c]
  | code digits => '\\' :: 'x' :: digits
  | point digits closed => '\\' :: 'u' :: '\x7b' :: (digits ++ if closed then ['\x7d'] else [])
  | backslash => ['\\']

/-- What stands before a text is a piece, and does not go on in it. -/
inductive Stands (quote : Char) : Piece → List Char → Prop
  | plain {c : Char} (hc : c ∉ [quote, '\\', '\n']) (rest : List Char) : Stands quote (plain c) rest
  | escaped {c : Char} {rest : List Char} (hx : c = 'x' → Stops Text.isHexDigit rest) (hu : c = 'u' → Stops (· == '\x7b') rest) :
      Stands quote (escaped c) rest
  | code {digits rest : List Char} (hne : digits ≠ []) (hdigits : ∀ d ∈ digits, Text.isHexDigit d)
      (hrest : digits.length = 2 ∨ digits.length = 1 ∧ Stops Text.isHexDigit rest) : Stands quote (code digits) rest
  | closedPoint {digits : List Char} (hdigits : ∀ d ∈ digits, Text.isHexDigit d) (rest : List Char) :
      Stands quote (point digits true) rest
  | openPoint {digits rest : List Char} (hdigits : ∀ d ∈ digits, Text.isHexDigit d) (hrest : Stops Text.isHexDigit rest)
      (hclosing : Stops (· == '\x7d') rest) : Stands quote (point digits false) rest
  | backslash : Stands quote backslash []

/-- What a piece denotes. The number of a code is exact, however many digits it has. -/
inductive Denotes : Piece → List Char → Prop
  | plain (c : Char) : Denotes (plain c) [c]
  | lineFeed : Denotes (escaped 'n') ['\n']
  | carriageReturn : Denotes (escaped 'r') ['\r']
  | tab : Denotes (escaped 't') ['\t']
  | null : Denotes (escaped '0') ['\x00']
  | itself {c : Char} (hc : c ∉ ['n', 'r', 't', '0']) : Denotes (escaped c) [c]
  | code {digits : List Char} {c : Char} (hc : c.toNat = Text.positional 16 digits) : Denotes (code digits) [c]
  | point {digits : List Char} {closed : Bool} {c : Char} (hc : c.toNat = Text.positional 16 digits) :
      Denotes (point digits closed) [c]
  | replaced {digits : List Char} {closed : Bool} (hnone : ∀ c : Char, c.toNat ≠ Text.positional 16 digits) :
      Denotes (point digits closed) ['\uFFFD']
  | backslash : Denotes backslash []

end Piece

/-! ## Escapes are read for what they denote -/

section Runs
variable {p : Char → Bool} {run rest : List Char} (hrun : ∀ c ∈ run, p c) (hrest : Stops p rest)
include hrun hrest

theorem Stops.takeWhile_append : (run ++ rest).takeWhile p = run := by
  rw [List.takeWhile_append_of_pos hrun]
  cases rest with
  | nil => simp
  | cons c rest => simp [hrest c rfl]

theorem Stops.dropWhile_append : (run ++ rest).dropWhile p = rest := by
  rw [List.dropWhile_append_of_pos hrun]
  cases rest with
  | nil => rfl
  | cons c rest => simp [hrest c rfl]

end Runs

/-- A text begins with as long a run as there is. -/
theorem exists_run (p : Char → Bool) (s : List Char) : ∃ run rest, s = run ++ rest ∧ (∀ c ∈ run, p c) ∧ Stops p rest :=
  ⟨_, _, List.takeWhile_append_dropWhile.symm, fun _ hc => List.mem_takeWhile_imp hc, stops_dropWhile p s⟩

theorem exists_of_not_stops {c : Char} {s : List Char} (h : ¬ Stops (· == c) s) : ∃ rest, s = c :: rest := by
  simp only [Stops, not_forall] at h
  obtain ⟨d, hd, hc⟩ := h
  obtain rfl : d = c := by simpa using hc
  exact List.head?_eq_some_iff.1 hd

theorem toNat_charOfNat {n : Nat} (h : n.isValidChar) : (Char.ofNat n).toNat = n := by
  rw [Char.ofNat, dif_pos h]
  rfl

theorem charOfCode_positional {digits : List Char} {c : Char} (hc : c.toNat = Text.positional 16 digits) :
    charOfCode (Text.numberOf 16 digits) = c := by
  rw [Text.numberOf_eq_positional, ← hc, charOfCode_toNat]

/-- The code of no character is read as the replacement character. -/
theorem charOfCode_of_forall_ne {digits : List Char} (hnone : ∀ c : Char, c.toNat ≠ Text.positional 16 digits) :
    charOfCode (Text.numberOf 16 digits) = '\uFFFD' := by
  rw [Text.numberOf_eq_positional, charOfCode, if_neg]
  intro hvalid
  exact hnone _ (toNat_charOfNat hvalid)

theorem readEscape_escaped {c : Char} {rest : List Char} (hx : c = 'x' → Stops Text.isHexDigit rest)
    (hu : c = 'u' → Stops (· == '\x7b') rest) : ∃ faults, readEscape (c :: rest) = ⟨[simpleEscape c], [c], rest, faults⟩ := by
  unfold readEscape
  split
  · rename_i h
    cases h
  · rename_i rest h
    cases h
    have hnone : (rest.take 2).takeWhile Text.isHexDigit = [] := by
      cases rest with
      | nil => rfl
      | cons d rest => simp [hx rfl d rfl]
    dsimp only
    rw [if_pos hnone]
    exact ⟨_, rfl⟩
  · rename_i rest h
    cases h
    cases hu rfl '\x7b' rfl
  · rename_i h
    cases h
    exact ⟨[], rfl⟩

/-- A code has two digits, or one if no other comes next. -/
theorem readEscape_digits {digits rest : List Char} (hne : digits ≠ []) (hdigits : ∀ d ∈ digits, Text.isHexDigit d)
    (hrest : digits.length = 2 ∨ digits.length = 1 ∧ Stops Text.isHexDigit rest) :
    readEscape ('x' :: (digits ++ rest)) = ⟨[charOfCode (Text.numberOf 16 digits)], 'x' :: digits, rest, []⟩ := by
  have hrun : ((digits ++ rest).take 2).takeWhile Text.isHexDigit = digits := by
    rcases hrest with hlength | ⟨hlength, hrest⟩
    · rw [List.take_left' hlength]
      exact List.takeWhile_eq_self_iff.2 hdigits
    · obtain ⟨d, rfl⟩ := List.length_eq_one_iff.1 hlength
      have hstops : Stops Text.isHexDigit (rest.take 1) := by
        intro c hc
        exact hrest c (by simpa [List.head?_take] using hc)
      exact hstops.takeWhile_append hdigits
  simp only [readEscape]
  rw [hrun, if_neg hne, List.drop_left]

theorem readEscape_closedPoint {digits : List Char} (hdigits : ∀ d ∈ digits, Text.isHexDigit d) (rest : List Char) :
    readEscape ('u' :: '\x7b' :: (digits ++ '\x7d' :: rest)) =
      ⟨[charOfCode (Text.numberOf 16 digits)], 'u' :: '\x7b' :: (digits ++ ['\x7d']), rest, []⟩ := by
  have hstops : Stops Text.isHexDigit ('\x7d' :: rest) := by
    intro c hc
    cases hc
    decide
  simp only [readEscape]
  rw [hstops.takeWhile_append hdigits, hstops.dropWhile_append hdigits, charOfCode_saturatedCode]
  rfl

theorem readEscape_openPoint {digits rest : List Char} (hdigits : ∀ d ∈ digits, Text.isHexDigit d)
    (hrest : Stops Text.isHexDigit rest) (hclosing : Stops (· == '\x7d') rest) :
    readEscape ('u' :: '\x7b' :: (digits ++ rest)) =
      ⟨[charOfCode (Text.numberOf 16 digits)], 'u' :: '\x7b' :: digits, rest, [.unclosedCodePoint]⟩ := by
  simp only [readEscape]
  rw [hrest.takeWhile_append hdigits, hrest.dropWhile_append hdigits, charOfCode_saturatedCode]
  split
  · cases hclosing '\x7d' rfl
  · rfl

/-! ## Texts begin with pieces -/

namespace Piece

variable {quote : Char} {p : Piece} {rest value : List Char}

theorem Denotes.eq_simpleEscape {c : Char} (h : Denotes (escaped c) value) : value = [simpleEscape c] := by
  cases h with
  | lineFeed | carriageReturn | tab | null => rfl
  | itself hc =>
    simp only [List.mem_cons, List.not_mem_nil, or_false, not_or] at hc
    simp [simpleEscape, hc]

theorem Denotes.eq_of_code {digits : List Char} (h : Denotes (.code digits) value) :
    value = [charOfCode (Text.numberOf 16 digits)] := by
  cases h with
  | code hc => rw [charOfCode_positional hc]

theorem Denotes.eq_of_point {digits : List Char} {closed : Bool} (h : Denotes (.point digits closed) value) :
    value = [charOfCode (Text.numberOf 16 digits)] := by
  cases h with
  | point hc => rw [charOfCode_positional hc]
  | replaced hnone => rw [charOfCode_of_forall_ne hnone]

theorem exists_denotes_escaped (c : Char) : ∃ value, Denotes (escaped c) value := by
  by_cases hc : c ∈ ['n', 'r', 't', '0']
  · fin_cases hc
    exacts [⟨_, .lineFeed⟩, ⟨_, .carriageReturn⟩, ⟨_, .tab⟩, ⟨_, .null⟩]
  · exact ⟨_, .itself hc⟩

/-- There is a character for every code of two digits. -/
theorem exists_denotes_code (digits : List Char) (h : digits.length ≤ 2) : ∃ value, Denotes (code digits) value := by
  have hlt : Text.positional 16 digits < 16 ^ 2 :=
    (Text.positional_lt digits).trans_le (Nat.pow_le_pow_right (by omega) h)
  have hvalid : (Text.positional 16 digits).isValidChar := .inl (by omega)
  exact ⟨_, .code (toNat_charOfNat hvalid)⟩

theorem exists_denotes_point (digits : List Char) (closed : Bool) : ∃ value, Denotes (point digits closed) value := by
  by_cases hvalid : (Text.positional 16 digits).isValidChar
  · exact ⟨_, .point (toNat_charOfNat hvalid)⟩
  · refine ⟨_, .replaced ?_⟩
    intro c hc
    rw [← hc] at hvalid
    exact hvalid c.valid

/-- After a backslash and an `x` come the digits of a code, as many as there are of two at most. -/
theorem exists_stands_code (quote : Char) (s : List Char) :
    ∃ p value rest, '\\' :: 'x' :: s = text p ++ rest ∧ Stands quote p rest ∧ Denotes p value := by
  obtain ⟨run, rest, rfl, hrun, hstops⟩ := exists_run Text.isHexDigit s
  match run, hrun with
  | [], _ => exact ⟨escaped 'x', ['x'], rest, rfl, .escaped (fun _ => hstops) (fun hc => by cases hc), .itself (by simp)⟩
  | [d], hrun =>
    obtain ⟨value, hvalue⟩ := exists_denotes_code [d] (by simp)
    exact ⟨code [d], value, rest, rfl, .code (by simp) hrun (.inr ⟨rfl, hstops⟩), hvalue⟩
  | d :: e :: more, hrun =>
    obtain ⟨value, hvalue⟩ := exists_denotes_code [d, e] (by simp)
    have hpair : ∀ a ∈ [d, e], Text.isHexDigit a := fun a ha => hrun a (List.mem_append_left more ha)
    exact ⟨code [d, e], value, more ++ rest, rfl, .code (by simp) hpair (.inl rfl), hvalue⟩

theorem exists_stands_point (quote : Char) (s : List Char) :
    ∃ p value rest, '\\' :: 'u' :: '\x7b' :: s = text p ++ rest ∧ Stands quote p rest ∧ Denotes p value := by
  obtain ⟨run, rest, rfl, hrun, hstops⟩ := exists_run Text.isHexDigit s
  by_cases hclosing : Stops (· == '\x7d') rest
  · obtain ⟨value, hvalue⟩ := exists_denotes_point run false
    exact ⟨point run false, value, rest, by simp [text], .openPoint hrun hstops hclosing, hvalue⟩
  · obtain ⟨more, rfl⟩ := exists_of_not_stops hclosing
    obtain ⟨value, hvalue⟩ := exists_denotes_point run true
    exact ⟨point run true, value, more, by simp [text], .closedPoint hrun more, hvalue⟩

/-- What comes after a backslash is a piece with it. -/
theorem exists_stands_backslash (quote : Char) (s : List Char) :
    ∃ p value rest, '\\' :: s = text p ++ rest ∧ Stands quote p rest ∧ Denotes p value := by
  cases s with
  | nil => exact ⟨backslash, [], [], rfl, .backslash, .backslash⟩
  | cons c s =>
    by_cases hx : c = 'x'
    · subst hx
      exact exists_stands_code quote s
    by_cases hu : c = 'u' → Stops (· == '\x7b') s
    · obtain ⟨value, hvalue⟩ := exists_denotes_escaped c
      exact ⟨escaped c, value, s, rfl, .escaped (fun hc => absurd hc hx) hu, hvalue⟩
    · obtain ⟨rfl, hbrace⟩ := Classical.not_imp.1 hu
      obtain ⟨more, rfl⟩ := exists_of_not_stops hbrace
      exact exists_stands_point quote more

/-- A text that goes on before the quote and the end of the line begins with a piece. -/
theorem exists_stands {c : Char} (hc : c ≠ quote) (hnewline : c ≠ '\n') (s : List Char) :
    ∃ p value rest, c :: s = text p ++ rest ∧ Stands quote p rest ∧ Denotes p value := by
  by_cases hbackslash : c = '\\'
  · subst hbackslash
    exact exists_stands_backslash quote s
  · exact ⟨plain c, [c], s, rfl, .plain (by simp [hc, hbackslash, hnewline]) s, .plain c⟩

theorem text_ne_nil (p : Piece) : p.text ≠ [] := by
  cases p <;> simp [text]

theorem readString_backslash (hquote : quote ≠ '\\') {s text rest : List Char} {faults : List Fault}
    (h : readEscape s = ⟨value, text, rest, faults⟩) :
    readString quote ('\\' :: s) = (Stretch.mk value ('\\' :: text) rest faults).followedBy (readString quote rest) := by
  rw [readString, if_neg hquote.symm, if_pos rfl]
  simp only [h]

/-- A piece is read for what it denotes, and reading goes on after it. -/
theorem Stands.exists_readString_eq (hquote : quote ≠ '\\') (hp : Stands quote p rest) (hvalue : Denotes p value) :
    ∃ faults, readString quote (p.text ++ rest) = (Stretch.mk value p.text rest faults).followedBy (readString quote rest) := by
  cases hp with
  | plain hc =>
    cases hvalue
    simp only [List.mem_cons, List.not_mem_nil, or_false, not_or] at hc
    obtain ⟨hc, hbackslash, hnewline⟩ := hc
    refine ⟨[], ?_⟩
    rw [text, List.singleton_append, readString, if_neg hc, if_neg hbackslash, if_neg hnewline]
  | escaped hx hu =>
    obtain rfl := hvalue.eq_simpleEscape
    obtain ⟨faults, hread⟩ := readEscape_escaped hx hu
    exact ⟨faults, readString_backslash hquote hread⟩
  | code hne hdigits hrest =>
    obtain rfl := hvalue.eq_of_code
    exact ⟨[], readString_backslash hquote (readEscape_digits hne hdigits hrest)⟩
  | @closedPoint digits hdigits =>
    obtain rfl := hvalue.eq_of_point
    have hread := readString_backslash hquote (readEscape_closedPoint hdigits rest)
    exact ⟨[], by simpa [text] using hread⟩
  | openPoint hdigits hrest hclosing =>
    obtain rfl := hvalue.eq_of_point
    have hread := readString_backslash hquote (readEscape_openPoint hdigits hrest hclosing)
    exact ⟨[.unclosedCodePoint], by simpa [text] using hread⟩
  | backslash =>
    cases hvalue
    exact ⟨[], readString_backslash hquote rfl⟩

end Piece

/-! ## Literals -/

/-- What comes after a string literal's opening quote, and what comes after that. The text is pieces, each of them as
long as what comes after it has it, up to the quote that closes the literal, to a line feed, or to the end. -/
inductive IsLiteral (quote : Char) : List Piece → List Char → List Char → Prop
  | closed (rest : List Char) : IsLiteral quote [] [quote] rest
  | newline (rest : List Char) : IsLiteral quote [] [] ('\n' :: rest)
  | atEnd : IsLiteral quote [] [] []
  | piece {p : Piece} {ps : List Piece} {text rest : List Char} (hp : p.Stands quote (text ++ rest))
      (htext : IsLiteral quote ps text rest) : IsLiteral quote (p :: ps) (p.text ++ text) rest

variable {quote : Char}

/-- A literal is read for what its pieces denote, and to its end. -/
theorem IsLiteral.readString_eq (hquote : quote ∈ ['"', '\'']) {ps : List Piece} {text rest : List Char}
    (h : IsLiteral quote ps text rest) {parts : List (List Char)} (hparts : List.Forall₂ Piece.Denotes ps parts) :
    ∃ faults, readString quote (text ++ rest) = ⟨parts.flatten, text, rest, faults⟩ := by
  have hends : quote ≠ '\\' ∧ quote ≠ '\n' := by
    constructor <;> (rintro rfl; revert hquote; decide)
  -- The first piece is read by itself, since what comes after it has it end there.
  induction h generalizing parts with
  | closed rest =>
    cases hparts
    exact ⟨[], by rw [List.singleton_append, readString, if_pos rfl]; rfl⟩
  | newline rest =>
    cases hparts
    refine ⟨[.unclosedString], ?_⟩
    rw [List.nil_append, readString, if_neg hends.2.symm, if_neg (by decide), if_pos rfl]
    rfl
  | atEnd =>
    cases hparts
    exact ⟨[.unclosedString], by rw [List.nil_append, readString]; rfl⟩
  | piece hp htext ih =>
    obtain ⟨value, parts, hvalue, hlater, rfl⟩ := List.forall₂_cons_left_iff.1 hparts
    obtain ⟨faults, hread⟩ := hp.exists_readString_eq hends.1 hvalue
    obtain ⟨more, hmore⟩ := ih hlater
    refine ⟨faults ++ more, ?_⟩
    rw [List.append_assoc, hread, hmore]
    rfl

/-- Whatever comes after a quote is a literal and a rest. -/
theorem exists_isLiteral (quote : Char) (s : List Char) : ∃ ps parts text rest,
    s = text ++ rest ∧ IsLiteral quote ps text rest ∧ List.Forall₂ Piece.Denotes ps parts := by
  -- A piece may be any number of characters, so the induction is on how many there are.
  induction hn : s.length using Nat.strongRecOn generalizing s with
  | ind n ih =>
    cases s with
    | nil => exact ⟨[], [], [], [], rfl, .atEnd, .nil⟩
    | cons c s =>
      by_cases hc : c = quote
      · subst hc
        exact ⟨[], [], [c], s, rfl, .closed s, .nil⟩
      by_cases hnewline : c = '\n'
      · subst hnewline
        exact ⟨[], [], [], '\n' :: s, rfl, .newline s, .nil⟩
      obtain ⟨p, value, after, hsplit, hp, hvalue⟩ := Piece.exists_stands hc hnewline s
      have hshorter : after.length < n := by
        have hpos := List.length_pos_iff.2 p.text_ne_nil
        rw [← hn, hsplit, List.length_append]
        omega
      obtain ⟨ps, parts, text, rest, rfl, htext, hparts⟩ := ih _ hshorter after rfl
      exact ⟨p :: ps, value :: parts, p.text ++ text, rest, by rw [hsplit, List.append_assoc], .piece hp htext, .cons hvalue hparts⟩

theorem Lexeme.quote_of_string {c : Char} {rest : List Char} (hkind : (read c rest).kind = .string)
    (h : IsLexeme (read c rest).kind (read c rest).text (read c rest).rest) : c ∈ ['"', '\''] := by
  have htext := text_append_rest c rest
  rw [hkind] at h
  generalize (read c rest).text = text at h htext
  generalize (read c rest).rest = after at h htext
  cases h with
  | string hquote =>
    obtain ⟨rfl, -⟩ := List.cons.inj htext
    exact hquote
  | punctuation hc =>
    have hmem := Token.Kind.mem_of_ofPunctuation? hc
    fin_cases hmem <;> cases hc

theorem Lexeme.read_quote {quote : Char} (hquote : quote ∈ ['"', '\'']) (rest : List Char) :
    read quote rest = readQuoted quote rest := by
  fin_cases hquote <;> rfl

namespace Lexer

/-- A token that a lexer finds is written as a quote after some text, pieces, and what ends them, and the tokens after it
are read of what comes after that. -/
structure Quotes (l : Lexer) (t : Token) (before : List Char) (quote : Char) (ps : List Piece) (text rest : List Char) : Prop where
  text_eq : l.rest = before ++ quote :: (text ++ rest)
  location : t.location = .ofPosition l.file (l.position.after before)
  quote_mem : quote ∈ ['"', '\'']
  literal : IsLiteral quote ps text rest
  goes_on : ∃ earlier, ∃ l' : Lexer, l'.rest = rest ∧ l.readAll.1 = earlier ++ t :: l'.readAll.1

/-- The value of a string literal is what its pieces denote, from left to right. However the text after its quote is taken
for a literal, it has this value and this end. -/
theorem strings_denote {l : Lexer} {t : Token} (ht : t ∈ l.readAll.1) (hkind : t.kind = .string) :
    ∃ before quote ps parts text rest, l.Quotes t before quote ps text rest ∧
      List.Forall₂ Piece.Denotes ps parts ∧ t.value.toList = parts.flatten ∧
      ∀ ps' parts' text' rest', text' ++ rest' = text ++ rest → IsLiteral quote ps' text' rest' →
        List.Forall₂ Piece.Denotes ps' parts' → parts'.flatten = parts.flatten ∧ text' = text ∧ rest' = rest := by
  obtain ⟨before, quote, after, earlier, l', htext, rfl, hlexeme, hafter, htokens⟩ := exists_read_at_of_mem ht
  have hquote := Lexeme.quote_of_string hkind hlexeme
  obtain ⟨ps, parts, text, rest, rfl, hliteral, hparts⟩ := exists_isLiteral quote after
  obtain ⟨faults, hread⟩ := hliteral.readString_eq hquote hparts
  have hquoted : Lexeme.read quote (text ++ rest) = ⟨.string, parts.flatten, quote :: text, rest, faults⟩ := by
    rw [Lexeme.read_quote hquote, Lexeme.readQuoted, hread]
  rw [hquoted] at hafter
  refine ⟨before, quote, ps, parts, text, rest, ⟨htext, rfl, hquote, hliteral, earlier, l', hafter, htokens⟩, hparts, ?_, ?_⟩
  · rw [hquoted, String.toList_ofList]
  · intro ps' parts' text' rest' hsame hliteral' hparts'
    obtain ⟨faults', hread'⟩ := hliteral'.readString_eq hquote hparts'
    rw [hsame, hread] at hread'
    obtain ⟨hvalue, htext, hrest, -⟩ := Stretch.mk.inj hread'
    exact ⟨hvalue.symm, htext.symm, hrest.symm⟩

/-- Codes with and without a closing brace, a code that no character has, a line feed that is escaped and one that is not. -/
theorem strings_denote_of_codes :
    let l := Lexer.ofSource (.ofChars "a" ".d 'A\\x424\\u\x7b000000043\x7d\\u\x7b100000041\\\n\\q\n' '".toList)
    ∃ t ∈ l.readAll.1, t.kind = .string ∧ t.value = "AB4C\uFFFD\nq" ∧
      ∃ before quote ps parts text rest, l.Quotes t before quote ps text rest ∧
        List.Forall₂ Piece.Denotes ps parts ∧ t.value.toList = parts.flatten := by
  intro l
  have hread : ∃ t ∈ l.readAll.1, t.kind = .string ∧ t.value = "AB4C\uFFFD\nq" := by decide +kernel
  obtain ⟨t, ht, hkind, hvalue⟩ := hread
  obtain ⟨before, quote, ps, parts, text, rest, hquotes, hparts, hflatten, -⟩ := strings_denote ht hkind
  exact ⟨t, ht, hkind, hvalue, before, quote, ps, parts, text, rest, hquotes, hparts, hflatten⟩

end Lexer

end Assembler
