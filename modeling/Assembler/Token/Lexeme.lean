import Assembler.Text.Blank
import Assembler.Text.Digits
import Assembler.Token
/-!
# Lexemes

A source text is cut into trivia (blanks and comments) and lexemes, the texts of single tokens.
Every reader here gives the text it takes up and the rest, and the two together are what it was
given: `Trivia.text_append_rest`, `Lexeme.text_append_rest`. A lexeme is never empty:
`Lexeme.text_ne_nil`.

Reading never fails. What is malformed is read as far as it makes sense, and the lexeme says what
was wrong with it.
-/

namespace Assembler

/-- What can be wrong with text that is read all the same. -/
inductive Fault
  | unclosedComment
  | unclosedString
  | emptyHexEscape
  | unclosedCodePoint
  | hexOutOfRange (digits : String)
  | unclosedInterpolation
  | unknownCharacter (c : Char)
  deriving DecidableEq, Repr

/-! ## Characters -/

def isIdentifierStart (c : Char) : Bool :=
  ('a' ≤ c && c ≤ 'z') || ('A' ≤ c && c ≤ 'Z') || c == '_'

def isIdentifierPart (c : Char) : Bool := isIdentifierStart c || c.isDigit

/-! ## Trivia -/

/-- A run of blanks and comments: its text, what follows, and whether its last comment is left open. -/
structure Trivia where
  text : List Char
  rest : List Char
  unclosed : Bool := false
  deriving DecidableEq, Repr

namespace Trivia

/-- What is being read: blanks, a comment up to the end of its line, or a comment between marks. -/
inductive Mode
  | blank | lineComment | blockComment

/-- The trivia that begin with some text. -/
def prepend (text : List Char) (t : Trivia) : Trivia := { t with text := text ++ t.text }

def readFrom : Mode → List Char → Trivia
  | .blank, [] => ⟨[], [], false⟩
  | .blank, '/' :: '/' :: rest => (readFrom .lineComment rest).prepend ['/', '/']
  | .blank, '/' :: '*' :: rest => (readFrom .blockComment rest).prepend ['/', '*']
  | .blank, c :: rest =>
    if Text.isInlineBlank c then (readFrom .blank rest).prepend [c]
    else if c = ';' then (readFrom .lineComment rest).prepend [c]
    else ⟨[], c :: rest, false⟩
  | .lineComment, [] => ⟨[], [], false⟩
  | .lineComment, c :: rest =>
    if c = '\n' then ⟨[], c :: rest, false⟩ else (readFrom .lineComment rest).prepend [c]
  | .blockComment, [] => ⟨[], [], true⟩
  | .blockComment, '*' :: '/' :: rest => (readFrom .blank rest).prepend ['*', '/']
  | .blockComment, c :: rest => (readFrom .blockComment rest).prepend [c]

/-- The trivia at the head of a text. -/
def read (s : List Char) : Trivia := readFrom .blank s

theorem text_append_rest_from (m : Mode) (s : List Char) :
    (readFrom m s).text ++ (readFrom m s).rest = s := by
  fun_induction readFrom m s <;> simp_all [prepend]

theorem text_append_rest (s : List Char) : (read s).text ++ (read s).rest = s :=
  text_append_rest_from .blank s

theorem length_rest_le (s : List Char) : (read s).rest.length ≤ s.length := by
  have h := congrArg List.length (text_append_rest s)
  simp only [List.length_append] at h
  omega

end Trivia

/-! ## String literals -/

/-- A stretch of text read for its value: the text taken up, what follows, and the faults in it. -/
structure Stretch where
  value : List Char
  text : List Char
  rest : List Char
  faults : List Fault := []
  deriving DecidableEq, Repr

namespace Stretch

/-- Two stretches one after the other, as one. -/
def followedBy (a b : Stretch) : Stretch :=
  ⟨a.value ++ b.value, a.text ++ b.text, b.rest, a.faults ++ b.faults⟩

end Stretch

/-- The character with a code, or the replacement character if there is none. -/
def charOfCode (n : Nat) : Char := if n.isValidChar then Char.ofNat n else '\uFFFD'

/-- The largest number of 32 bits, or a number that is no larger. -/
def saturate (n : Nat) : Nat := min n (UInt32.size - 1)

/-- The code that digits in base sixteen add up to in 32 bits; a sum that outgrows these stays at the largest number. -/
def saturatedCode (digits : List Char) : Nat :=
  digits.foldl (fun n c => saturate (saturate (n * 16) + Text.digitValue c)) 0

theorem foldl_saturate (digits : List Char) (n : Nat) :
    digits.foldl (fun n c => saturate (saturate (n * 16) + Text.digitValue c)) (saturate n) =
      saturate (digits.foldl (fun n c => n * 16 + Text.digitValue c) n) := by
  induction digits generalizing n with
  | nil => rfl
  | cons c digits ih =>
    have hstep : saturate (saturate (saturate n * 16) + Text.digitValue c) = saturate (n * 16 + Text.digitValue c) := by
      simp only [saturate]
      omega
    rw [List.foldl_cons, List.foldl_cons, hstep, ih]

/-- No character has a code near the largest number of 32 bits, so nothing is lost where a sum stays there. -/
theorem charOfCode_saturatedCode (digits : List Char) :
    charOfCode (saturatedCode digits) = charOfCode (Text.numberOf 16 digits) := by
  have hsum : saturatedCode digits = saturate (Text.numberOf 16 digits) := foldl_saturate digits 0
  rw [hsum]
  by_cases hsmall : Text.numberOf 16 digits < UInt32.size
  · have hsame : saturate (Text.numberOf 16 digits) = Text.numberOf 16 digits := Nat.min_eq_left (Nat.le_pred_of_lt hsmall)
    rw [hsame]
  · have hlargest : saturate (Text.numberOf 16 digits) = UInt32.size - 1 :=
      Nat.min_eq_right (Nat.le_trans (Nat.sub_le ..) (Nat.le_of_not_lt hsmall))
    have hinvalid : ¬ (Text.numberOf 16 digits).isValidChar := fun hvalid => by
      have hbound : UInt32.size = 4294967296 := rfl
      simp only [Nat.isValidChar] at hvalid
      omega
    rw [hlargest, charOfCode, charOfCode, if_neg hinvalid]
    rfl

/-- What an escaped character stands for; most stand for themselves. -/
def simpleEscape (c : Char) : Char :=
  if c = 'n' then '\n' else if c = 'r' then '\r' else if c = 't' then '\t'
  else if c = '0' then '\x00' else c

/-- An escape, after its backslash. -/
def readEscape : List Char → Stretch
  | [] => ⟨[], [], [], []⟩
  | 'x' :: rest =>
    let digits := (rest.take 2).takeWhile Text.isHexDigit
    if digits = [] then ⟨['x'], ['x'], rest, [.emptyHexEscape]⟩
    else ⟨[charOfCode (Text.numberOf 16 digits)], 'x' :: digits, rest.drop digits.length, []⟩
  | 'u' :: '\x7b' :: rest =>
    let digits := rest.takeWhile Text.isHexDigit
    let value := [charOfCode (saturatedCode digits)]
    match rest.dropWhile Text.isHexDigit with
    | '\x7d' :: after => ⟨value, 'u' :: '\x7b' :: digits ++ ['\x7d'], after, []⟩
    | after => ⟨value, 'u' :: '\x7b' :: digits, after, [.unclosedCodePoint]⟩
  | c :: rest => ⟨[simpleEscape c], [c], rest, []⟩

theorem readEscape_text_append_rest (s : List Char) :
    (readEscape s).text ++ (readEscape s).rest = s := by
  unfold readEscape
  split
  · rfl
  · rename_i rest
    dsimp only
    split
    · rfl
    · have h : (rest.take 2).takeWhile Text.isHexDigit <+: rest :=
        (List.takeWhile_prefix _).trans (List.take_prefix _ _)
      simpa using List.prefix_iff_eq_append.1 h
  · rename_i rest
    have h := List.takeWhile_append_dropWhile (p := Text.isHexDigit) (l := rest)
    dsimp only
    split <;> simp_all
  · rfl

theorem length_readEscape_rest_le (s : List Char) : (readEscape s).rest.length ≤ s.length := by
  have h := congrArg List.length (readEscape_text_append_rest s)
  simp only [List.length_append] at h
  omega

/-- A string literal after its opening quote, through its closing quote if there is one. -/
def readString (quote : Char) : List Char → Stretch
  | [] => ⟨[], [], [], [.unclosedString]⟩
  | c :: rest =>
    if c = quote then ⟨[], [c], rest, []⟩
    else if c = '\\' then
      let e := readEscape rest
      (Stretch.mk e.value (c :: e.text) e.rest e.faults).followedBy (readString quote e.rest)
    else if c = '\n' then ⟨[], [], c :: rest, [.unclosedString]⟩
    else (Stretch.mk [c] [c] rest []).followedBy (readString quote rest)
termination_by s => s.length
decreasing_by
  · have := length_readEscape_rest_le rest
    simp; omega
  · simp

theorem readString_text_append_rest (quote : Char) (s : List Char) :
    (readString quote s).text ++ (readString quote s).rest = s := by
  fun_induction readString quote s with
  | case1 => rfl
  | case2 => rfl
  | case3 rest _ e ih =>
    simp only [Stretch.followedBy, List.append_assoc, ih, List.cons_append]
    rw [readEscape_text_append_rest]
  | case4 => rfl
  | case5 => simp_all [Stretch.followedBy]

/-! ## Interpolations -/

/-- What stands between braces, after the opening one, through the closing brace that pairs with it. -/
def readBraced (depth : Nat) : List Char → Stretch
  | [] => ⟨[], [], [], [.unclosedInterpolation]⟩
  | c :: rest =>
    if c = '\x7b' then (Stretch.mk [c] [c] rest []).followedBy (readBraced (depth + 1) rest)
    else if c = '\x7d' then
      match depth with
      | 0 => ⟨[], [c], rest, []⟩
      | depth + 1 => (Stretch.mk [c] [c] rest []).followedBy (readBraced depth rest)
    else (Stretch.mk [c] [c] rest []).followedBy (readBraced depth rest)

theorem readBraced_text_append_rest (depth : Nat) (s : List Char) :
    (readBraced depth s).text ++ (readBraced depth s).rest = s := by
  fun_induction readBraced depth s <;> simp_all [Stretch.followedBy]

/-! ## Lexemes -/

/-- The text of one token, with the token's kind and value. -/
structure Lexeme where
  kind : Token.Kind
  value : List Char
  text : List Char
  rest : List Char
  faults : List Fault := []
  deriving DecidableEq, Repr

namespace Lexeme

/-- A lexeme that is one character. -/
def single (kind : Token.Kind) (c : Char) (rest : List Char) (faults : List Fault := []) : Lexeme :=
  ⟨kind, [c], [c], rest, faults⟩

/-- A name, or a label if a colon comes right after it. -/
def readName (s : List Char) : Lexeme :=
  let name := s.takeWhile isIdentifierPart
  match s.dropWhile isIdentifierPart with
  | ':' :: rest => ⟨.label, name, name ++ [':'], rest, []⟩
  | rest => ⟨.identifier, name, name, rest, []⟩

/-- The value of digits in base sixteen as a 64-bit integer in two's complement, in base ten. -/
def hexValue (digits : List Char) : List Char × List Fault :=
  let n := Text.numberOf 16 digits
  if n < UInt64.size then ((Text.signed (Int64.ofNat n).toInt).toList, [])
  else ('0' :: 'x' :: digits, [.hexOutOfRange (String.ofList digits)])

/-- An integer: `0x` or `0X` and digits in base sixteen, or digits in base ten. -/
def readNumber (s : List Char) : Lexeme :=
  match s with
  | '0' :: x :: d :: rest =>
    if (x = 'x' ∨ x = 'X') ∧ Text.isHexDigit d then
      let digits := (d :: rest).takeWhile Text.isHexDigit
      let (value, faults) := hexValue digits
      ⟨.integer, value, '0' :: x :: digits, (d :: rest).dropWhile Text.isHexDigit, faults⟩
    else decimal s
  | _ => decimal s
where
  decimal (s : List Char) : Lexeme :=
    let digits := s.takeWhile Char.isDigit
    ⟨.integer, digits, digits, s.dropWhile Char.isDigit, []⟩

/-- A dot and a name; without the name, the dot means nothing. -/
def readDirective (dot : Char) (rest : List Char) : Lexeme :=
  match rest with
  | c :: _ =>
    if isIdentifierStart c then
      let name := rest.takeWhile isIdentifierPart
      ⟨.directive, name, dot :: name, rest.dropWhile isIdentifierPart, []⟩
    else single .unknown dot rest
  | [] => single .unknown dot rest

/-- A mark and the index it marks; without digits, the mark means nothing. -/
def readSlot (kind : Token.Kind) (mark : Char) (rest : List Char) : Lexeme :=
  match rest with
  | c :: _ =>
    if c.isDigit then
      let index := rest.takeWhile Char.isDigit
      ⟨kind, index, mark :: index, rest.dropWhile Char.isDigit, []⟩
    else single .unknown mark rest
  | [] => single .unknown mark rest

/-- What a dollar sign begins: an interpolation or a register. -/
def readDollar (dollar : Char) (rest : List Char) : Lexeme :=
  match rest with
  | '\x7b' :: body =>
    let b := readBraced 0 body
    ⟨.interpolation, b.value, dollar :: '\x7b' :: b.text, b.rest, b.faults⟩
  | _ => readSlot .register dollar rest

/-- A quoted string. -/
def readQuoted (quote : Char) (rest : List Char) : Lexeme :=
  let b := readString quote rest
  ⟨.string, b.value, quote :: b.text, b.rest, b.faults⟩

/-- The lexeme that begins with a character which begins no trivia. -/
def read (c : Char) (rest : List Char) : Lexeme :=
  if c = '\n' then single .newline c rest
  else if c = '"' ∨ c = '\'' then readQuoted c rest
  else if c.isDigit then readNumber (c :: rest)
  else if c = '.' then readDirective c rest
  else if c = '$' then readDollar c rest
  else if c = '%' then readSlot .localSlot c rest
  else if isIdentifierStart c then readName (c :: rest)
  else match Token.Kind.ofPunctuation? c with
    | some kind => single kind c rest
    | none => single .unknown c rest [.unknownCharacter c]

/-! ## A lexeme and its rest are the text read -/

theorem readName_text_append_rest (s : List Char) :
    (readName s).text ++ (readName s).rest = s := by
  have h := List.takeWhile_append_dropWhile (p := isIdentifierPart) (l := s)
  unfold readName
  dsimp only
  split <;> simp_all

theorem readNumber_text_append_rest (s : List Char) :
    (readNumber s).text ++ (readNumber s).rest = s := by
  have h (s : List Char) : (readNumber.decimal s).text ++ (readNumber.decimal s).rest = s :=
    List.takeWhile_append_dropWhile
  unfold readNumber
  split
  · split
    · simp
    · exact h _
  · exact h _

theorem readDirective_text_append_rest (dot : Char) (rest : List Char) :
    (readDirective dot rest).text ++ (readDirective dot rest).rest = dot :: rest := by
  unfold readDirective
  split
  · split <;> simp [single]
  · rfl

theorem readSlot_text_append_rest (kind : Token.Kind) (mark : Char) (rest : List Char) :
    (readSlot kind mark rest).text ++ (readSlot kind mark rest).rest = mark :: rest := by
  unfold readSlot
  split
  · split <;> simp [single]
  · rfl

theorem readDollar_text_append_rest (dollar : Char) (rest : List Char) :
    (readDollar dollar rest).text ++ (readDollar dollar rest).rest = dollar :: rest := by
  unfold readDollar
  split
  · simp [readBraced_text_append_rest]
  · exact readSlot_text_append_rest ..

theorem text_append_rest (c : Char) (rest : List Char) :
    (read c rest).text ++ (read c rest).rest = c :: rest := by
  unfold read
  split
  · rfl
  split
  · simp [readQuoted, readString_text_append_rest]
  split
  · exact readNumber_text_append_rest _
  split
  · exact readDirective_text_append_rest ..
  split
  · exact readDollar_text_append_rest ..
  split
  · exact readSlot_text_append_rest ..
  split
  · exact readName_text_append_rest _
  split <;> rfl

/-! ## A lexeme has at least the character it begins with -/

theorem readName_text_ne_nil {c : Char} (rest : List Char) (h : isIdentifierPart c) :
    (readName (c :: rest)).text ≠ [] := by
  unfold readName
  dsimp only
  split <;> simp [h]

theorem readNumber_text_ne_nil {c : Char} (rest : List Char) (h : c.isDigit) :
    (readNumber (c :: rest)).text ≠ [] := by
  unfold readNumber
  split
  · split <;> simp_all [readNumber.decimal]
  · simp [readNumber.decimal, h]

theorem readDirective_text_ne_nil (dot : Char) (rest : List Char) :
    (readDirective dot rest).text ≠ [] := by
  unfold readDirective
  split
  · split <;> simp [single]
  · simp [single]

theorem readSlot_text_ne_nil (kind : Token.Kind) (mark : Char) (rest : List Char) :
    (readSlot kind mark rest).text ≠ [] := by
  unfold readSlot
  split
  · split <;> simp [single]
  · simp [single]

theorem readDollar_text_ne_nil (dollar : Char) (rest : List Char) :
    (readDollar dollar rest).text ≠ [] := by
  unfold readDollar
  split
  · simp
  · exact readSlot_text_ne_nil _ _ _

theorem text_ne_nil (c : Char) (rest : List Char) : (read c rest).text ≠ [] := by
  unfold read
  split
  · simp [single]
  split
  · simp [readQuoted]
  split
  · exact readNumber_text_ne_nil rest ‹_›
  split
  · exact readDirective_text_ne_nil _ _
  split
  · exact readDollar_text_ne_nil _ _
  split
  · exact readSlot_text_ne_nil _ _ _
  split
  · exact readName_text_ne_nil rest (by simp_all [isIdentifierPart])
  split <;> simp [single]

theorem length_rest_le (c : Char) (rest : List Char) : (read c rest).rest.length ≤ rest.length := by
  have h := congrArg List.length (text_append_rest c rest)
  have := List.length_pos_iff.2 (text_ne_nil c rest)
  simp only [List.length_append, List.length_cons] at h
  omega

end Lexeme

end Assembler
