import Assembler.Text.Digits
/-!
# Reading JSON

Readers of JSON text that know which value they want, and take the text from left to right: the
first fault they come upon decides. A fault is one of the text itself, an early end of the text, or
a sound value that is not the one wanted.

Loops over a text are given as many rounds as it has characters; each round takes one at least.
-/

namespace Assembler.Json

inductive Fault
  | syntaxError | earlyEnd | wrongData
  deriving DecidableEq, Repr, Inhabited

namespace Fault

def name : Fault → String
  | syntaxError => "syntax"
  | earlyEnd => "eof"
  | wrongData => "data"

end Fault

abbrev Reader (α : Type) := StateT (List Char) (Except Fault) α

namespace Reader

/-! ## Characters -/

def isBlank (c : Char) : Bool := c = ' ' || c = '\n' || c = '\t' || c = '\r'

def peek? : Reader (Option Char) := return (← get).head?

/-- The next character; the text must not end here. -/
def peek : Reader Char := do
  match ← peek? with
  | some c => return c
  | none => throw .earlyEnd

def drop (n : Nat) : Reader Unit := modify (List.drop n)

/-- Takes the next character. -/
def next : Reader Char := do
  let c ← peek
  drop 1
  return c

/-- The next character that is not blank. -/
def peekToken : Reader Char := do
  modify (List.dropWhile isBlank)
  peek

/-- Takes the next character that is not blank if it is the one given. -/
def accept (c : Char) : Reader Bool := do
  if (← peekToken) = c then
    drop 1
    return true
  else return false

/-- Takes the next character that is not blank; it must be the one given. -/
def expect (c : Char) : Reader Unit := do
  if !(← accept c) then throw .syntaxError

/-- Takes the characters of a word. -/
def word (w : String) : Reader Unit :=
  w.toList.forM fun c => do
    if (← next) ≠ c then throw .syntaxError

def digits : Reader (List Char) := do
  let ds := (← get).takeWhile Char.isDigit
  modify (List.dropWhile Char.isDigit)
  return ds

def isDigitNext : Reader Bool := return (← peek?).any Char.isDigit

def rounds : Reader Nat := return (← get).length + 1

/-! ## Strings -/

/-- Four digits in base sixteen. If four bytes are left they must be digits, and otherwise the text ends early. -/
def fourHexDigits : Reader Nat := do
  let ds := (← get).take 4
  if ds.length = 4 ∧ ds.all Text.isHexDigit then
    drop 4
    return Text.numberOf 16 ds
  else if (String.ofList ds).utf8ByteSize < 4 then throw .earlyEnd
  else throw .syntaxError

/-- The character that one or, beyond the basic plane, two codes stand for. -/
def codedChar : Reader Char := do
  let n ← fourHexDigits
  if 0xDC00 ≤ n ∧ n ≤ 0xDFFF then throw .syntaxError
  else if 0xD800 ≤ n ∧ n ≤ 0xDBFF then
    word "\\u"
    let low ← fourHexDigits
    if 0xDC00 ≤ low ∧ low ≤ 0xDFFF then
      return Char.ofNat (0x10000 + (n - 0xD800) * 0x400 + (low - 0xDC00))
    else throw .syntaxError
  else return Char.ofNat n

/-- The character of an escape, after its backslash, other than one given by its code. -/
def simpleEscape? (c : Char) : Option Char :=
  if c = '"' ∨ c = '\\' ∨ c = '/' then some c
  else if c = 'b' then some '\x08'
  else if c = 'f' then some '\x0c'
  else if c = 'n' then some '\n'
  else if c = 'r' then some '\r'
  else if c = 't' then some '\t'
  else none

/-- The characters through the closing quote, given how to read a character from its code. -/
def stringWith (coded : Reader Char) : (rounds : Nat) → List Char → Reader (List Char)
  | 0, _ => throw .earlyEnd
  | rounds + 1, before => do
    let c ← next
    if c = '"' then return before.reverse
    else if c = '\\' then
      let e ← next
      if e = 'u' then stringWith coded rounds ((← coded) :: before)
      else
        match simpleEscape? e with
        | some c => stringWith coded rounds (c :: before)
        | none => throw .syntaxError
    else if c.toNat < 0x20 then throw .syntaxError
    else stringWith coded rounds (c :: before)

/-- A string, after its opening quote. -/
def stringBody : Reader String := do
  return String.ofList (← stringWith codedChar (← rounds) [])

/-- Passes over a string, after its opening quote; its codes need not make characters. -/
def skipString : Reader Unit := do
  discard (stringWith (do discard fourHexDigits; return ' ') (← rounds) [])

/-! ## Numbers -/

/-- The whole number nearest to `n` that 53 binary digits and zeros can write, of two the even one. -/
def nearestDouble (n : Nat) : Nat :=
  let unit := Nat.pow 2 (Nat.log2 n - 52)
  let below := n / unit
  let rest := n % unit
  unit * if rest * 2 > unit ∨ (rest * 2 = unit ∧ below % 2 = 1) then below + 1 else below

/-- Whether a significand times a power of ten is beyond the largest number of double precision. -/
def isOutOfRange (significand : Nat) (exponent : Int) : Bool :=
  0 < significand && 0 ≤ exponent
    && (308 < exponent
      || Nat.pow 2 1024 - Nat.pow 2 970
        ≤ nearestDouble significand * nearestDouble (Nat.pow 10 exponent.toNat))

/-- Adds digits to a significand while it fits 64 bits: the significand, and how many digits were added and left. -/
def extend (significand : Nat) : List Char → Nat × Nat × Nat
  | [] => (significand, 0, 0)
  | d :: rest =>
    let larger := significand * 10 + Text.digitValue d
    if larger < UInt64.size then
      let (s, added, left) := extend larger rest
      (s, added + 1, left)
    else (significand, 0, rest.length + 1)

def inRange (significand : Nat) (exponent : Int) : Reader Unit :=
  if isOutOfRange significand exponent then throw .syntaxError else return

/-- The exponent of a number, after its letter. -/
def exponent (significand : Nat) (start : Int) : Reader Unit := do
  let c ← peek
  if c = '+' ∨ c = '-' then drop 1
  if !(← peek).isDigit then throw .syntaxError
  let n : Int := Text.numberOf 10 (← digits)
  inRange significand (if c = '-' then start - n else start + n)

/-- What may follow the digits of a number. -/
def exponentIfAny (significand : Nat) (start : Int) : Reader Unit := do
  match ← peek? with
  | some 'e' | some 'E' =>
    drop 1
    exponent significand start
  | _ => inRange significand start

/-- The places of a number, after its point. -/
def places (significand : Nat) (start : Int) : Reader Unit := do
  if !(← peek).isDigit then throw .syntaxError
  let (s, added, _) := extend significand (← digits)
  exponentIfAny s (start - added)

/-- A number without its sign; its value, if it is written as a whole number of 64 bits. -/
def number : Reader (Option Nat) := do
  if !(← peek).isDigit then throw .syntaxError
  let ds ← digits
  if ds.head? = some '0' ∧ 1 < ds.length then throw .syntaxError
  let (s, _, left) := extend 0 ds
  match ← peek? with
  | some '.' =>
    drop 1
    places s left
    return none
  | some 'e' | some 'E' =>
    drop 1
    exponent s left
    return none
  | _ =>
    inRange s left
    return if left = 0 then some s else none

/-- Passes over a number without its sign; where a digit is missing, the fault is one of the text. -/
def skipNumber : Reader Unit := do
  if !(← isDigitNext) then throw .syntaxError
  let ds ← digits
  if ds.head? = some '0' ∧ 1 < ds.length then throw .syntaxError
  if (← peek?) = some '.' then
    drop 1
    if !(← isDigitNext) then throw .syntaxError
    discard digits
  if (← peek?) = some 'e' ∨ (← peek?) = some 'E' then
    drop 1
    if (← peek?) = some '+' ∨ (← peek?) = some '-' then drop 1
    if !(← isDigitNext) then throw .syntaxError
    discard digits

/-! ## Values of any kind -/

/-- Takes a value that encloses no other, given how to read numbers without their sign and strings after their quote. -/
def scalar (number string : Reader Unit) : Reader Unit := do
  let c ← peekToken
  if c.isDigit then number
  else
    drop 1
    if c = '-' then number
    else if c = '"' then string
    else if c = 'n' then word "ull"
    else if c = 't' then word "rue"
    else if c = 'f' then word "alse"
    else throw .syntaxError

/-- Whether the next thing to read is a value, or what may come after one. -/
inductive Expected
  | value | afterValue

/-- Takes the name of a member of an object and its colon. -/
def skipName : Reader Unit := do
  expect '"'
  skipString
  expect ':'

/-- Passes over a value and on to the end of all that encloses it, given by its closing brackets. -/
def skipThrough : (rounds : Nat) → Expected → (closing : List Char) → Reader Unit
  | 0, _, _ => throw .earlyEnd
  | rounds + 1, .value, closing => do
    if ← accept '[' then
      if ← accept ']' then skipThrough rounds .afterValue closing
      else skipThrough rounds .value (']' :: closing)
    else if ← accept '\x7b' then
      if ← accept '\x7d' then skipThrough rounds .afterValue closing
      else
        skipName
        skipThrough rounds .value ('\x7d' :: closing)
    else
      scalar skipNumber skipString
      skipThrough rounds .afterValue closing
  | rounds + 1, .afterValue, closing => do
    match closing with
    | [] => return
    | close :: outer =>
      if ← accept close then skipThrough rounds .afterValue outer
      else
        expect ','
        if close = '\x7d' then skipName
        skipThrough rounds .value closing

/-- Passes over a value. -/
def skipValue : Reader Unit := do
  skipThrough (2 * (← rounds)) .value []

/-- The fault of a value that is not of the kind wanted; what is no value at all is a fault of the text. -/
def mistyped {α : Type} : Reader α := do
  let c ← peekToken
  if c ≠ '[' ∧ c ≠ '\x7b' then scalar (discard number) (discard stringBody)
  throw .wrongData

/-! ## Values of one kind -/

def string : Reader String := do
  if ← accept '"' then stringBody else mistyped

def boolean : Reader Bool := do
  if ← accept 't' then
    word "rue"
    return true
  else if ← accept 'f' then
    word "alse"
    return false
  else mistyped

/-- A whole number of 64 bits. -/
def count : Reader Nat := do
  let c ← peekToken
  if c = '-' then
    drop 1
    discard number
    throw .wrongData
  else if c.isDigit then
    match ← number with
    | some n => return n
    | none => throw .wrongData
  else mistyped

def null : Reader Unit := do
  if ← accept 'n' then word "ull" else mistyped

/-- A value or `null`. -/
def optional {α : Type} (value : Reader α) : Reader (Option α) := do
  if ← accept 'n' then
    word "ull"
    return none
  else return some (← value)

/-- A field of a record: its name, and how its value is read into the record. -/
structure RecordField (σ : Type) where
  name : String
  read : σ → Reader σ

/-- The fields of a record written as an array, in order; those at the end may be left out. -/
def items {σ : Type} (fields : List (RecordField σ)) (first : Bool) (record : σ) : Reader σ := do
  match fields with
  | [] =>
    expect ']'
    return record
  | field :: rest =>
    if ← accept ']' then return record
    if !first then
      expect ','
      if (← peekToken) = ']' then throw .syntaxError
    items rest false (← field.read record)

/-- The fields of a record written as an object, in any order, with others among them that are passed over. -/
def members {σ : Type} (fields : List (RecordField σ)) :
    (rounds : Nat) → (seen : List String) → (first : Bool) → σ → Reader σ
  | 0, _, _, _ => throw .earlyEnd
  | rounds + 1, seen, first, record => do
    if ← accept '\x7d' then return record
    if !first then expect ','
    expect '"'
    let name ← stringBody
    match fields.find? (·.name = name) with
    | some field =>
      if seen.contains name then throw .wrongData
      expect ':'
      members fields rounds (name :: seen) false (← field.read record)
    | none =>
      expect ':'
      skipValue
      members fields rounds seen false record

/-- A record, as an object or as an array; fields that are left out keep the values they have. -/
def record {σ : Type} (fields : List (RecordField σ)) (default_ : σ) : Reader σ := do
  if ← accept '[' then items fields true default_
  else if ← accept '\x7b' then members fields (← rounds) [] true default_
  else mistyped

/-- The value that a whole text is. -/
def run {α : Type} (value : Reader α) (text : List Char) : Except Fault α :=
  match StateT.run value text with
  | .error fault => .error fault
  | .ok (a, rest) => if rest.all isBlank then .ok a else .error .syntaxError

end Reader

end Assembler.Json
