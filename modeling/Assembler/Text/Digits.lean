/-!
# Digits

Reading numbers from digits and writing them as digits, in base ten and base sixteen.
-/

namespace Assembler.Text

/-- A decimal digit or a letter from `a` to `f`, in either case. -/
def isHexDigit (c : Char) : Bool :=
  c.isDigit || ('a' ≤ c && c ≤ 'f') || ('A' ≤ c && c ≤ 'F')

/-- The value of a digit in base sixteen; other characters count as zero. -/
def digitValue (c : Char) : Nat :=
  if c.isDigit then c.toNat - '0'.toNat
  else if 'a' ≤ c && c ≤ 'f' then c.toNat - 'a'.toNat + 10
  else if 'A' ≤ c && c ≤ 'F' then c.toNat - 'A'.toNat + 10
  else 0

/-- The number that digits denote, most significant first. -/
def numberOf (base : Nat) (digits : List Char) : Nat :=
  digits.foldl (fun n c => n * base + digitValue c) 0

/-- A number in base ten, without leading zeros. -/
def decimal (n : Nat) : String := String.ofList (Nat.toDigits 10 n)

/-- A whole number in base ten, with a minus sign if it is negative. -/
def signed : Int → String
  | .ofNat n => decimal n
  | .negSucc n => "-" ++ decimal (n + 1)

/-- A byte as two digits in base sixteen. -/
def hexByte (b : UInt8) : String :=
  String.ofList [Nat.digitChar (b.toNat / 16), Nat.digitChar (b.toNat % 16)]

/-- Digits, one at least, with an optional sign in front: whether they are negative, and their number. -/
def signedNumber? (s : String) : Option (Bool × Nat) :=
  let (negative, digits) := match s.toList with
    | '+' :: ds => (false, ds)
    | '-' :: ds => (true, ds)
    | ds => (false, ds)
  if digits.isEmpty || !digits.all Char.isDigit then none
  else some (negative, numberOf 10 digits)

/-- A 64-bit integer in base ten; none if the text is not a number or is out of range. -/
def int64? (s : String) : Option Int64 :=
  match signedNumber? s with
  | some (false, n) => if n < UInt64.size / 2 then some (Int64.ofInt n) else none
  | some (true, n) => if n ≤ UInt64.size / 2 then some (Int64.ofInt (-n)) else none
  | none => none

/-- An index of 32 bits in base ten, written without a minus sign. -/
def uint32? (s : String) : Option UInt32 :=
  match signedNumber? s with
  | some (false, n) => if n < UInt32.size then some (UInt32.ofNat n) else none
  | _ => none

end Assembler.Text
