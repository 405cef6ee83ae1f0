/-!
# UTF-8

Bytes to characters and back. Bytes that are no character are read leniently, one replacement
character for each longest run that began a character and broke off, or strictly, not at all.
-/

namespace Assembler.Text.Utf8

/-- The bytes of a character. -/
def encodeChar (c : Char) : List UInt8 :=
  let n := c.toNat
  if n < 0x80 then [.ofNat n]
  else if n < 0x800 then [.ofNat (0xC0 + n / 64), .ofNat (0x80 + n % 64)]
  else if n < 0x10000 then
    [.ofNat (0xE0 + n / 4096), .ofNat (0x80 + n / 64 % 64), .ofNat (0x80 + n % 64)]
  else
    [.ofNat (0xF0 + n / 262144), .ofNat (0x80 + n / 4096 % 64), .ofNat (0x80 + n / 64 % 64),
      .ofNat (0x80 + n % 64)]

def encode (s : List Char) : List UInt8 := s.flatMap encodeChar

/-- A character begun: the bits read, the bytes still to come, and the range of the next one. -/
structure Pending where
  bits : Nat
  missing : Nat
  low : Nat := 0x80
  high : Nat := 0xBF
  deriving DecidableEq, Repr

/-- What a byte leads to where a character may begin; `none` stands for a byte that cannot. -/
def start (b : Nat) : List (Option Char) × Option Pending :=
  if b < 0x80 then ([some (Char.ofNat b)], none)
  else if 0xC2 ≤ b ∧ b ≤ 0xDF then ([], some ⟨b - 0xC0, 1, 0x80, 0xBF⟩)
  else if b = 0xE0 then ([], some ⟨b - 0xE0, 2, 0xA0, 0xBF⟩)
  else if b = 0xED then ([], some ⟨b - 0xE0, 2, 0x80, 0x9F⟩)
  else if 0xE1 ≤ b ∧ b ≤ 0xEF then ([], some ⟨b - 0xE0, 2, 0x80, 0xBF⟩)
  else if b = 0xF0 then ([], some ⟨b - 0xF0, 3, 0x90, 0xBF⟩)
  else if 0xF1 ≤ b ∧ b ≤ 0xF3 then ([], some ⟨b - 0xF0, 3, 0x80, 0xBF⟩)
  else if b = 0xF4 then ([], some ⟨b - 0xF0, 3, 0x80, 0x8F⟩)
  else ([none], none)

/-- A byte after a character begun; one that does not continue it begins anew. -/
def continue? (p : Pending) (b : Nat) : List (Option Char) × Option Pending :=
  if p.low ≤ b ∧ b ≤ p.high then
    let bits := p.bits * 64 + (b - 0x80)
    if p.missing ≤ 1 then ([some (Char.ofNat bits)], none)
    else ([], some { bits, missing := p.missing - 1 })
  else
    let (units, pending) := start b
    (none :: units, pending)

/-- The characters of a byte sequence, with `none` for each run of bytes that is no character. -/
def units (pending : Option Pending) : List UInt8 → List (Option Char)
  | [] => if pending.isSome then [none] else []
  | b :: rest =>
    let (found, pending) := match pending with
      | none => start b.toNat
      | some p => continue? p b.toNat
    found ++ units pending rest

/-- The text of any bytes, with U+FFFD for each run that is no character. -/
def decodeLossy (bytes : List UInt8) : List Char :=
  (units none bytes).map (·.getD '\uFFFD')

/-- The text of bytes that are characters throughout. -/
def decode? (bytes : List UInt8) : Option (List Char) :=
  (units none bytes).mapM id

end Assembler.Text.Utf8
