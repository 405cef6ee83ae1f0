import Assembler.Text.Utf8
/-!
# Characters and their bytes

The bytes of a character are read as that character, whatever follows them, so the bytes of a text
are read as the text (`decodeLossy_encode`).
-/

namespace Assembler.Text.Utf8

/-! ## Bytes of a character -/

theorem units_cons_none (b : UInt8) (rest : List UInt8) :
    units none (b :: rest) = (start b.toNat).1 ++ units (start b.toNat).2 rest := rfl

theorem units_cons_some (p : Pending) (b : UInt8) (rest : List UInt8) :
    units (some p) (b :: rest) = (continue? p b.toNat).1 ++ units (continue? p b.toNat).2 rest := rfl

/-- A byte that continues a character and ends it. -/
theorem continue?_last {p : Pending} {n : Nat} (hlow : p.low ≤ 0x80 + n) (hhigh : 0x80 + n ≤ p.high)
    (hmissing : p.missing = 1) : continue? p (0x80 + n) = ([some (Char.ofNat (p.bits * 64 + n))], none) := by
  simp [continue?, hlow, hhigh, hmissing]

/-- A byte that continues a character of which more is missing. -/
theorem continue?_more {p : Pending} {n : Nat} (hlow : p.low ≤ 0x80 + n) (hhigh : 0x80 + n ≤ p.high)
    (hmissing : 1 < p.missing) :
    continue? p (0x80 + n) = ([], some { bits := p.bits * 64 + n, missing := p.missing - 1 }) := by
  simp [continue?, hlow, hhigh, Nat.not_le.2 hmissing]

theorem toNat_ofNat_of_lt {n : Nat} (h : n < 256) : (UInt8.ofNat n).toNat = n := by
  simp [Nat.mod_eq_of_lt h]

variable {n : Nat} (rest : List UInt8)

theorem units_two (h : 0x80 ≤ n) (h' : n < 0x800) :
    units none (.ofNat (0xC0 + n / 64) :: .ofNat (0x80 + n % 64) :: rest) = some (Char.ofNat n) :: units none rest := by
  have hstart : start (0xC0 + n / 64) = ([], some ⟨n / 64, 1, 0x80, 0xBF⟩) := by
    simp only [start]
    rw [if_neg (by omega), if_pos (by omega), Nat.add_sub_cancel_left]
  rw [units_cons_none, toNat_ofNat_of_lt (by omega), hstart, List.nil_append, units_cons_some,
    toNat_ofNat_of_lt (by omega), continue?_last (by simp only; omega) (by simp only; omega) rfl,
    show n / 64 * 64 + n % 64 = n by omega]
  rfl

/-- The first of three bytes leaves room for the second. -/
theorem exists_start_three (h : 0x800 ≤ n) (h' : n < 0x10000) (hvalid : n < 0xD800 ∨ 0xDFFF < n) :
    ∃ low high, start (0xE0 + n / 4096) = ([], some ⟨n / 4096, 2, low, high⟩) ∧
      low ≤ 0x80 + n / 64 % 64 ∧ 0x80 + n / 64 % 64 ≤ high := by
  simp only [start, Nat.add_sub_cancel_left]
  rw [if_neg (by omega), if_neg (by omega)]
  by_cases hfirst : 0xE0 + n / 4096 = 0xE0
  · rw [if_pos hfirst]
    exact ⟨_, _, rfl, by omega, by omega⟩
  · rw [if_neg hfirst]
    by_cases hsurrogates : 0xE0 + n / 4096 = 0xED
    · rw [if_pos hsurrogates]
      exact ⟨_, _, rfl, by omega, by omega⟩
    · rw [if_neg hsurrogates, if_pos (by omega)]
      exact ⟨_, _, rfl, by omega, by omega⟩

theorem units_three (h : 0x800 ≤ n) (h' : n < 0x10000) (hvalid : n < 0xD800 ∨ 0xDFFF < n) :
    units none (.ofNat (0xE0 + n / 4096) :: .ofNat (0x80 + n / 64 % 64) :: .ofNat (0x80 + n % 64) :: rest) =
      some (Char.ofNat n) :: units none rest := by
  obtain ⟨low, high, hstart, hlow, hhigh⟩ := exists_start_three h h' hvalid
  rw [units_cons_none, toNat_ofNat_of_lt (by omega), hstart, List.nil_append, units_cons_some,
    toNat_ofNat_of_lt (by omega), continue?_more hlow hhigh (by simp), List.nil_append, units_cons_some,
    toNat_ofNat_of_lt (by omega), continue?_last (by simp only; omega) (by simp only; omega) rfl,
    show (n / 4096 * 64 + n / 64 % 64) * 64 + n % 64 = n by omega]
  rfl

/-- The first of four bytes leaves room for the second. -/
theorem exists_start_four (h : 0x10000 ≤ n) (h' : n < 0x110000) :
    ∃ low high, start (0xF0 + n / 262144) = ([], some ⟨n / 262144, 3, low, high⟩) ∧
      low ≤ 0x80 + n / 4096 % 64 ∧ 0x80 + n / 4096 % 64 ≤ high := by
  simp only [start, Nat.add_sub_cancel_left]
  rw [if_neg (by omega), if_neg (by omega), if_neg (by omega), if_neg (by omega), if_neg (by omega)]
  by_cases hfirst : 0xF0 + n / 262144 = 0xF0
  · rw [if_pos hfirst]
    exact ⟨_, _, rfl, by omega, by omega⟩
  · rw [if_neg hfirst]
    by_cases hlast : 0xF0 + n / 262144 = 0xF4
    · rw [if_neg (by omega), if_pos hlast]
      exact ⟨_, _, rfl, by omega, by omega⟩
    · rw [if_pos (by omega)]
      exact ⟨_, _, rfl, by omega, by omega⟩

theorem units_four (h : 0x10000 ≤ n) (h' : n < 0x110000) :
    units none (.ofNat (0xF0 + n / 262144) :: .ofNat (0x80 + n / 4096 % 64) :: .ofNat (0x80 + n / 64 % 64) ::
      .ofNat (0x80 + n % 64) :: rest) = some (Char.ofNat n) :: units none rest := by
  obtain ⟨low, high, hstart, hlow, hhigh⟩ := exists_start_four h h'
  rw [units_cons_none, toNat_ofNat_of_lt (by omega), hstart, List.nil_append, units_cons_some,
    toNat_ofNat_of_lt (by omega), continue?_more hlow hhigh (by simp), List.nil_append, units_cons_some,
    toNat_ofNat_of_lt (by omega), continue?_more (by simp only; omega) (by simp only; omega) (by simp),
    List.nil_append, units_cons_some, toNat_ofNat_of_lt (by omega),
    continue?_last (by simp only; omega) (by simp only; omega) rfl,
    show ((n / 262144 * 64 + n / 4096 % 64) * 64 + n / 64 % 64) * 64 + n % 64 = n by omega]
  rfl

theorem units_encodeChar (c : Char) : units none (encodeChar c ++ rest) = some c :: units none rest := by
  have hvalid : c.toNat < 0xD800 ∨ 0xDFFF < c.toNat ∧ c.toNat < 0x110000 := c.valid
  have hchar : Char.ofNat c.toNat = c := Char.ofNat_toNat c
  simp only [encodeChar]
  by_cases h₁ : c.toNat < 0x80
  · rw [if_pos h₁, List.singleton_append, units_cons_none, toNat_ofNat_of_lt (by omega), start, if_pos h₁, hchar]
    rfl
  · rw [if_neg h₁]
    by_cases h₂ : c.toNat < 0x800
    · rw [if_pos h₂]
      exact (units_two rest (by omega) h₂).trans (by rw [hchar])
    · rw [if_neg h₂]
      by_cases h₃ : c.toNat < 0x10000
      · rw [if_pos h₃]
        exact (units_three rest (by omega) h₃ (by omega)).trans (by rw [hchar])
      · rw [if_neg h₃]
        exact (units_four rest (by omega) (by omega)).trans (by rw [hchar])

/-! ## Texts -/

theorem units_encode (s : List Char) : units none (encode s) = s.map some := by
  induction s with
  | nil => rfl
  | cons c s ih => rw [encode, List.flatMap_cons, units_encodeChar, ← encode, ih, List.map_cons]

theorem decodeLossy_encode (s : List Char) : decodeLossy (encode s) = s := by
  simp [decodeLossy, units_encode, Function.comp_def]

end Assembler.Text.Utf8
