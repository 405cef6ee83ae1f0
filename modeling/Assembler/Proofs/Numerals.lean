import Assembler.Proofs.Defined
import Assembler.Proofs.Faults
import Assembler.Proofs.Interpolations
import Assembler.Proofs.NodeLines
import Assembler.Proofs.Operands
import Assembler.Proofs.Printed
/-!
# Numerals

A number goes from text to text and from text to bytes: the lexer writes an integer in base sixteen in base ten, with a
sign if its highest bit is set, the parser reads that again, and the emitter writes it as eight bytes. What comes of
it is the number that the digits make up, however many there are (`Numeral.number`), as long as it is in range
(`Numeral.Fits`); any other is reported where it stands. Main statement: `Source.numerals_denote`.
-/

namespace Assembler

/-- A text has one part that ends at a location. -/
theorem Location.eq_of_after_eq {file : String} {before before' text : List Char} (h : before <+: text) (h' : before' <+: text)
    (heq : Location.after file before = .after file before') : before = before' := by
  have hone {before before' : List Char} (h : before <+: before') (heq : Location.after file before' = .after file before) :
      before = before' := by
    obtain ⟨more, rfl⟩ := h
    by_contra hne
    have hmore : more ≠ [] := by
      rintro rfl
      exact hne (List.append_nil before).symm
    exact not_after_append_le file before hmore (heq ▸ le_refl _)
  rcases List.prefix_or_prefix_of_prefix h h' with hprefix | hprefix
  · exact hone hprefix heq.symm
  · exact (hone hprefix heq).symm

/-! ## Numbers of digits -/

namespace Text

theorem numberOf_replicate_zero (base zeros : Nat) (digits : List Char) :
    numberOf base (List.replicate zeros '0' ++ digits) = numberOf base digits := by
  induction zeros with
  | zero => rfl
  | succ zeros ih => simpa [numberOf, List.replicate_succ, digitValue] using ih

theorem signedNumber?_minus {digits : List Char} (h : isDecimal digits) :
    signedNumber? (String.ofList ('-' :: digits)) = some (true, numberOf 10 digits) := by
  obtain ⟨c, digits, rfl, hdigits⟩ := isDecimal_iff.1 h
  have hall : (c :: digits).all Char.isDigit = true := List.all_eq_true.2 hdigits
  unfold signedNumber?
  rw [String.toList_ofList]
  simp [hall]

/-- An integer that was written is read again, whatever its sign. -/
theorem int64?_signed (v : Int64) : int64? (signed v.toInt) = some v := by
  cases hv : v.toInt with
  | ofNat n => exact int64?_decimal hv
  | negSucc n =>
    have hnumber : numberOf 10 (decimal (n + 1)).toList = n + 1 := by
      rw [decimal, String.toList_ofList]
      exact numberOf_toDigits (by decide) (by decide) _
    have hminus : signed (.negSucc n) = String.ofList ('-' :: (decimal (n + 1)).toList) := by simp [signed]
    have hle := v.le_toInt
    have hnegative : -((n + 1 : Nat) : Int) = v.toInt := hv.symm
    rw [int64?, hminus, signedNumber?_minus (isDecimal_decimal _), hnumber]
    dsimp only
    rw [if_pos (by simp [UInt64.size]; omega), hnegative, Int64.ofInt_toInt]

end Text

/-- A number as it is written: with digits in base ten or sixteen, or as the index of a slot. -/
inductive Numeral
  | decimal (digits : List Char)
  | hex (mark : Char) (digits : List Char)
  | register (digits : List Char)
  | localSlot (digits : List Char)

namespace Numeral

def text : Numeral → List Char
  | decimal digits => digits
  | hex mark digits => '0' :: mark :: digits
  | register digits => '$' :: digits
  | localSlot digits => '%' :: digits

/-- There are digits, and each is one in the base. -/
def IsWritten : Numeral → Prop
  | hex mark digits => (mark = 'x' ∨ mark = 'X') ∧ digits ≠ [] ∧ ∀ c ∈ digits, Text.isHexDigit c
  | decimal digits | register digits | localSlot digits => digits ≠ [] ∧ ∀ c ∈ digits, c.isDigit

/-- The number that the digits make up. -/
def magnitude : Numeral → Nat
  | hex _ digits => Text.positional 16 digits
  | decimal digits | register digits | localSlot digits => Text.positional 10 digits

/-- An integer that is not negative takes 63 bits, the bits of one in base sixteen are 64, and those of an index are 32. -/
def Fits (n : Numeral) : Prop :=
  match n with
  | decimal _ => n.magnitude ≤ Nat.pow 2 63 - 1
  | hex .. => n.magnitude < Nat.pow 2 64
  | register _ | localSlot _ => n.magnitude < Nat.pow 2 32

instance (n : Numeral) : Decidable n.Fits :=
  match n with
  | decimal _ => Nat.decLe ..
  | hex .. => Nat.decLt ..
  | register _ => Nat.decLt ..
  | localSlot _ => Nat.decLt ..

/-- The integer in two's complement that 64 bits are. -/
def twosComplement (bits : Nat) : Int := if bits < Nat.pow 2 63 then bits else bits - (Nat.pow 2 64 : Nat)

/-- The number that is meant: digits in base sixteen are bits. -/
def number (n : Numeral) : Int :=
  match n with
  | hex .. => twosComplement n.magnitude
  | decimal _ | register _ | localSlot _ => n.magnitude

/-- What a numeral is the node of. -/
def kind (n : Numeral) : Node.Kind :=
  match n with
  | decimal _ | hex .. => .integer (.ofInt n.number)
  | register _ => .slot .register (.ofNat n.magnitude)
  | localSlot _ => .slot .localSlot (.ofNat n.magnitude)

/-- What is said of a numeral that is out of range. -/
def complaint : Numeral → String
  | decimal digits => "integer literal '" ++ String.ofList digits ++ "' out of range"
  | hex _ digits => "integer literal '" ++ String.ofList ('0' :: 'x' :: digits) ++ "' out of range"
  | register digits => "REGISTER index '" ++ String.ofList digits ++ "' out of range"
  | localSlot digits => "LOCAL index '" ++ String.ofList digits ++ "' out of range"

/-- The node of a numeral, if it is in range. -/
def kind? (n : Numeral) : Option Node.Kind := if n.Fits then some n.kind else none

/-- What is reported of a numeral at a location, if it is not in range. -/
def report? (n : Numeral) (location : Location) : Option Diagnostic :=
  if n.Fits then none else some { cause := .illegalExpression, location, context := some n.complaint }

/-- A numeral with more zeros before its digits. -/
def padded (zeros : Nat) : Numeral → Numeral
  | decimal digits => decimal (List.replicate zeros '0' ++ digits)
  | hex mark digits => hex mark (List.replicate zeros '0' ++ digits)
  | register digits => register (List.replicate zeros '0' ++ digits)
  | localSlot digits => localSlot (List.replicate zeros '0' ++ digits)

variable {n : Numeral}

/-! ### The number is what the node holds -/

theorem kind?_eq_some {k : Node.Kind} : n.kind? = some k ↔ n.Fits ∧ n.kind = k := by
  simp [kind?]

theorem magnitude_padded (zeros : Nat) (n : Numeral) : (n.padded zeros).magnitude = n.magnitude := by
  cases n <;> simp [padded, magnitude, ← Text.numberOf_eq_positional, Text.numberOf_replicate_zero]

theorem fits_padded (zeros : Nat) (n : Numeral) : (n.padded zeros).Fits ↔ n.Fits := by
  have hmagnitude := magnitude_padded zeros n
  cases n <;> simp only [Fits, padded] at hmagnitude ⊢ <;> rw [hmagnitude]

/-- Zeros before the digits change nothing. -/
theorem kind?_padded (zeros : Nat) (n : Numeral) : (n.padded zeros).kind? = n.kind? := by
  have hmagnitude := magnitude_padded zeros n
  have hkind : (n.padded zeros).kind = n.kind := by
    cases n <;> simp only [kind, number, padded] at hmagnitude ⊢ <;> rw [hmagnitude]
  simp only [kind?, hkind, fits_padded]

theorem toInt_ofInt_twosComplement {bits : Nat} (h : bits < Nat.pow 2 64) :
    (Int64.ofInt (twosComplement bits)).toInt = twosComplement bits := by
  simp only [Nat.pow_eq] at h
  unfold twosComplement
  simp only [Nat.pow_eq]
  split
  · exact Int64.toInt_ofInt_of_le (by omega) (by omega)
  · exact Int64.toInt_ofInt_of_le (by omega) (by omega)

/-- An integer has the number of its numeral. -/
theorem toInt_of_kind? {v : Int64} (h : n.kind? = some (.integer v)) : v.toInt = n.number := by
  obtain ⟨hfits, hkind⟩ := kind?_eq_some.1 h
  cases n with
  | decimal digits =>
    cases hkind
    simp only [Fits, Nat.pow_eq] at hfits
    exact Int64.toInt_ofInt_of_le (by simp only [number]; omega) (by simp only [number]; omega)
  | hex mark digits =>
    cases hkind
    exact toInt_ofInt_twosComplement hfits
  | register | localSlot => cases hkind

/-- A slot has the index that its numeral says. -/
theorem toNat_of_kind? {store : Store} {index : UInt32} (h : n.kind? = some (.slot store index)) : index.toNat = n.number := by
  obtain ⟨hfits, hkind⟩ := kind?_eq_some.1 h
  cases n with
  | decimal | hex => cases hkind
  | register digits | localSlot digits =>
    cases hkind
    exact congrArg Nat.cast (UInt32.toNat_ofNat_of_lt hfits)

/-! ## Numerals are read -/

/-- What the token of a numeral says: bits are written as an integer in base ten, if there are not more than 64. -/
def said (n : Numeral) : Token.Kind × String :=
  match n with
  | decimal digits => (.integer, String.ofList digits)
  | hex _ digits => (.integer, if n.Fits then Text.signed n.number else String.ofList ('0' :: 'x' :: digits))
  | register digits => (.register, String.ofList digits)
  | localSlot digits => (.localSlot, String.ofList digits)

theorem toInt_ofNat_twosComplement {bits : Nat} (h : bits < Nat.pow 2 64) : (Int64.ofNat bits).toInt = twosComplement bits := by
  rw [← toInt_ofInt_twosComplement h, Int64.toInt_ofNat', Int64.toInt_ofInt]
  unfold twosComplement
  split
  · rfl
  · exact (Int.sub_bmod_right ..).symm

end Numeral

namespace Lexeme

variable {rest : List Char}

/-- Digits in base sixteen are read to the last, and their number is written in base ten. -/
theorem said_readNumber_hex {mark : Char} {digits : List Char} (h : (Numeral.hex mark digits).IsWritten) (hrest : Apart rest) :
    (readNumber ('0' :: mark :: (digits ++ rest))).said = (Numeral.hex mark digits).said := by
  obtain ⟨hmark, hne, hdigits⟩ := h
  obtain ⟨d, more, rfl⟩ := List.exists_cons_of_ne_nil hne
  have htake := takeWhile_append_apart hdigits (fun c => not_isHexDigit_of_isBlank) hrest
  rw [List.cons_append] at htake ⊢
  have hd := hdigits d List.mem_cons_self
  simp only [readNumber, hmark, hd, and_self, if_true, htake, said, Numeral.said, hexValue]
  have hfits : (Numeral.hex mark (d :: more)).Fits ↔ Text.numberOf 16 (d :: more) < UInt64.size := by
    rw [Text.numberOf_eq_positional]
    exact Iff.rfl
  by_cases hlt : Text.numberOf 16 (d :: more) < UInt64.size
  · have hvalue : (Int64.ofNat (Text.positional 16 (d :: more))).toInt = (Numeral.hex mark (d :: more)).number :=
      Numeral.toInt_ofNat_twosComplement (hfits.2 hlt)
    rw [if_pos hlt, if_pos (hfits.2 hlt), String.ofList_toList, Text.numberOf_eq_positional, hvalue]
  · rw [if_neg hlt, if_neg (mt hfits.1 hlt)]

/-- A numeral with a blank after it is one lexeme. -/
theorem exists_read_numeral {n : Numeral} (h : n.IsWritten) (hrest : Apart rest) :
    ∃ c s, n.text ++ rest = c :: s ∧ (read c s).said = n.said := by
  cases n with
  | decimal digits =>
    obtain ⟨hne, hdigits⟩ := h
    obtain ⟨d, more, rfl⟩ := List.exists_cons_of_ne_nil hne
    refine ⟨d, more ++ rest, rfl, ?_⟩
    rw [read_digit _ (hdigits d List.mem_cons_self), ← List.cons_append, readNumber_decimal hdigits hrest]
    rfl
  | hex mark digits =>
    refine ⟨'0', mark :: (digits ++ rest), rfl, ?_⟩
    rw [read_digit _ (by decide)]
    exact said_readNumber_hex h hrest
  | register digits =>
    obtain ⟨hne, hdigits⟩ := h
    obtain ⟨d, more, rfl⟩ := List.exists_cons_of_ne_nil hne
    refine ⟨'$', d :: (more ++ rest), rfl, ?_⟩
    rw [read_dollar_digit _ (hdigits d List.mem_cons_self), readSlot_digits .register '$' hdigits hrest]
    rfl
  | localSlot digits =>
    obtain ⟨hne, hdigits⟩ := h
    obtain ⟨d, more, rfl⟩ := List.exists_cons_of_ne_nil hne
    refine ⟨'%', d :: (more ++ rest), rfl, ?_⟩
    rw [read_percent, readSlot_digits .localSlot '%' hdigits hrest]
    rfl

end Lexeme

/-! ## Tokens of numerals -/

namespace Numeral

variable {n : Numeral} {t : Token}

theorem isDecimal_of_isWritten {digits : List Char} (h : (decimal digits).IsWritten) : isDecimal (String.ofList digits).toList := by
  obtain ⟨hne, hdigits⟩ := h
  rw [String.toList_ofList, isDecimal_iff]
  obtain ⟨d, more, rfl⟩ := List.exists_cons_of_ne_nil hne
  exact ⟨d, more, rfl, hdigits⟩

/-- An integer in base ten has 63 bits at most. -/
theorem int64?_digits {digits : List Char} (h : (decimal digits).IsWritten) :
    (Text.int64? (String.ofList digits)).map .integer = (decimal digits).kind? := by
  have hfits : (decimal digits).Fits ↔ Text.positional 10 digits < UInt64.size / 2 := by
    simp only [Fits, magnitude, Nat.pow_eq, UInt64.size]
    omega
  rw [Text.int64?, Text.signedNumber?_of_isDecimal (isDecimal_of_isWritten h), String.toList_ofList,
    Text.numberOf_eq_positional, kind?]
  simp only [hfits]
  split <;> rfl

/-- The bits of an integer in base sixteen are written as the integer that they are, and that is read. -/
theorem int64?_bits {mark : Char} {digits : List Char} (h : (hex mark digits).IsWritten) :
    (Text.int64? (hex mark digits).said.2).map .integer = (hex mark digits).kind? := by
  obtain ⟨-, -, hdigits⟩ := h
  unfold said kind?
  dsimp only
  split
  · rename_i hfits
    have hvalue : (Int64.ofInt (hex mark digits).number).toInt = (hex mark digits).number := toInt_ofInt_twosComplement hfits
    rw [← hvalue, Text.int64?_signed]
    simp only [Option.map_some, kind]
  · rename_i hfits
    have hlarge : isLargeHex (String.ofList ('0' :: 'x' :: digits)).toList := by
      rw [String.toList_ofList]
      simp only [isLargeHex, Bool.and_eq_true, List.all_eq_true, decide_eq_true_eq]
      refine ⟨hdigits, ?_⟩
      rw [Text.numberOf_eq_positional]
      exact Nat.not_lt.1 hfits
    rw [Text.int64?_of_isLargeHex hlarge]
    rfl

/-- An index has 32 bits at most. -/
theorem uint32?_digits {digits : List Char} (h : (register digits).IsWritten) (store : Store) :
    (Text.uint32? (String.ofList digits)).map (Node.Kind.slot store) =
      if (register digits).Fits then some (.slot store (.ofNat (register digits).magnitude)) else none := by
  have hfits : (register digits).Fits ↔ Text.positional 10 digits < UInt32.size := Iff.rfl
  rw [Text.uint32?, Text.signedNumber?_of_isDecimal (isDecimal_of_isWritten h), String.toList_ofList,
    Text.numberOf_eq_positional]
  simp only [hfits]
  split <;> rfl

/-- The token of a numeral is its node, if it is in range. -/
theorem leaf?_of_said (h : n.IsWritten) (ht : t.said = n.said) : t.leaf? = n.kind? := by
  obtain ⟨kind, value, location⟩ := t
  obtain ⟨rfl, rfl⟩ := Prod.mk.inj ht
  cases n with
  | decimal digits => exact int64?_digits h
  | hex mark digits => exact int64?_bits h
  | register digits => exact uint32?_digits h .register
  | localSlot digits => exact uint32?_digits h .localSlot

theorem kind_of_said (ht : t.said = n.said) : t.kind ∉ [.directive, .label, .identifier] := by
  have hkind : t.kind = n.said.1 := congrArg Prod.fst ht
  rw [hkind]
  cases n <;> simp [said]

theorem kind?_ne_string (value : String) : n.kind? ≠ some (.string value) := by
  intro h
  obtain ⟨-, hkind⟩ := kind?_eq_some.1 h
  cases n <;> cases hkind

theorem rangeComplaint?_of_said (h : ¬ n.Fits) (ht : t.said = n.said) : t.rangeComplaint? = some n.complaint := by
  have hkind : t.kind = n.said.1 := congrArg Prod.fst ht
  have hvalue : t.value = n.said.2 := congrArg Prod.snd ht
  unfold Token.rangeComplaint?
  rw [hkind, hvalue]
  cases n with
  | decimal => rfl
  | hex mark digits =>
    have hsaid : (hex mark digits).said = (.integer, String.ofList ('0' :: 'x' :: digits)) := by rw [said, if_neg h]
    rw [hsaid]
    rfl
  | register digits =>
    have hname : Store.register.name ++ " index '" = "REGISTER index '" := by decide
    exact congrArg (fun start => some (start ++ String.ofList digits ++ "' out of range")) hname
  | localSlot digits =>
    have hname : Store.localSlot.name ++ " index '" = "LOCAL index '" := by decide
    exact congrArg (fun start => some (start ++ String.ofList digits ++ "' out of range")) hname

/-- And otherwise it is reported. -/
theorem outOfRange?_of_said (h : n.IsWritten) (ht : t.said = n.said) : t.outOfRange? = n.report? t.location := by
  unfold Token.outOfRange? report?
  rw [leaf?_of_said h ht, kind?]
  by_cases hfits : n.Fits
  · rw [if_pos hfits, if_pos hfits]
  · rw [if_neg hfits, if_neg hfits, rangeComplaint?_of_said hfits ht]
    rfl

end Numeral

namespace Source

/-- A token is read as an operand and is a numeral: that is written where the token is located, and a blank or nothing
comes after it. -/
structure HasNumeral (s : Source) (t : Token) (n : Numeral) : Prop where
  operand : t ∈ s.operands
  isWritten : n.IsWritten
  text : ∃ before rest, s.text = before ++ n.text ++ rest ∧ t.location = .after s.file before ∧ Apart rest

variable {s : Source} {t : Token} {n : Numeral}

/-- The lexeme of a token is where the token is located. -/
theorem HasNumeral.said (h : s.HasNumeral t n) : t.said = n.said := by
  obtain ⟨before, rest, htext, hlocation, hrest⟩ := h.text
  have hstart : Location.ofPosition s.file {} = .after s.file [] := rfl
  have htoken : t ∈ (Lexer.ofSource s).readAll.1 := (Draft.terms_sublist s.tokens {}).subset h.operand
  obtain ⟨skipped, c, more, hskipped, rfl, -⟩ := Lexer.exists_read_of_mem (l := Lexer.ofSource s) hstart htoken
  have hskipped : s.text = skipped ++ c :: more := hskipped
  obtain rfl : skipped = before := by
    have hprefix : skipped <+: s.text := ⟨_, hskipped.symm⟩
    have hprefix' : before <+: s.text := ⟨_, by rw [htext, List.append_assoc]⟩
    exact Location.eq_of_after_eq hprefix hprefix' hlocation
  -- Both the token and the numeral are read from here.
  obtain ⟨c', more', hcons, hsaid⟩ := Lexeme.exists_read_numeral h.isWritten hrest
  rw [htext, List.append_assoc, hcons, List.append_cancel_left_eq] at hskipped
  obtain ⟨rfl, rfl⟩ := List.cons.inj hskipped
  exact hsaid

end Source

/-! ## Reports when names are resolved -/

/-- Resolving names only reports an expression as illegal that is a string literal. -/
theorem Program.exists_string_of_mem_faults {p : Program} {declared : String → Bool} {id : NodeId} {d : Diagnostic}
    (h : d ∈ p.faults declared id) (hcause : d.cause = .illegalExpression) :
    ∃ c n value, p.node? c = some n ∧ n.kind = .string value ∧ n.location = d.location := by
  obtain ⟨c, -, hd | hd⟩ := exists_part_of_mem_faults h
  · unfold nameFault at hd
    split at hd
    · split at hd
      · cases hd
      · obtain rfl := List.mem_singleton.1 hd
        cases hcause
    · cases hd
  · unfold targetFault at hd
    split at hd
    · rename_i value hk
      obtain ⟨n, hn, hkind⟩ := kind?_eq_some.1 hk
      obtain rfl := List.mem_singleton.1 hd
      exact ⟨c, n, value, hn, hkind, (location_of_node? hn).symm⟩
    · cases hd

theorem Workspace.mem_nodesAt {w : Workspace} {id : NodeId} {n : Node} (h : w.program.node? id = some n) :
    n.kind ∈ w.nodesAt n.location := by
  have hmem : n ∈ w.program.nodes.toList := Array.mem_toList_iff.2 (Array.mem_of_getElem? h)
  exact List.mem_map_of_mem (List.mem_filter.2 ⟨hmem, decide_eq_true rfl⟩)

namespace Source

variable {s : Source} {place : Location}

theorem illegalAt_analyze (h : ∀ value, .string value ∉ s.parse.nodesAt place) :
    s.analyze.illegalAt place = s.parse.illegalAt place := by
  have hreports : s.analyze.diagnostics = _ := s.isRead_parse.diagnostics_resolve
  unfold Workspace.illegalAt
  rw [hreports, List.filter_append, List.append_right_eq_self, List.filter_eq_nil_iff]
  intro d hd hillegal
  obtain ⟨hcause, hplace⟩ := of_decide_eq_true hillegal
  obtain ⟨st, -, hfault⟩ := List.mem_flatMap.1 hd
  obtain ⟨c, n, value, hn, hkind, hlocation⟩ := Program.exists_string_of_mem_faults hfault hcause
  have hnode := Workspace.mem_nodesAt hn
  rw [hkind, hlocation, hplace] at hnode
  exact h value hnode

/-- A source that is not assembled fails with what was reported of it, at each location in the order of the reports. -/
theorem exists_illegal_of_error {settings : Settings} {f : Failure} (h : (s.assemble settings).1 = .error f) (place : Location) :
    ∃ ds, f = .diagnostics ds ∧
      ds.filter (fun d => d.cause = .illegalExpression ∧ d.location = place) = s.analyze.illegalAt place := by
  by_cases hnone : s.analyze.diagnostics = []
  · obtain ⟨ls, chunk, statics, -, hok, -⟩ := s.assemble_of_no_diagnostics settings hnone
    rw [hok] at h
    cases h
  · rw [s.assemble_of_diagnostics settings hnone] at h
    cases h
    refine ⟨_, rfl, ?_⟩
    have hstable := (Diagnostics.isStableSort_sorted s.analyze.diagnostics).stable place
    have hsplit (ds : List Diagnostic) : ds.filter (fun d => d.cause = .illegalExpression ∧ d.location = place) =
        (ds.filter (·.location = place)).filter (·.cause = .illegalExpression) := by
      rw [List.filter_filter]
      simp only [Bool.decide_and]
    rw [hsplit, hstable, ← hsplit]
    rfl

end Source

/-! ## Integers are loaded -/

/-- An instruction loads an integer into a slot of the static area, where the entry is the same integer; and what the
instruction has after its opcode and the place of the slot are eight bytes that are read as it. -/
def Assembly.Loads (a : Assembly) (value : Int64) (i : Instruction) : Prop :=
  ∃ slot bytes, i.encode = Opcode.loadInt.byte :: ((Place.static (.ofNat slot)).encode ++ bytes) ∧ bytes.length = 8 ∧
    ByteReader.int64.Reads bytes value ∧ a.statics[slot]? = some (.integer value)

theorem Assembly.loads_loadInt {a : Assembly} {value : Int64} {slot : Nat} (h : a.statics[slot]? = some (.integer value)) :
    a.Loads value (.loadInt (.static (.ofNat slot)) value) :=
  ⟨slot, encodeInt64 value, rfl, length_littleEndian .., ByteReader.reads_int64 value, h⟩

/-- The definitions of plain code are numbered as the entries of the static area. -/
theorem exists_slot_of_mem_plainCode {ls : List Line} {statics : List Static}
    (h : List.Forall₂ Instruction.Defines ((plainCode ls).filter (·.isDefinition)) statics) {place : Place} {value : Int64}
    (hi : .loadInt place value ∈ plainCode ls) :
    ∃ slot, place = .static (.ofNat slot) ∧ statics[slot]? = some (.integer value) := by
  have hmem : .loadInt place value ∈ (plainCode ls).filter (·.isDefinition) := List.mem_filter.2 ⟨hi, rfl⟩
  obtain ⟨slot, hslot⟩ := List.mem_iff_getElem?.1 hmem
  have hrun := Slots.run_lines (List.Subset.refl ls) (s := {}) fun _ _ h => by cases h
  have hplace := hrun.defined?_eq (Slots.filter_isDefinition_plainCode ls ▸ hslot)
  refine ⟨slot, Option.some.inj hplace, ?_⟩
  obtain ⟨hlt, hget⟩ := List.getElem?_eq_some_iff.1 hslot
  have hlt' : slot < statics.length := h.length_eq ▸ hlt
  have hdefines := h.get hlt hlt'
  rw [List.get_eq_getElem, hget, List.get_eq_getElem] at hdefines
  rw [List.getElem?_eq_getElem hlt']
  generalize statics[slot] = entry at hdefines
  cases hdefines
  rfl

namespace Source

variable {s : Source} {t : Token}

/-- Of the instructions that the code of an assembly is, each made for its own node, one was made for a given node. -/
def Emits (s : Source) (a : Assembly) (id : NodeId) (i : Instruction) : Prop :=
  ∃ e rows begun, (Emission.all []).run s.analyze.emission = .ok () e ∧ Emission.Accounts s.analyze.program rows begun e ∧
    a.chunk.code = rows.flatMap (·.2.encode) ++ Instruction.halt.encode ∧ (id, i) ∈ rows

/-- Each integer that is an operand of an assembled source has its own node, and the instruction of that node loads it. -/
theorem exists_loads {settings : Settings} {a : Assembly} (h : (s.assemble settings).1 = .ok a) (ht : t ∈ s.operands)
    {value : Int64} (hleaf : t.leaf? = some (.integer value)) :
    ∃ id i, s.parse.program.node? id = some ⟨.integer value, t.location, none⟩ ∧ s.Emits a id i ∧ a.Loads value i := by
  obtain ⟨hready, ls, e, hmakes, hchunk, hdefines⟩ := s.exists_makes_of_assemble h
  obtain ⟨rows, begun, haccounts, hcode, hparts⟩ := Emission.exists_accounts_of_parts hready hmakes.run
  obtain ⟨id, hid, hterm⟩ := s.exists_part (s.diagnostics_parse_of_assemble h) ht (Option.isSome_of_eq_some hleaf)
  have hnode := hterm _ hleaf
  have hlater : s.parse.Later s.analyze := s.bound_parse.resolve.2
  have hkind : s.analyze.program.kind? id = some (.integer value) :=
    (hlater.kind?_iff (by simp)).2 (Program.kind?_eq_some.2 ⟨_, hnode, rfl⟩)
  have hpart : id ∈ s.analyze.program.parts s.analyze.program.statements := by
    rw [hlater.statements, Program.parts_congr fun id _ => hlater.children_eq id]
    exact hid
  have hlabel : ¬ s.analyze.program.IsLabel id := by
    rintro ⟨name, hname⟩
    cases hkind.symm.trans hname
  obtain ⟨⟨_, i⟩, hrow, rfl⟩ := List.mem_map.1 (hparts id hpart hlabel (.integer value) (Program.entry?_eq hkind))
  have hmade := haccounts.made _ hrow
  rw [Program.instruction?_eq ((Program.kind?_eq_of_unplaced haccounts.unplaced _).trans hkind)] at hmade
  obtain ⟨place, -, rfl⟩ := Option.map_eq_some_iff.1 hmade
  -- The instructions of the rows and the halt are the plain code.
  have hplain : plainCode ls = rows.map (·.2) ++ [.halt] := by
    have hinstructions : e.code.toList.map (·.1) = plainCode ls := hmakes.code
    rw [← hinstructions, hcode]
    simp
  have hmem : .loadInt place value ∈ plainCode ls := by
    rw [hplain]
    exact List.mem_append_left _ (List.mem_map_of_mem hrow)
  obtain ⟨slot, rfl, hentry⟩ := exists_slot_of_mem_plainCode hdefines hmem
  refine ⟨_, _, hnode, ⟨e, rows, begun, hmakes.run, haccounts, ?_, hrow⟩, Assembly.loads_loadInt ?_⟩
  · rw [hchunk, Emission.chunk, Chunk.code_writeAll, hcode]
    simp [List.flatMap_map]
  · rwa [← Array.getElem?_toList]

/-- A numeral that is an operand, whatever stands around it and however many digits it has, gives one node, of its number,
or it is out of range and gives one report and no node. Zeros before the digits change nothing. If the source is
assembled then the numeral is in range, and an integer is loaded as its number. -/
theorem numerals_denote {n : Numeral} (h : s.HasNumeral t n) :
    s.parse.nodesAt t.location = n.kind?.toList ∧
    s.parse.illegalAt t.location = (n.report? t.location).toList ∧
    (∀ zeros, (n.padded zeros).kind? = n.kind?) ∧
    (∀ value, n.kind? = some (.integer value) → value.toInt = n.number) ∧
    (∀ store index, n.kind? = some (.slot store index) → index.toNat = n.number) ∧
    (∀ settings f, (s.assemble settings).1 = .error f → ∃ ds, f = .diagnostics ds ∧
      ds.filter (fun d => d.cause = .illegalExpression ∧ d.location = t.location) = (n.report? t.location).toList) ∧
    ∀ settings a, (s.assemble settings).1 = .ok a → ∃ k, n.kind? = some k ∧ ∀ value, k = .integer value →
      ∃ id i, s.parse.program.node? id = some ⟨.integer value, t.location, none⟩ ∧ s.Emits a id i ∧ a.Loads value i := by
  have hleaf := Numeral.leaf?_of_said h.isWritten h.said
  obtain ⟨hnodes, hillegal⟩ := answers h.operand (Numeral.kind_of_said h.said)
  rw [hleaf] at hnodes
  rw [Numeral.outOfRange?_of_said h.isWritten h.said] at hillegal
  refine ⟨hnodes, hillegal, n.kind?_padded, fun _ => Numeral.toInt_of_kind?, fun _ _ => Numeral.toNat_of_kind?, ?_, ?_⟩
  · intro settings f herror
    have hstring : ∀ value, .string value ∉ s.parse.nodesAt t.location := by
      intro value hvalue
      rw [hnodes] at hvalue
      exact Numeral.kind?_ne_string value (Option.mem_toList.1 hvalue)
    obtain ⟨ds, hds, hfilter⟩ := exists_illegal_of_error herror t.location
    exact ⟨ds, hds, by rw [hfilter, illegalAt_analyze hstring, hillegal]⟩
  · intro settings a hok
    obtain ⟨k, hk⟩ : ∃ k, n.kind? = some k := by
      by_cases hfits : n.Fits
      · exact ⟨n.kind, if_pos hfits⟩
      · -- Then something was reported, and the source was not assembled.
        rw [Numeral.report?, if_neg hfits, Workspace.illegalAt, s.diagnostics_parse_of_assemble hok] at hillegal
        cases hillegal
    refine ⟨k, hk, ?_⟩
    rintro value rfl
    exact exists_loads hok h.operand (hleaf.trans hk)

/-- All bits of an integer in base sixteen, which is loaded as minus one; and an index of 33 bits, with zeros before it. -/
theorem numerals_denote_of_bits :
    let s := ofChars "a" "cmp 007 0XfFFFFFFFFFFFFFFF\n".toList
    let t : Token := ⟨.integer, "-1", ⟨"a", 1, 9⟩⟩
    let s' := ofChars "a" "jmp $004294967296".toList
    let t' : Token := ⟨.register, "004294967296", ⟨"a", 1, 5⟩⟩
    s.HasNumeral t (.hex 'X' "fFFFFFFFFFFFFFFF".toList) ∧ s.parse.nodesAt t.location = [.integer (-1)] ∧
      (∃ a id i, (s.assemble {}).1 = .ok a ∧ s.Emits a id i ∧ a.Loads (-1) i) ∧
      s'.HasNumeral t' (.register "004294967296".toList) ∧ s'.parse.nodesAt t'.location = [] ∧
      s'.parse.illegalAt t'.location =
        [⟨.error, .illegalExpression, ⟨"a", 1, 5⟩, some "REGISTER index '004294967296' out of range"⟩] := by
  intro s t s' t'
  have h : s.HasNumeral t (.hex 'X' "fFFFFFFFFFFFFFFF".toList) :=
    { operand := by decide +kernel
      isWritten := ⟨.inr rfl, by decide, List.all_eq_true.1 rfl⟩
      text := ⟨"cmp 007 ".toList, ['\n'], rfl, rfl, by simp [Apart, Text.isBlank]⟩ }
  have h' : s'.HasNumeral t' (.register "004294967296".toList) :=
    { operand := by decide +kernel
      isWritten := ⟨by decide, List.all_eq_true.1 rfl⟩
      text := ⟨"jmp ".toList, [], rfl, rfl, apart_nil⟩ }
  have hkind : (Numeral.hex 'X' "fFFFFFFFFFFFFFFF".toList).kind? = some (.integer (-1)) := by decide +kernel
  have hreport : (Numeral.register "004294967296".toList).kind? = none ∧
      (Numeral.register "004294967296".toList).report? t'.location =
        some ⟨.error, .illegalExpression, ⟨"a", 1, 5⟩, some "REGISTER index '004294967296' out of range"⟩ := by decide +kernel
  obtain ⟨a, hok⟩ : ∃ a, (s.assemble {}).1 = .ok a := exists_eq_ok (by decide +kernel)
  obtain ⟨hnodes, -, -, -, -, -, hassembled⟩ := numerals_denote h
  obtain ⟨hnodes', hillegal', -⟩ := numerals_denote h'
  rw [hkind] at hnodes hassembled
  rw [hreport.1] at hnodes'
  rw [hreport.2] at hillegal'
  obtain ⟨k, hk, hloads⟩ := hassembled {} a hok
  cases hk
  obtain ⟨id, i, -, hemits, hloads⟩ := hloads _ rfl
  exact ⟨h, hnodes, ⟨a, id, i, hok, hemits, hloads⟩, h', hnodes', hillegal'⟩

end Source

end Assembler
