import Mathlib.Data.List.Induction
import Mathlib.Data.Nat.Digits.Defs
import Assembler.Proofs.Clauses
/-!
# Clauses that are printed and read again

A program prints its terms in a form of its own: numbers in base ten without leading zeros, text with
escapes, and the body of a directive with a blank after each token. What is printed of a clause is read as
the tokens of a sentence of that clause (`Clause.IsPrintable.lexed`), if no integer in it is negative.
-/

namespace Assembler

/-! ## Numbers -/

namespace Text

theorem digitValue_digitChar {d : Nat} (h : d < 16) : digitValue (Nat.digitChar d) = d := by
  have hall : ∀ d < 16, digitValue (Nat.digitChar d) = d := by decide
  exact hall d h

theorem isHexDigit_digitChar {d : Nat} (h : d < 16) : isHexDigit (Nat.digitChar d) := by
  have hall : ∀ d < 16, isHexDigit (Nat.digitChar d) := by decide
  exact hall d h

theorem numberOf_concat (base : Nat) (digits : List Char) (c : Char) :
    numberOf base (digits ++ [c]) = numberOf base digits * base + digitValue c := by
  simp [numberOf]

theorem digitValue_lt (c : Char) : digitValue c < 16 := by
  have hdigit : c.isDigit ↔ 48 ≤ c.toNat ∧ c.toNat ≤ 57 := Char.isDigit_iff_toNat
  have hbetween (a b : Char) : (a ≤ c && c ≤ b) = true ↔ a.toNat ≤ c.toNat ∧ c.toNat ≤ b.toNat := by
    rw [Bool.and_eq_true, decide_eq_true_iff, decide_eq_true_iff]
    exact Iff.rfl
  unfold digitValue
  simp only [hbetween, hdigit, Char.reduceToNat]
  split_ifs <;> omega

/-- The number that digits make up, each by its place. -/
def positional (base : Nat) (digits : List Char) : Nat := Nat.ofDigits base (digits.reverse.map digitValue)

theorem numberOf_eq_positional (base : Nat) (digits : List Char) : numberOf base digits = positional base digits := by
  induction digits using List.reverseRecOn with
  | nil => rfl
  | append_singleton digits c ih =>
    rw [numberOf_concat, ih, positional, positional, List.reverse_concat, List.map_cons, Nat.ofDigits_cons]
    rw [Nat.mul_comm, Nat.add_comm]

theorem positional_lt (digits : List Char) : positional 16 digits < 16 ^ digits.length := by
  have hlt := Nat.ofDigits_lt_base_pow_length (b := 16) (l := digits.reverse.map digitValue) (by omega) (by
    intro d hd
    obtain ⟨c, -, rfl⟩ := List.mem_map.1 hd
    exact digitValue_lt c)
  simpa [positional] using hlt

section Digits
variable {base : Nat} (hbase : 1 < base) (hle : base ≤ 16)
include hbase hle

/-- The digits of a number denote it. -/
theorem numberOf_toDigits (n : Nat) : numberOf base (Nat.toDigits base n) = n := by
  induction n using Nat.strongRecOn with
  | ind n ih =>
    rw [Nat.toDigits_eq_if hbase]
    split
    · rename_i hlt
      simpa [numberOf] using digitValue_digitChar (hlt.trans_le hle)
    · have hpos : 0 < base := Nat.zero_lt_of_lt hbase
      have hsmaller : n / base < n := Nat.div_lt_self (by omega) hbase
      rw [numberOf_concat, ih _ hsmaller, digitValue_digitChar ((Nat.mod_lt n hpos).trans_le hle), Nat.mul_comm]
      exact Nat.div_add_mod n base

theorem isHexDigit_of_mem_toDigits {n : Nat} : ∀ c ∈ Nat.toDigits base n, isHexDigit c := by
  induction n using Nat.strongRecOn with
  | ind n ih =>
    rw [Nat.toDigits_eq_if hbase]
    split
    · rename_i hlt
      simpa using isHexDigit_digitChar (hlt.trans_le hle)
    · have hpos : 0 < base := Nat.zero_lt_of_lt hbase
      have hlast := isHexDigit_digitChar ((Nat.mod_lt n hpos).trans_le hle)
      have hmore := ih _ (Nat.div_lt_self (by omega) hbase)
      intro c hc
      rcases List.mem_append.1 hc with hc | hc
      · exact hmore c hc
      · rw [List.mem_singleton.1 hc]
        exact hlast

end Digits

theorem signedNumber?_of_isDecimal {s : String} (h : isDecimal s.toList) :
    signedNumber? s = some (false, numberOf 10 s.toList) := by
  obtain ⟨c, digits, hs, hdigits⟩ := isDecimal_iff.1 h
  have hsign : c ≠ '+' ∧ c ≠ '-' := by
    have hc := hdigits c List.mem_cons_self
    constructor <;> (rintro rfl; revert hc; decide)
  have hall : (c :: digits).all Char.isDigit = true := List.all_eq_true.2 hdigits
  unfold signedNumber?
  rw [hs]
  simp [hsign, hall]

/-- A number that is written without a sign is read as it is, if it is in range. -/
theorem int64?_decimal {v : Int64} {n : Nat} (h : v.toInt = n) : int64? (decimal n) = some v := by
  have hn : numberOf 10 (decimal n).toList = n := by
    rw [decimal, String.toList_ofList]
    exact numberOf_toDigits (by decide) (by decide) n
  have hlt := v.toInt_lt
  rw [int64?, signedNumber?_of_isDecimal (isDecimal_decimal n), hn]
  dsimp only
  rw [if_pos (by simp [UInt64.size]; omega), ← h, Int64.ofInt_toInt]

theorem uint32?_decimal (i : UInt32) : uint32? (decimal i.toNat) = some i := by
  have hn : numberOf 10 (decimal i.toNat).toList = i.toNat := by
    rw [decimal, String.toList_ofList]
    exact numberOf_toDigits (by decide) (by decide) _
  rw [uint32?, signedNumber?_of_isDecimal (isDecimal_decimal _), hn]
  dsimp only
  rw [if_pos i.toNat_lt, UInt32.ofNat_toNat]

/-- Only a number with a sign is read as negative. -/
theorem toInt_nonneg_of_isDecimal {s : String} {v : Int64} (h : int64? s = some v) (hs : isDecimal s.toList) :
    0 ≤ v.toInt := by
  rw [int64?, signedNumber?_of_isDecimal hs] at h
  dsimp only at h
  split at h
  · rename_i hlt
    cases h
    rw [Int64.toInt_ofInt_of_le (by omega) (by simp [UInt64.size] at hlt; omega)]
    exact Int.natCast_nonneg _
  · cases h

theorem int64?_of_isLargeHex {s : String} (h : isLargeHex s.toList) : int64? s = none := by
  unfold isLargeHex at h
  split at h
  · rename_i digits hs
    have hx : 'x'.isDigit = false := by decide
    simp [int64?, signedNumber?, hs, hx]
  · cases h

end Text

/-! ## Quoted text -/

theorem charOfCode_toNat (c : Char) : charOfCode c.toNat = c := by
  have hvalid : c.toNat.isValidChar := c.valid
  rw [charOfCode, if_pos hvalid, Char.ofNat_toNat]

/-- A code between braces is read as its character. -/
theorem readEscape_code (c : Char) (rest : List Char) :
    (readEscape ('u' :: '\x7b' :: (Nat.toDigits 16 c.toNat ++ '\x7d' :: rest))).value = [c] ∧
      (readEscape ('u' :: '\x7b' :: (Nat.toDigits 16 c.toNat ++ '\x7d' :: rest))).rest = rest := by
  have hdigits : ∀ d ∈ Nat.toDigits 16 c.toNat, Text.isHexDigit d :=
    Text.isHexDigit_of_mem_toDigits (by decide) (by decide)
  have hclosing : Text.isHexDigit '\x7d' = false := by decide
  have hnumber : Text.numberOf 16 (Nat.toDigits 16 c.toNat) = c.toNat :=
    Text.numberOf_toDigits (by decide) (by decide) _
  simp [readEscape, List.takeWhile_append_of_pos hdigits, List.dropWhile_append_of_pos hdigits, hclosing,
    charOfCode_saturatedCode, hnumber, charOfCode_toNat]

theorem Text.escapes_escapeChar : Escapes Text.escapeChar := by
  intro c s
  unfold Text.escapeChar
  split
  case h_7 hzero htab hreturn hnewline hquote hbackslash =>
    split
    · obtain ⟨hvalue, hrest⟩ := readEscape_code c s
      have hcode : ['\\', 'u', '\x7b'] ++ Nat.toDigits 16 c.toNat ++ ['\x7d'] ++ s =
          '\\' :: 'u' :: '\x7b' :: (Nat.toDigits 16 c.toNat ++ '\x7d' :: s) := by simp
      rw [hcode, readString]
      simp [Stretch.followedBy, hvalue, hrest]
    · have hplain : c ≠ '"' ∧ c ≠ '\\' ∧ c ≠ '\n' := ⟨hquote, hbackslash, hnewline⟩
      rw [List.singleton_append, readString]
      simp [hplain, Stretch.followedBy]
  all_goals simp [readString, readEscape, simpleEscape, Stretch.followedBy]

theorem Text.lexed_quoted (value : String) (rest : List Char) :
    lexed ((Text.quoted value).toList ++ rest) = (.string, value) :: lexed rest := by
  have htext : (Text.quoted value).toList ++ rest = '"' :: (value.toList.flatMap Text.escapeChar ++ '"' :: rest) := by
    simp [Text.quoted]
  rw [htext, Assembler.lexed_quoted Text.escapes_escapeChar, String.ofList_toList]

/-! ## Terms -/

namespace Node.Kind

/-- A term as it is printed. -/
def text (k : Kind) : String := Program.kindText (fun _ => "") k

/-- The token that a term is printed as. -/
def token : Kind → Token
  | identifier name _ => ⟨.identifier, name, {}⟩
  | integer value => ⟨.integer, Text.signed value.toInt, {}⟩
  | string value => ⟨.string, value, {}⟩
  | slot .localSlot index => ⟨.localSlot, Text.decimal index.toNat, {}⟩
  | slot _ index => ⟨.register, Text.decimal index.toNat, {}⟩
  | _ => default

/-- A term that is printed as a token: a name, a string, a number that is not negative, or a slot. -/
inductive IsPrintable : Kind → Prop
  | identifier {name : String} (hname : isName name.toList) : IsPrintable (.identifier name none)
  | integer {value : Int64} (hvalue : 0 ≤ value.toInt) : IsPrintable (.integer value)
  | string (value : String) : IsPrintable (.string value)
  | register (index : UInt32) : IsPrintable (.slot .register index)
  | localSlot (index : UInt32) : IsPrintable (.slot .localSlot index)

namespace IsPrintable

variable {k : Kind}

theorem exists_toInt_eq {value : Int64} (h : 0 ≤ value.toInt) :
    ∃ n : Nat, value.toInt = n ∧ Text.signed value.toInt = Text.decimal n := by
  obtain ⟨n, hn⟩ := Int.eq_ofNat_of_zero_le h
  exact ⟨n, hn, by rw [hn]; rfl⟩

/-- The printed token says the term. -/
theorem leaf?_token (h : k.IsPrintable) : k.token.leaf? = some k := by
  cases h with
  | identifier | string => rfl
  | integer hvalue =>
    obtain ⟨n, hn, htext⟩ := exists_toInt_eq hvalue
    simp [token, Token.leaf?, htext, Text.int64?_decimal hn]
  | register | localSlot => simp [token, Token.leaf?, Text.uint32?_decimal]

/-- What is printed of a term is read as its token. -/
theorem lexed (h : k.IsPrintable) {rest : List Char} (hrest : Apart rest) :
    lexed (k.text.toList ++ rest) = k.token.said :: Assembler.lexed rest := by
  cases h with
  | identifier hname => simpa [text, Program.kindText, token, Token.said] using lexed_identifier hname hrest
  | integer hvalue =>
    obtain ⟨n, hn, htext⟩ := exists_toInt_eq hvalue
    simpa [text, Program.kindText, token, Token.said, htext] using lexed_decimal (isDecimal_decimal n) hrest
  | string value => exact Text.lexed_quoted value rest
  | register index =>
    simpa [text, Program.kindText, token, Token.said] using lexed_register (isDecimal_decimal index.toNat) hrest
  | localSlot index =>
    simpa [text, Program.kindText, token, Token.said] using lexed_localSlot (isDecimal_decimal index.toNat) hrest

end IsPrintable

end Node.Kind

/-- What a well-formed token says can be printed. -/
theorem Token.isPrintable_of_leaf? {t : Token} {k : Node.Kind} (h : t.leaf? = some k) (ht : t.isWellFormed) : k.IsPrintable := by
  unfold leaf? at h
  unfold isWellFormed at ht
  split at h
  · rename_i hkind
    cases h
    simp only [hkind] at ht
    exact .identifier ht
  · cases h
    exact .string _
  · rename_i hkind
    obtain ⟨v, hv, rfl⟩ := Option.map_eq_some_iff.1 h
    simp only [hkind, Bool.or_eq_true] at ht
    rcases ht with ht | ht
    · exact .integer (Text.toInt_nonneg_of_isDecimal hv ht)
    · rw [Text.int64?_of_isLargeHex ht] at hv
      cases hv
  · obtain ⟨_, -, rfl⟩ := Option.map_eq_some_iff.1 h
    exact .register _
  · obtain ⟨_, -, rfl⟩ := Option.map_eq_some_iff.1 h
    exact .localSlot _
  · cases h

theorem Token.IsMnemonic.of_token {t : Token} {k : Node.Kind} (h : t.leaf? = some k) (hk : k.token.IsMnemonic) : t.IsMnemonic := by
  obtain ⟨hkind, hvalue⟩ := hk
  unfold leaf? at h
  split at h
  · rename_i ht
    cases h
    exact ⟨ht, hvalue⟩
  · cases h
    cases hkind
  · obtain ⟨_, -, rfl⟩ := Option.map_eq_some_iff.1 h
    cases hkind
  · obtain ⟨_, -, rfl⟩ := Option.map_eq_some_iff.1 h
    cases hkind
  · obtain ⟨_, -, rfl⟩ := Option.map_eq_some_iff.1 h
    cases hkind
  · cases h

/-! ## Clauses -/

theorem Token.isEmpty_spelling (ts : List Token) : (spelling ts).isEmpty = ts.isEmpty := by
  cases ts with
  | nil => rfl
  | cons t ts =>
    rw [List.isEmpty_cons, Bool.eq_false_iff, ne_eq, String.isEmpty_iff]
    intro hempty
    have hlist := congrArg String.toList hempty
    rw [toList_spelling_cons] at hlist
    simp at hlist

namespace Clause

/-- A body as it is printed, if it is not empty. -/
def bodyText (body : String) : String := if body.isEmpty then "" else " \x7b " ++ body ++ "\x7d"

/-- The tokens that a body is printed as. -/
def braced (inside : List Token) : Option Braced :=
  if inside.isEmpty then none else some ⟨⟨.openBrace, "\x7b", {}⟩, inside, ⟨.closeBrace, "\x7d", {}⟩⟩

/-- A clause as it is printed. -/
def text : Clause → String
  | label name => name ++ ":"
  | directive name terms body => "." ++ name ++ String.join (terms.map fun k => " " ++ k.text) ++ bodyText body
  | jump condition target => condition.mnemonic ++ " " ++ target.text
  | compare left right => "cmp " ++ left.text ++ " " ++ right.text
  | bare term => term.text

/-- The sentence that a clause is printed as, with the tokens in its body. A body without tokens is not printed. -/
def sentence : Clause → List Token → Sentence
  | label name, _ => .label ⟨.label, name, {}⟩
  | directive name terms _, inside =>
    .directive ⟨.directive, name, {}⟩ (terms.map (·.token)) (braced inside)
  | jump condition target, _ => .jump condition ⟨.identifier, condition.mnemonic, {}⟩ target.token
  | compare left right, _ => .compare ⟨.identifier, compareMnemonic, {}⟩ left.token right.token
  | bare term, _ => .bare term.token

/-- A clause whose names and terms can be printed, with the tokens in its body. -/
inductive IsPrintable : Clause → List Token → Prop
  | label {name : String} (hname : isName name.toList) : IsPrintable (label name) []
  | directive {name : String} {terms : List Node.Kind} {inside : List Token} (hname : isName name.toList)
      (hterms : ∀ k ∈ terms, k.IsPrintable) (hcount : terms.length ≤ maxArguments) (hnested : Braced.isNested 0 inside)
      (hinside : ∀ t ∈ inside, t.isWellFormed) : IsPrintable (directive name terms (Token.spelling inside)) inside
  | jump (condition : Condition) {target : Node.Kind} (htarget : target.IsPrintable) : IsPrintable (jump condition target) []
  | compare {left right : Node.Kind} (hleft : left.IsPrintable) (hright : right.IsPrintable) :
      IsPrintable (compare left right) []
  | bare {term : Node.Kind} (hterm : term.IsPrintable) (hmnemonic : ¬ term.token.IsMnemonic) : IsPrintable (bare term) []

end Clause

theorem Node.Kind.mapM_leaf?_token {terms : List Node.Kind} (h : ∀ k ∈ terms, k.IsPrintable) :
    (terms.map (·.token)).mapM Token.leaf? = some terms := by
  rw [mapM_eq_some_iff, List.forall₂_map_left_iff, List.forall₂_same]
  exact fun k hk => (h k hk).leaf?_token

namespace Clause.IsPrintable

variable {c : Clause} {inside : List Token}

theorem clause?_sentence (h : c.IsPrintable inside) : (c.sentence inside).clause? = some c := by
  cases h with
  | label => rfl
  | directive hname hterms hcount hnested hinside =>
    rw [sentence, Sentence.clause?, Node.Kind.mapM_leaf?_token hterms, Option.map_some]
    cases inside <;> rfl
  | jump condition htarget => rw [sentence, Sentence.clause?, htarget.leaf?_token, Option.map_some]
  | compare hleft hright => simp [sentence, Sentence.clause?, hleft.leaf?_token, hright.leaf?_token]
  | bare hterm => rw [sentence, Sentence.clause?, hterm.leaf?_token, Option.map_some]

theorem isLegal_sentence (h : c.IsPrintable inside) : (c.sentence inside).IsLegal Token.IsLeaf := by
  have hleaf {k : Node.Kind} (hk : k.IsPrintable) : k.token.IsLeaf := by rw [Token.IsLeaf, hk.leaf?_token]; rfl
  cases h with
  | label => exact rfl
  | directive hname hterms hcount hnested hinside =>
    refine ⟨rfl, ?_, by rwa [List.length_map], ?_⟩
    · intro t ht
      obtain ⟨k, hk, rfl⟩ := List.mem_map.1 ht
      exact hleaf (hterms k hk)
    · intro b hb
      unfold braced at hb
      split at hb
      · cases hb
      · cases hb
        exact ⟨rfl, hnested, rfl⟩
  | jump condition htarget => exact ⟨rfl, rfl, hleaf htarget⟩
  | compare hleft hright => exact ⟨rfl, rfl, hleaf hleft, hleaf hright⟩
  | bare hterm hmnemonic => exact ⟨hleaf hterm, hmnemonic⟩

end Clause.IsPrintable

/-! ## Printed clauses are read again -/

section Written
variable {rest : List Char}

theorem apart_terms (terms : List Node.Kind) (hrest : Apart rest) :
    Apart (terms.flatMap (fun k => ' ' :: k.text.toList) ++ rest) := by
  cases terms with
  | nil => exact hrest
  | cons k terms => exact apart_blank _

theorem lexed_terms {terms : List Node.Kind} (h : ∀ k ∈ terms, k.IsPrintable) (hrest : Apart rest) :
    lexed (terms.flatMap (fun k => ' ' :: k.text.toList) ++ rest) = (terms.map (·.token)).map Token.said ++ lexed rest := by
  induction terms with
  | nil => rfl
  | cons k terms ih =>
    obtain ⟨hk, hterms⟩ := List.forall_mem_cons.1 h
    rw [List.flatMap_cons, List.append_assoc, List.cons_append, lexed_blank, hk.lexed (apart_terms terms hrest), ih hterms,
      List.map_cons, List.map_cons, List.cons_append]

theorem Clause.toList_bodyText (inside : List Token) : (bodyText (Token.spelling inside)).toList =
    if inside.isEmpty then [] else ' ' :: '\x7b' :: ' ' :: ((Token.spelling inside).toList ++ ['\x7d']) := by
  rw [bodyText, Token.isEmpty_spelling]
  split <;> simp

theorem Clause.apart_bodyText (inside : List Token) (hrest : Apart rest) :
    Apart ((bodyText (Token.spelling inside)).toList ++ rest) := by
  rw [toList_bodyText]
  split
  · exact hrest
  · exact apart_blank _

theorem Clause.lexed_bodyText {inside : List Token} (h : ∀ t ∈ inside, t.isWellFormed) (rest : List Char) :
    lexed ((bodyText (Token.spelling inside)).toList ++ rest) =
      (((braced inside).map Braced.tokens).getD []).map Token.said ++ lexed rest := by
  rw [toList_bodyText, braced]
  split
  · rfl
  · simp only [List.cons_append, List.append_assoc, List.nil_append]
    rw [lexed_blank, lexed_punctuation rfl, lexed_blank, lexed_spelling_append h, lexed_punctuation rfl]
    simp [Braced.tokens, Token.said]

end Written

theorem Condition.isName_mnemonic (condition : Condition) : isName condition.mnemonic.toList := by
  cases condition <;> decide

namespace Clause.IsPrintable

variable {c : Clause} {inside : List Token}

/-- What is printed of a clause is read as the tokens of its sentence. -/
theorem lexed (h : c.IsPrintable inside) {rest : List Char} (hrest : Apart rest) :
    lexed (c.text.toList ++ rest) = (c.sentence inside).tokens.map Token.said ++ Assembler.lexed rest := by
  cases h with
  | label hname => simpa [text, sentence, Sentence.tokens, Token.said] using lexed_label hname
  | @directive name terms inside hname hterms hcount hnested hinside =>
    have htext : (Clause.directive name terms (Token.spelling inside)).text.toList ++ rest =
        '.' :: (name.toList ++ (terms.flatMap (fun k => ' ' :: k.text.toList) ++
          ((bodyText (Token.spelling inside)).toList ++ rest))) := by
      simp [text, String.toList_join, List.flatMap_map]
    have hbody := apart_bodyText inside hrest
    rw [htext, lexed_directive hname (apart_terms terms hbody), lexed_terms hterms hbody, lexed_bodyText hinside]
    simp [sentence, Sentence.tokens, Token.said]
  | @jump condition target htarget =>
    have htext : (Clause.jump condition target).text.toList ++ rest =
        condition.mnemonic.toList ++ ' ' :: (target.text.toList ++ rest) := by
      simp [text]
    rw [htext, lexed_identifier condition.isName_mnemonic (apart_blank _), lexed_blank, htarget.lexed hrest, String.ofList_toList]
    rfl
  | @compare left right hleft hright =>
    have htext : (Clause.compare left right).text.toList ++ rest =
        compareMnemonic.toList ++ ' ' :: (left.text.toList ++ ' ' :: (right.text.toList ++ rest)) := by
      simp [text, compareMnemonic]
    rw [htext, lexed_identifier (by decide) (apart_blank _), lexed_blank, hleft.lexed (apart_blank _), lexed_blank,
      hright.lexed hrest, String.ofList_toList]
    rfl
  | bare hterm => exact hterm.lexed hrest

end Clause.IsPrintable

/-! ## Sentences that can be printed -/

theorem Token.isName_of_isWellFormed {t : Token} (h : t.isWellFormed) (hkind : t.kind = .label ∨ t.kind = .directive) :
    isName t.value.toList := by
  rcases hkind with hkind | hkind <;> simpa [isWellFormed, hkind] using h

/-- The clause of a sentence of well-formed tokens can be printed. -/
theorem Sentence.isPrintable {s : Sentence} {c : Clause} (hs : s.IsLegal Token.IsLeaf) (hc : s.clause? = some c)
    (hown : ∀ t ∈ s.ownTokens, t.isWellFormed) (hinside : ∀ t ∈ s.inside, t.isWellFormed) : c.IsPrintable s.inside := by
  cases s with
  | label name =>
    cases hc
    exact .label (Token.isName_of_isWellFormed (hown name List.mem_cons_self) (.inl hs))
  | directive name terms body =>
    obtain ⟨hkind, -, hcount, hbody⟩ := hs
    obtain ⟨kinds, hkinds, rfl⟩ := Option.map_eq_some_iff.1 hc
    have hname : name ∈ (directive name terms body).ownTokens := by cases body <;> exact List.mem_cons_self
    have hterms : ∀ t ∈ terms, t.isWellFormed := by
      intro t ht
      refine hown t ?_
      cases body <;> simp [ownTokens, tokens, ht]
    have hprintable : ∀ k ∈ kinds, k.IsPrintable := by
      intro k hk
      obtain ⟨t, ht, htk⟩ := (mem_mapM_iff hkinds).1 hk
      exact Token.isPrintable_of_leaf? htk (hterms t ht)
    have hnested : Braced.isNested 0 (directive name terms body).inside := by
      cases body with
      | none => rfl
      | some b => exact (hbody b rfl).inside
    rw [bodyText_eq_spelling name terms body]
    exact .directive (Token.isName_of_isWellFormed (hown name hname) (.inr hkind)) hprintable
      (length_mapM hkinds ▸ hcount) hnested hinside
  | jump condition mnemonic target =>
    obtain ⟨k, hk, rfl⟩ := Option.map_eq_some_iff.1 hc
    exact .jump condition (Token.isPrintable_of_leaf? hk (hown target (by simp [ownTokens, tokens])))
  | compare mnemonic left right =>
    obtain ⟨k, hk, hc⟩ := Option.bind_eq_some_iff.1 hc
    obtain ⟨k', hk', hc⟩ := Option.bind_eq_some_iff.1 hc
    cases hc
    exact .compare (Token.isPrintable_of_leaf? hk (hown left (by simp [ownTokens, tokens])))
      (Token.isPrintable_of_leaf? hk' (hown right (by simp [ownTokens, tokens])))
  | bare term =>
    obtain ⟨k, hk, rfl⟩ := Option.map_eq_some_iff.1 hc
    have hprintable := Token.isPrintable_of_leaf? hk (hown term List.mem_cons_self)
    exact .bare hprintable fun hmnemonic => hs.2 (Token.IsMnemonic.of_token hk hmnemonic)

/-! ## Lines -/

theorem apart_newline (rest : List Char) : Apart ('\n' :: rest) := by simp [Apart, Text.isBlank]

/-- Clauses that are printed, one on each line, are read as sentences of these clauses. -/
theorem Clause.exists_layout_of_text {cs : List Clause} (h : ∀ c ∈ cs, ∃ inside, c.IsPrintable inside) :
    ∃ ts ss, lexed ("\n".intercalate (cs.map text)).toList = ts.map Token.said ∧ Layout Token.IsLeaf ts ss ∧
      List.Forall₂ (fun s c => s.clause? = some c) ss cs := by
  induction cs with
  | nil => exact ⟨[], [], by simpa using lexed_nil, .nil, .nil⟩
  | cons c cs ih =>
    obtain ⟨⟨inside, hc⟩, hcs⟩ := List.forall_mem_cons.1 h
    obtain ⟨ts, ss, hlexed, hlayout, hclauses⟩ := ih hcs
    cases cs with
    | nil =>
      refine ⟨(c.sentence inside).tokens ++ [], [c.sentence inside], ?_, .sentence hc.isLegal_sentence (by simp [EndsLine]) .nil,
        .cons hc.clause?_sentence .nil⟩
      have htokens := hc.lexed apart_nil
      rw [lexed_nil] at htokens
      simpa using htokens
    | cons c' cs =>
      refine ⟨(c.sentence inside).tokens ++ ⟨.newline, "\n", {}⟩ :: ts, c.sentence inside :: ss, ?_, ?_,
        .cons hc.clause?_sentence hclauses⟩
      · have htext : ("\n".intercalate ((c :: c' :: cs).map text)).toList =
            c.text.toList ++ '\n' :: ("\n".intercalate ((c' :: cs).map text)).toList := by
          simp [String.toList_intercalate]
        rw [htext, hc.lexed (apart_newline _), lexed_newline, hlexed, List.map_append, List.map_cons]
        rfl
      · exact .sentence hc.isLegal_sentence (by simp [EndsLine, Token.isNewline]) (.newline rfl hlayout)

end Assembler
