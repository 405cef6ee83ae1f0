import Assembler.Proofs.Unambiguous
import Assembler.Proofs.Bindings
/-!
# Bodies that are read again

The body of a directive is kept as text. All tokens of a source but a last one that is left open are
well formed, or integers that were written in base sixteen and are negative (`Lexeme.isLegible_of_mem_dropLast`).
A negative integer is read again as a minus sign and a number, all others as what they were. So the
text of a body reads as the tokens that stood there, if none of them is negative
(`Source.body_read_again_iff`).
-/

namespace Assembler

/-! ## Negative integers -/

namespace Token

/-- Whether a token is an integer with a minus sign, which is no token of its own. -/
def isNegative (t : Token) : Bool :=
  match t.kind, t.value.toList with
  | .integer, '-' :: digits => isDecimal digits
  | _, _ => false

/-- What can be read again, though a negative integer as two tokens. -/
def IsLegible (t : Token) : Prop := t.isWellFormed ∨ t.isNegative

end Token

theorem isDecimal_decimal (n : Nat) : isDecimal (Text.decimal n).toList := by
  have hne : Nat.toDigits 10 n ≠ [] := Nat.toDigits_ne_nil
  have hall : ∀ c ∈ Nat.toDigits 10 n, c.isDigit := fun c hc => Nat.isDigit_of_mem_toDigits (by decide) (by decide) hc
  simpa [isDecimal, Text.decimal, hne] using hall

section Runs
variable {c : Char}

theorem isName_takeWhile (hc : isIdentifierStart c) (rest : List Char) : isName ((c :: rest).takeWhile isIdentifierPart) := by
  have hpart : isIdentifierPart c := by simp [isIdentifierPart, hc]
  rw [List.takeWhile_cons_of_pos hpart]
  simp [isName, hc]

theorem isDecimal_takeWhile (hc : c.isDigit) (rest : List Char) : isDecimal ((c :: rest).takeWhile Char.isDigit) := by
  rw [List.takeWhile_cons_of_pos hc]
  simp [isDecimal, hc]

end Runs

/-- The value of what stands between braces is its text but for the closing brace, or all of it and there is no more. -/
theorem readBraced_value (depth : Nat) (s : List Char) :
    isBraced depth (readBraced depth s).value ∧ (readBraced depth s).text = (readBraced depth s).value ++ ['\x7d'] ∨
      (readBraced depth s).text = (readBraced depth s).value ∧ (readBraced depth s).rest = [] := by
  unfold isBraced
  fun_induction readBraced depth s with
  | case1 => exact .inr ⟨rfl, rfl⟩
  | case2 depth rest ih => simpa [isPaired, Stretch.followedBy] using ih
  | case3 => simp [isPaired]
  | case4 rest hc depth ih => simpa [isPaired, Stretch.followedBy] using ih
  | case5 depth c rest ho hc ih => simpa [isPaired, Stretch.followedBy, ho, hc] using ih

/-! ## Lexemes are legible -/

/-- After trivia comes neither a blank nor a comment. -/
theorem Trivia.not_begins_of_rest {s rest : List Char} {c : Char} (h : (read s).rest = c :: rest) :
    Text.isInlineBlank c = false ∧ c ≠ ';' := by
  have hfrom (m : Mode) (s : List Char) (h : (readFrom m s).rest = c :: rest) : Text.isInlineBlank c = false ∧ c ≠ ';' := by
    fun_induction readFrom m s with
    | case1 | case7 | case10 => cases h
    | case6 d s hslash hstar hblank hsemicolon =>
      cases h
      exact ⟨by simpa using hblank, hsemicolon⟩
    | case8 s =>
      cases h
      decide
    | _ => simp_all [prepend]
  exact hfrom .blank s h

namespace Lexeme

/-- What a lexeme says, as a token at no place in particular. -/
def token (x : Lexeme) : Token := ⟨x.kind, String.ofList x.value, {}⟩

variable {c : Char}

theorem isLegible_readName (hc : isIdentifierStart c) (rest : List Char) : (readName (c :: rest)).token.IsLegible := by
  left
  have hname := isName_takeWhile hc rest
  unfold readName
  split
  · simpa [token, Token.isWellFormed] using hname
  · simpa [token, Token.isWellFormed] using hname

theorem isLegible_readDirective (rest : List Char) : (readDirective '.' rest).token.IsLegible := by
  left
  unfold readDirective
  split
  · split
    · rename_i d rest hd
      simpa [token, Token.isWellFormed] using isName_takeWhile hd rest
    · simp only [token, single, Token.isWellFormed, String.toList_ofList]
      decide
  · decide

theorem isLegible_readSlot {kind : Token.Kind} (hkind : kind = .register ∨ kind = .localSlot) {mark : Char}
    (hmark : isStray [mark]) (rest : List Char) : (readSlot kind mark rest).token.IsLegible := by
  left
  unfold readSlot
  split
  · split
    · rename_i d rest hd
      rcases hkind with rfl | rfl
      · simpa [token, Token.isWellFormed] using isDecimal_takeWhile hd rest
      · simpa [token, Token.isWellFormed] using isDecimal_takeWhile hd rest
    · simpa [token, single, Token.isWellFormed] using hmark
  · simpa [token, single, Token.isWellFormed] using hmark

/-- A lexeme that is an interpolation and goes on to the end of the text. -/
def IsOpen (x : Lexeme) : Prop := x.kind = .interpolation ∧ x.rest = []

theorem isLegible_readDollar (rest : List Char) : (readDollar '$' rest).token.IsLegible ∨ (readDollar '$' rest).IsOpen := by
  unfold readDollar
  split
  · rename_i body
    refine (readBraced_value 0 body).imp (fun h => .inl ?_) fun h => ⟨rfl, h.2⟩
    simpa [token, Token.isWellFormed] using h.1
  · exact .inl (isLegible_readSlot (.inl rfl) (by decide) rest)

theorem isLegible_hexValue {digits : List Char} (hdigits : ∀ c ∈ digits, Text.isHexDigit c) :
    (⟨.integer, String.ofList (hexValue digits).1, {}⟩ : Token).IsLegible := by
  unfold hexValue
  dsimp only
  split
  · cases (Int64.ofNat (Text.numberOf 16 digits)).toInt with
    | ofNat n =>
      left
      simpa [Token.isWellFormed, Text.signed] using .inl (isDecimal_decimal n)
    | negSucc n =>
      right
      simpa [Token.isNegative, Text.signed] using isDecimal_decimal (n + 1)
  · left
    simp only [Token.isWellFormed, String.toList_ofList, isLargeHex, Bool.or_eq_true, Bool.and_eq_true, List.all_eq_true,
      decide_eq_true_eq]
    exact .inr ⟨hdigits, by omega⟩

theorem isLegible_readNumber (hc : c.isDigit) (rest : List Char) : (readNumber (c :: rest)).token.IsLegible := by
  have hdecimal : (readNumber.decimal (c :: rest)).token.IsLegible := by
    left
    simpa [token, readNumber.decimal, Token.isWellFormed] using .inl (isDecimal_takeWhile hc rest)
  unfold readNumber
  split
  · split
    · exact isLegible_hexValue fun d hd => List.mem_takeWhile_imp hd
    · exact hdecimal
  · exact hdecimal

/-- A lexeme is legible, but for an interpolation that is left open at the end of the text. -/
theorem isLegible_read {rest : List Char} (hblank : Text.isInlineBlank c = false) (hc : c ≠ ';') :
    (read c rest).token.IsLegible ∨ (read c rest).IsOpen := by
  unfold read
  split
  · exact .inl (.inl (by simp_all [token, single, Token.isWellFormed]))
  split
  · exact .inl (.inl rfl)
  split
  · exact .inl (isLegible_readNumber ‹_› rest)
  split
  · subst_vars
    exact .inl (isLegible_readDirective rest)
  split
  · subst_vars
    exact isLegible_readDollar rest
  split
  · subst_vars
    exact .inl (isLegible_readSlot (.inr rfl) (by decide) rest)
  split
  · exact .inl (isLegible_readName ‹_› rest)
  · refine .inl (.inl ?_)
    cases hkind : Token.Kind.ofPunctuation? c with
    | some kind =>
      have hcs := Token.Kind.mem_of_ofPunctuation? hkind
      have hwell : (⟨kind, String.ofList [c], {}⟩ : Token).isWellFormed := by
        fin_cases hcs <;> cases hkind <;> decide
      exact hwell
    | none =>
      have hstray : isStray [c] := by
        simp_all [isStray, Text.isInlineBlank]
      simpa [token, single, Token.isWellFormed] using hstray

theorem isLegible_of_mem (s : List Char) : ∀ x ∈ readAll s, x.token.IsLegible ∨ x.IsOpen := by
  fun_induction readAll s with
  | case1 => simp
  | case2 s c rest h hlt ih =>
    obtain ⟨hblank, hc⟩ := Trivia.not_begins_of_rest h
    exact List.forall_mem_cons.2 ⟨isLegible_read hblank hc, ih⟩

/-- Of the lexemes of a text only the last may be left open. -/
theorem isLegible_of_mem_dropLast (s : List Char) : ∀ x ∈ (readAll s).dropLast, x.token.IsLegible := by
  fun_induction readAll s with
  | case1 => simp
  | case2 s c rest h hlt ih =>
    intro x hx
    obtain ⟨hblank, hc⟩ := Trivia.not_begins_of_rest h
    cases hlater : readAll (read c rest).rest with
    | nil =>
      rw [hlater] at hx
      cases hx
    | cons y ys =>
      rw [hlater, List.dropLast_cons_cons, ← hlater] at hx
      rcases List.mem_cons.1 hx with rfl | hx
      · refine (isLegible_read hblank hc).resolve_right fun hopen => ?_
        rw [hopen.2, readAll_of_nil rfl] at hlater
        cases hlater
      · exact ih x hx

end Lexeme

theorem Token.isWellFormed_of_said {t t' : Token} (h : t.said = t'.said) : t.isWellFormed = t'.isWellFormed := by
  obtain ⟨kind, value, location⟩ := t
  obtain ⟨kind', value', location'⟩ := t'
  cases h
  rfl

theorem Token.isNegative_of_said {t t' : Token} (h : t.said = t'.said) : t.isNegative = t'.isNegative := by
  obtain ⟨kind, value, location⟩ := t
  obtain ⟨kind', value', location'⟩ := t'
  cases h
  rfl

theorem Token.isLegible_of_said {t t' : Token} (h : t.said = t'.said) (ht : t.IsLegible) : t'.IsLegible := by
  rwa [IsLegible, ← isWellFormed_of_said h, ← isNegative_of_said h]

theorem Lexer.exists_lexeme_of_mem (l : Lexer) {t : Token} (ht : t ∈ l.run.1) :
    ∃ x ∈ Lexeme.readAll l.rest, x.token.said = t.said := by
  have hsaid : t.said ∈ l.readAll.1.map Token.said := List.mem_map_of_mem ht
  rw [map_said_readAll] at hsaid
  exact List.mem_map.1 hsaid

/-- A token can be read again, unless it is an interpolation, which the end of the text may have left open. -/
theorem Lexer.isLegible_of_mem (l : Lexer) {t : Token} (ht : t ∈ l.run.1) (hkind : t.kind ≠ .interpolation) : t.IsLegible := by
  obtain ⟨x, hx, hsaid⟩ := l.exists_lexeme_of_mem ht
  refine Token.isLegible_of_said hsaid ((Lexeme.isLegible_of_mem l.rest x hx).resolve_right fun hopen => hkind ?_)
  exact (congrArg Prod.fst hsaid).symm.trans hopen.1

/-- Of the tokens of a text only the last may be left open. -/
theorem Lexer.isLegible_of_mem_dropLast (l : Lexer) : ∀ t ∈ l.run.1.dropLast, t.IsLegible := by
  intro t ht
  have hsaid : t.said ∈ (l.readAll.1.map Token.said).dropLast := by
    rw [← List.map_dropLast]
    exact List.mem_map_of_mem ht
  rw [map_said_readAll, ← List.map_dropLast] at hsaid
  obtain ⟨x, hx, heq⟩ := List.mem_map.1 hsaid
  have heq : x.token.said = t.said := heq
  exact Token.isLegible_of_said heq (Lexeme.isLegible_of_mem_dropLast l.rest x hx)

/-! ## Bodies are read again -/

/-- A minus sign is no part of a number. -/
theorem lexed_negative {t : Token} (h : t.isNegative) {rest : List Char} (hrest : Apart rest) :
    ∃ digits, lexed (t.repr.toList ++ rest) = (.unknown, "-") :: (.integer, digits) :: lexed rest := by
  unfold Token.isNegative at h
  split at h
  · rename_i digits hkind hvalue
    have hrepr : t.repr.toList = '-' :: digits := by simp [Token.repr, hkind, hvalue]
    have hminus : Lexeme.read '-' (digits ++ rest) = Lexeme.single .unknown '-' (digits ++ rest) [.unknownCharacter '-'] := rfl
    rw [hrepr, List.cons_append, lexed_of_begins (by decide) hminus]
    exact ⟨_, congrArg (_ :: ·) (lexed_decimal h hrest)⟩
  · cases h

theorem apart_blank (rest : List Char) : Apart (' ' :: rest) := by simp [Apart, Text.isBlank]

theorem lexed_blank (rest : List Char) : lexed (' ' :: rest) = lexed rest :=
  lexed_of_filler (.blank (by decide) .nil) rest

theorem Token.toList_spelling_cons (t : Token) (ts : List Token) :
    (spelling (t :: ts)).toList = t.repr.toList ++ ' ' :: (spelling ts).toList := by
  simp [spelling]

theorem lexed_spelling_cons {t : Token} (h : t.isWellFormed) (ts : List Token) :
    lexed (Token.spelling (t :: ts)).toList = t.said :: lexed (Token.spelling ts).toList := by
  rw [Token.toList_spelling_cons, lexed_repr_append h (apart_blank _), lexed_blank]

/-- Well-formed tokens are read again as they are, whatever comes after them. -/
theorem lexed_spelling_append {ts : List Token} (h : ∀ t ∈ ts, t.isWellFormed) (rest : List Char) :
    lexed ((Token.spelling ts).toList ++ rest) = ts.map Token.said ++ lexed rest := by
  induction ts with
  | nil => simp [Token.spelling]
  | cons t ts ih =>
    obtain ⟨ht, hts⟩ := List.forall_mem_cons.1 h
    rw [Token.toList_spelling_cons, List.append_assoc, List.cons_append, lexed_repr_append ht (apart_blank _), lexed_blank,
      ih hts, List.map_cons, List.cons_append]

theorem lexed_spelling {ts : List Token} (h : ∀ t ∈ ts, t.isWellFormed) :
    lexed (Token.spelling ts).toList = ts.map Token.said := by
  have hlexed := lexed_spelling_append h []
  rwa [List.append_nil, lexed_nil, List.append_nil] at hlexed

/-- Each negative integer among legible tokens is read again as two tokens. -/
theorem length_lexed_spelling {ts : List Token} (h : ∀ t ∈ ts, t.IsLegible) :
    (lexed (Token.spelling ts).toList).length = ts.length + ts.countP Token.isNegative := by
  induction ts with
  | nil => simp [Token.spelling, lexed_nil]
  | cons t ts ih =>
    obtain ⟨ht, hts⟩ := List.forall_mem_cons.1 h
    by_cases hneg : t.isNegative
    · obtain ⟨digits, hlexed⟩ := lexed_negative hneg (apart_blank (Token.spelling ts).toList)
      rw [Token.toList_spelling_cons, hlexed, lexed_blank, List.countP_cons_of_pos hneg]
      simp only [List.length_cons, ih hts]
      omega
    · rw [lexed_spelling_cons (ht.resolve_right hneg), List.countP_cons_of_neg hneg]
      simp only [List.length_cons, ih hts]
      omega

theorem lexed_spelling_eq_iff {ts : List Token} (h : ∀ t ∈ ts, t.IsLegible) :
    lexed (Token.spelling ts).toList = ts.map Token.said ↔ ∀ t ∈ ts, ¬ t.isNegative := by
  constructor
  · intro heq
    have hlength := length_lexed_spelling h
    rw [heq, List.length_map] at hlength
    exact List.countP_eq_zero.1 (by omega)
  · intro hneg
    exact lexed_spelling fun t ht => (h t ht).resolve_right (hneg t ht)

/-! ## Bodies of a source -/

theorem mem_dropLast_append {α : Type} {a : α} {l : List α} (h : a ∈ l.dropLast) (l' : List α) :
    a ∈ (l' ++ l).dropLast := by
  have hne : l ≠ [] := by
    rintro rfl
    cases h
  rw [List.dropLast_append_of_ne_nil hne]
  exact List.mem_append_right l' h

/-- The tokens of a sentence that are in its body. -/
def Sentence.inside : Sentence → List Token
  | directive _ _ (some body) => body.inside
  | _ => []

/-- After what is in a body comes the brace that closes it. -/
theorem Layout.mem_dropLast_of_inside {IsTerm : Token → Prop} {tokens : List Token} {ss : List Sentence}
    (h : Layout IsTerm tokens ss) : ∀ s ∈ ss, ∀ t ∈ s.inside, t ∈ tokens.dropLast := by
  induction h with
  | nil => simp
  | @newline u rest ss _ _ ih =>
    exact fun s hs t ht => mem_dropLast_append (ih s hs t ht) [u]
  | @sentence s rest ss _ _ _ ih =>
    intro s' hs' t ht
    rcases List.mem_cons.1 hs' with rfl | hs'
    · cases s' with
      | directive name terms body =>
        cases body with
        | none => cases ht
        | some b =>
          have htokens : (Sentence.directive name terms (some b)).tokens ++ rest =
              (name :: (terms ++ b.opening :: b.inside)) ++ b.closing :: rest := by
            simp [Sentence.tokens, Braced.tokens]
          rw [htokens, List.dropLast_append_of_ne_nil (by simp)]
          have ht' : t ∈ b.inside := ht
          simp [ht']
      | label | jump | compare | bare => cases ht
    · exact mem_dropLast_append (ih s' hs' t ht) s.tokens

theorem Sentence.bodyText_eq_spelling (name : Token) (terms : List Token) (body : Option Braced) :
    bodyText body = Token.spelling (directive name terms body).inside := by
  cases body <;> rfl

namespace Source

variable (s : Source)

/-- A source of which reading reports nothing is laid out in sentences, and its lines say what these say. -/
theorem exists_layout (h : s.parse.diagnostics = []) :
    ∃ ss, Layout Token.IsTerm s.tokens ss ∧ List.Forall₂ s.parse.program.Says ss s.lines := by
  obtain ⟨log, hparse⟩ := s.exists_parse_eq
  obtain ⟨log', hread⟩ := Workspace.exists_parse_eq log s.file s.tokens
  rw [hparse, hread] at h ⊢
  exact Draft.read_quiet (d := {}) h

theorem diagnostics_parse_of_assemble {settings : Settings} {a : Assembly} (h : (s.assemble settings).1 = .ok a) :
    s.parse.diagnostics = [] := by
  obtain ⟨added, hadded, -⟩ := s.exists_diagnostics_eq
  rw [s.diagnostics_of_assemble h] at hadded
  exact (List.append_eq_nil_iff.1 hadded.symm).1

/-- The body of each directive of an assembled source is read again as it stood there just if no integer in it is negative. -/
theorem body_read_again_iff {settings : Settings} {a : Assembly} (h : (s.assemble settings).1 = .ok a) :
    (∃ ss, Layout Token.IsTerm s.tokens ss) ∧ ∀ ss, Layout Token.IsTerm s.tokens ss →
      List.Forall₂ (fun sentence id => ∀ name terms body, sentence = .directive name terms body →
        ∃ arguments text, s.analyze.program.kind? id = some (.directive name.value arguments text) ∧
          ((Lexer.ofText s.file text.toList).run.1.map Token.said = sentence.inside.map Token.said ↔
            ∀ t ∈ sentence.inside, ¬ t.isNegative)) ss s.lines := by
  obtain ⟨ss', hlayout', hsay⟩ := s.exists_layout (s.diagnostics_parse_of_assemble h)
  refine ⟨⟨ss', hlayout'⟩, fun ss hlayout => ?_⟩
  obtain rfl := hlayout.unique hlayout' rfl
  have hlegible : ∀ sentence ∈ ss, ∀ t ∈ sentence.inside, t.IsLegible := fun sentence hs t ht =>
    (Lexer.ofSource s).isLegible_of_mem_dropLast t (hlayout.mem_dropLast_of_inside sentence hs t ht)
  refine ((List.forall₂_and_left _ _).2 ⟨hlegible, hsay⟩).imp ?_
  rintro sentence id ⟨hlegible, hsay⟩ name terms body rfl
  obtain ⟨arguments, -, hid⟩ := hsay
  refine ⟨arguments, _, (s.bound_parse.resolve.2.kind?_iff (by simp)).2 (Program.kind?_eq_some.2 ⟨_, hid, rfl⟩), ?_⟩
  rw [Sentence.bodyText_eq_spelling name terms body, ← lexed_spelling_eq_iff hlegible]
  exact Eq.congr_left (Lexer.map_said_readAll _)

/-- A negative integer in a body. -/
theorem body_not_read_again :
    let s := ofChars "a" ".d \x7b 0xFFFFFFFFFFFFFFFF \x7d\n".toList
    (s.assemble {}).1.isOk ∧
      s.tokens.map Token.said = [(.directive, "d"), (.openBrace, "\x7b"), (.integer, "-1"), (.closeBrace, "\x7d"), (.newline, "\n")] ∧
      s.analyze.program.kind? 0 = some (.directive "d" [] "-1 ") ∧
      (Lexer.ofText "a" "-1 ".toList).run.1.map Token.said ≠ [(.integer, "-1")] := by
  intro s
  refine ⟨?_, ?_, ?_, ?_⟩ <;> decide +kernel

/-- A body over two lines is that of one sentence. -/
theorem body_read_again_iff_of_two_lines :
    let s := ofChars "a" ".d \x7b $\x7bx\x7d 0x10000000000000000\n'\\n' \x7d\n".toList
    ∃ a ss, (s.assemble {}).1 = .ok a ∧ Layout Token.IsTerm s.tokens ss ∧ ss.length = 1 := by
  intro s
  have hok : (s.assemble {}).1.isOk := by decide +kernel
  obtain ⟨a, ha⟩ : ∃ a, (s.assemble {}).1 = .ok a := by
    cases hresult : (s.assemble {}).1 with
    | error e =>
      rw [hresult] at hok
      cases hok
    | ok a => exact ⟨a, rfl⟩
  have hlines : s.lines.length = 1 := by decide +kernel
  obtain ⟨⟨ss, hlayout⟩, hsay⟩ := s.body_read_again_iff ha
  exact ⟨a, ss, ha, hlayout, (hsay ss hlayout).length_eq.trans hlines⟩

end Source

end Assembler
