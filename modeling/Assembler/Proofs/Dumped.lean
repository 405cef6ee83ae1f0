import Assembler.Proofs.Characters
import Assembler.Proofs.Meaning
import Assembler.Proofs.Printed
/-!
# Programs that are printed and assembled again

A statement is printed as its clause (`Program.text_of_holds`). In a source that is assembled, without an
interpolation outside a body and without a number in base sixteen that is negative as a signed word, all
clauses can be printed (`Source.exists_isPrintable`), so what is printed is read as sentences of the same
clauses, and made into the same code and static area (`Source.assemble_dump`).
-/

namespace Assembler

/-! ## Negative integers in a text -/

namespace Lexeme

/-- Whether a lexeme is a number in base sixteen that is too large for a signed word but not for an unsigned one. -/
def isLargeWord (x : Lexeme) : Bool :=
  match x.text with
  | '0' :: mark :: digits =>
    (mark = 'x' || mark = 'X') && 2 ^ 63 ≤ Text.numberOf 16 digits && Text.numberOf 16 digits < 2 ^ 64
  | _ => false

theorem not_isNegative_of_isDecimal {digits : List Char} (h : isDecimal digits) :
    (⟨.integer, String.ofList digits, {}⟩ : Token).isNegative = false := by
  obtain ⟨c, digits, rfl, hdigits⟩ := isDecimal_iff.1 h
  have hc : c ≠ '-' := by
    rintro rfl
    exact absurd (hdigits '-' List.mem_cons_self) (by decide)
  simp [Token.isNegative, hc]

theorem le_of_isNegative_hexValue {digits : List Char}
    (h : (⟨.integer, String.ofList (hexValue digits).1, {}⟩ : Token).isNegative) :
    2 ^ 63 ≤ Text.numberOf 16 digits ∧ Text.numberOf 16 digits < 2 ^ 64 := by
  unfold hexValue at h
  dsimp only at h
  split at h
  · rename_i hlt
    refine ⟨?_, hlt⟩
    by_contra hsmall
    rw [Int64.toInt_ofNat_of_lt (by omega)] at h
    have hdecimal := not_isNegative_of_isDecimal (isDecimal_decimal (Text.numberOf 16 digits))
    rw [show (Text.signed (Text.numberOf 16 digits : Int)) = Text.decimal (Text.numberOf 16 digits) from rfl, hdecimal] at h
    cases h
  · simp [Token.isNegative] at h

theorem isLargeWord_readNumber {c : Char} (hc : c.isDigit) {rest : List Char} (h : (readNumber (c :: rest)).token.isNegative) :
    (readNumber (c :: rest)).isLargeWord := by
  have hdecimal : (readNumber.decimal (c :: rest)).token.isNegative = false :=
    not_isNegative_of_isDecimal (isDecimal_takeWhile hc rest)
  unfold readNumber at h ⊢
  split at h
  · split at h
    · rename_i x d more heq hx
      obtain ⟨hle, hlt⟩ := le_of_isNegative_hexValue h
      rw [if_pos hx]
      simpa [isLargeWord, hx.1] using ⟨hle, hlt⟩
    · rw [hdecimal] at h
      cases h
  · rw [hdecimal] at h
    cases h

/-- Only a digit begins an integer. -/
theorem isDigit_of_read {c : Char} {rest : List Char} (h : (read c rest).kind = .integer) : c.isDigit := by
  have hslot {kind : Token.Kind} {mark : Char} (hkind : kind ≠ .integer) : (readSlot kind mark rest).kind ≠ .integer := by
    unfold readSlot
    split
    · split
      · exact hkind
      · nofun
    · nofun
  by_contra hdigit
  unfold read at h
  split_ifs at h
  · cases h
  · cases h
  · unfold readDirective at h
    split at h
    · split at h <;> cases h
    · cases h
  · unfold readDollar at h
    split at h
    · cases h
    · exact hslot (by decide) h
  · exact hslot (by decide) h
  · unfold readName at h
    dsimp only at h
    split at h <;> cases h
  · split at h
    · rename_i kind hkind
      have hcs := Token.Kind.mem_of_ofPunctuation? hkind
      obtain rfl : kind = .integer := h
      fin_cases hcs <;> cases hkind
    · cases h

/-- Only a large number in base sixteen is negative. -/
theorem isLargeWord_read {c : Char} {rest : List Char} (h : (read c rest).token.isNegative) : (read c rest).isLargeWord := by
  have hkind : (read c rest).kind = .integer := by
    unfold Token.isNegative at h
    split at h
    · assumption
    · cases h
  have hdigit := isDigit_of_read hkind
  rw [read_digit rest hdigit] at h ⊢
  exact isLargeWord_readNumber hdigit h

theorem isLargeWord_of_mem (s : List Char) : ∀ x ∈ readAll s, x.token.isNegative → x.isLargeWord := by
  fun_induction readAll s with
  | case1 => simp
  | case2 s c rest h hlt ih => exact List.forall_mem_cons.2 ⟨isLargeWord_read, ih⟩

end Lexeme

/-! ## Statements as they are printed -/

theorem map_eq_map_of_forall₂ {α β γ : Type} {R : α → β → Prop} {f : α → γ} {g : β → γ} {as : List α} {bs : List β}
    (h : List.Forall₂ R as bs) (hfg : ∀ a, ∀ b ∈ bs, R a b → g b = f a) : bs.map g = as.map f := by
  induction h with
  | nil => rfl
  | @cons a b as bs hab _ ih =>
    have hrest := ih fun a b hb => hfg a b (List.mem_cons_of_mem _ hb)
    rw [List.map_cons, List.map_cons, hfg a b List.mem_cons_self hab, hrest]

namespace Program

variable {p : Program}

theorem textWithin_of_isOf {k : Node.Kind} {id depth : Nat} (hdepth : 0 < depth) (h : p.IsOf k id) :
    p.textWithin depth id = k.text := by
  obtain ⟨depth, rfl⟩ := Nat.exists_eq_succ_of_ne_zero (Nat.ne_of_gt hdepth)
  cases h.isLeaf with
  | identifier name =>
    obtain ⟨b, hk⟩ := h.name
    simp only [textWithin, hk]
    rfl
  | integer | string | register | localSlot =>
    have hk := h.kind? (by simp)
    simp only [textWithin, hk]
    rfl

/-- A statement is printed as its clause. -/
theorem text_of_holds {c : Clause} {id : NodeId} (h : p.Holds c id) (hid : id < p.size) (hchild : ∀ a ∈ p.children id, a < id) :
    p.text id = c.text := by
  obtain ⟨depth, hdepth⟩ := Nat.exists_eq_succ_of_ne_zero (Nat.ne_zero_of_lt hid)
  have hpart {k : Node.Kind} (hk : p.kind? id = some k) {a : NodeId} (ha : a ∈ k.children) : 0 < depth := by
    have hlt := hchild a (children_of_kind? hk ▸ ha)
    exact Nat.lt_of_lt_of_le (Nat.zero_lt_of_lt hlt) (Nat.le_of_lt_succ (hdepth ▸ hid))
  rw [text, hdepth]
  cases c with
  | label name =>
    obtain ⟨label, hk⟩ := h
    rw [textWithin, hk]
    rfl
  | directive name terms body =>
    obtain ⟨arguments, hterms, hk⟩ := h
    have harguments : arguments.map (p.textWithin depth) = terms.map (·.text) :=
      map_eq_map_of_forall₂ hterms fun _ a ha hk' => textWithin_of_isOf (hpart hk ha) hk'
    have hblank : arguments.map (fun a => " " ++ p.textWithin depth a) = terms.map fun k => " " ++ k.text := by
      simpa [Function.comp_def] using congrArg (List.map (" " ++ ·)) harguments
    simp only [textWithin, hk, kindText, Clause.text, Clause.bodyText, hblank]
  | jump condition target =>
    obtain ⟨a, ha, hk⟩ := h
    rw [textWithin, hk, Clause.text, ← textWithin_of_isOf (hpart hk List.mem_cons_self) ha]
    rfl
  | compare left right =>
    obtain ⟨a, b, ha, hb, hk⟩ := h
    have hpos := hpart hk List.mem_cons_self
    rw [textWithin, hk, Clause.text, ← textWithin_of_isOf hpos ha, ← textWithin_of_isOf hpos hb]
    rfl
  | bare term => exact textWithin_of_isOf (Nat.succ_pos depth) h

end Program

/-- A program is printed as its clauses, one on each line. -/
theorem Workspace.IsRead.dump_eq {w : Workspace} (h : w.IsRead) {cs : List Clause}
    (hcs : List.Forall₂ w.program.Holds cs w.program.statements) : w.program.dump = "\n".intercalate (cs.map Clause.text) := by
  have htext : w.program.statements.map w.program.text = cs.map Clause.text := by
    refine map_eq_map_of_forall₂ hcs fun c id hid hc => ?_
    obtain ⟨hlt, hchild⟩ := h.isStatement id hid
    exact Program.text_of_holds hc hlt fun a ha => (hchild a ha).1
  rw [Program.dump, htext]

/-- What a name is bound to is not printed. -/
theorem Program.kindText_unbound (f : NodeId → String) (k : Node.Kind) : kindText f k.unbound = kindText f k := by
  cases k <;> rfl

theorem Workspace.Later.textWithin {w w' : Workspace} (h : w.Later w') (depth : Nat) :
    w'.program.textWithin depth = w.program.textWithin depth := by
  induction depth with
  | zero => rfl
  | succ depth ih =>
    funext id
    have hkind := h.kind id
    simp only [Program.textWithin, ih]
    cases hk : w.program.kind? id with
    | none =>
      rw [hk, Option.map_none, Option.map_eq_none_iff] at hkind
      rw [hkind]
    | some k =>
      rw [hk, Option.map_some] at hkind
      obtain ⟨k', hk', hunbound⟩ := Option.map_eq_some_iff.1 hkind
      rw [hk']
      dsimp only
      rw [← Program.kindText_unbound, hunbound, Program.kindText_unbound]

/-- A program is printed alike before and after its names are bound. -/
theorem Workspace.Later.dump {w w' : Workspace} (h : w.Later w') : w'.program.dump = w.program.dump := by
  have htext : w'.program.text = w.program.text := by
    funext id
    rw [Program.text, h.size, h.textWithin, Program.text]
  rw [Program.dump, h.statements, htext, Program.dump]

/-! ## Sources -/

theorem Clause.mem_inOrder {cs : List Clause} {c : Clause} : c ∈ inOrder cs ↔ c ∈ cs :=
  (List.filter_append_perm ..).mem_iff

theorem Clause.inOrder_inOrder (cs : List Clause) : inOrder (inOrder cs) = inOrder cs := by
  simp [inOrder, List.filter_filter]

namespace Source

variable {s : Source}

/-- No token is negative if no number in base sixteen is. -/
theorem not_isNegative_of_mem (hlarge : ∀ x ∈ Lexeme.readAll s.text, ¬ x.isLargeWord) {t : Token} (ht : t ∈ s.tokens) :
    ¬ t.isNegative := by
  obtain ⟨x, hx, hsaid⟩ := (Lexer.ofSource s).exists_lexeme_of_mem ht
  rw [← Token.isNegative_of_said hsaid]
  exact fun hnegative => hlarge x hx (Lexeme.isLargeWord_of_mem s.text x hx hnegative)

theorem isLegible_of_mem {t : Token} (ht : t ∈ s.tokens) (hkind : t.kind ≠ .interpolation) : t.IsLegible :=
  (Lexer.ofSource s).isLegible_of_mem ht hkind

/-- What the sentences of a source say can be printed, without interpolations outside bodies and negative integers. -/
theorem exists_isPrintable (hlarge : ∀ x ∈ Lexeme.readAll s.text, ¬ x.isLargeWord)
    (hinterpolation : ∀ t ∈ outside .head s.tokens, t.kind ≠ .interpolation) {ss : List Sentence} {cs : List Clause}
    (hlayout : Layout Token.IsTerm s.tokens ss) (hcs : List.Forall₂ (fun s c => s.clause? = some c) ss cs) :
    ∀ c ∈ cs, ∃ inside, c.IsPrintable inside := by
  have hleaf := hlayout.isLeaf hinterpolation
  have hwell {t : Token} (ht : t ∈ s.tokens) (hlegible : t.IsLegible) : t.isWellFormed :=
    hlegible.resolve_right (not_isNegative_of_mem hlarge ht)
  have hprintable : ∀ sentence ∈ ss, ∀ c, sentence.clause? = some c → c.IsPrintable sentence.inside := by
    intro sentence hs c hc
    refine Sentence.isPrintable (hleaf.isLegal sentence hs) hc (fun t ht => ?_) fun t ht => ?_
    · have hmem := hlayout.mem_outside sentence hs t ht
      have hmem' := outside_subset .head s.tokens hmem
      exact hwell hmem' (isLegible_of_mem hmem' (hinterpolation t hmem))
    · have hmem := hlayout.mem_dropLast_of_inside sentence hs t ht
      exact hwell (List.dropLast_subset _ hmem) ((Lexer.ofSource s).isLegible_of_mem_dropLast t hmem)
  intro c hc
  obtain ⟨sentence, hs, hclause⟩ := (mem_mapM_iff (mapM_eq_some_iff.2 hcs)).1 hc
  exact ⟨_, hprintable sentence hs c hclause⟩

theorem map_said_tokens (s : Source) : s.tokens.map Token.said = lexed s.text := Lexer.map_said_readAll (Lexer.ofSource s)

/-- The printed program of a source is a text of the clauses of the source, in the order in which they take effect. -/
theorem exists_layout_dump (s : Source) (file : String) {ss : List Sentence} {cs : List Clause}
    (hlayout : Layout Token.IsLeaf s.tokens ss) (hcs : List.Forall₂ (fun s c => s.clause? = some c) ss cs)
    (hprintable : ∀ c ∈ Clause.inOrder cs, ∃ inside, c.IsPrintable inside) :
    ∃ ss', Layout Token.IsLeaf (ofChars file s.analyze.program.dump.toList).tokens ss' ∧
      List.Forall₂ (fun s c => s.clause? = some c) ss' (Clause.inOrder cs) := by
  obtain ⟨log, hparse⟩ := s.exists_parse_eq
  obtain ⟨-, hholds⟩ := Workspace.holds_parse s.file log hlayout hcs
  rw [← hparse] at hholds
  have hdump : s.analyze.program.dump = "\n".intercalate ((Clause.inOrder cs).map Clause.text) :=
    s.bound_parse.resolve.2.dump.trans (s.isRead_parse.dump_eq hholds)
  obtain ⟨ts, ss', hlexed, hlayout', hcs'⟩ := Clause.exists_layout_of_text hprintable
  have htext : (ofChars file s.analyze.program.dump.toList).text = s.analyze.program.dump.toList :=
    Text.Utf8.decodeLossy_encode _
  have hsaid : (ofChars file s.analyze.program.dump.toList).tokens.map Token.said = ts.map Token.said := by
    rw [map_said_tokens, htext, hdump, hlexed]
  obtain ⟨ss'', hlayout'', hclauses⟩ := hlayout'.of_said hsaid
  refine ⟨ss'', hlayout'', ?_⟩
  have heq : List.Forall₂ (· = ·) (ss''.map Sentence.clause?) ((Clause.inOrder cs).map some) := by
    rw [hclauses, List.forall₂_map_left_iff, List.forall₂_map_right_iff]
    exact hcs'
  rwa [List.forall₂_map_left_iff, List.forall₂_map_right_iff] at heq

/-- A source that is assembled is assembled again as its program is printed, into the same code and the same static area. -/
theorem assemble_dump {settings : Settings} {a : Assembly} (h : (s.assemble settings).1 = .ok a)
    (hinterpolation : ∀ t ∈ outside .head s.tokens, t.kind ≠ .interpolation)
    (hlarge : ∀ x ∈ Lexeme.readAll s.text, ¬ x.isLargeWord) (file : String) (settings' : Settings) :
    ∃ a', ((ofChars file s.analyze.program.dump.toList).assemble settings').1 = .ok a' ∧ a'.chunk.code = a.chunk.code ∧
      a'.statics = a.statics := by
  obtain ⟨ss, hlayout, -⟩ := s.exists_layout (s.diagnostics_parse_of_assemble h)
  have hleaf := hlayout.isLeaf hinterpolation
  obtain ⟨cs, hcs⟩ := hleaf.exists_clauses
  have hprintable : ∀ c ∈ Clause.inOrder cs, ∃ inside, c.IsPrintable inside :=
    fun c hc => exists_isPrintable hlarge hinterpolation hlayout hcs c (Clause.mem_inOrder.1 hc)
  -- The source that is printed says the clauses in the order in which they take effect.
  obtain ⟨ss', hlayout', hcs'⟩ := s.exists_layout_dump file hleaf hcs hprintable
  obtain ⟨log, hassemble⟩ := s.exists_assemble_parse_eq settings
  obtain ⟨log', hassemble'⟩ := (ofChars file s.analyze.program.dump.toList).exists_assemble_parse_eq settings'
  obtain ⟨hquiet, hholds⟩ := Workspace.holds_parse s.file log hleaf hcs
  obtain ⟨hquiet', hholds'⟩ := Workspace.holds_parse file log' hlayout' hcs'
  rw [Clause.inOrder_inOrder] at hholds'
  have houtcome := (Workspace.isRead_parse s.file s.tokens log).same_outcome (Workspace.isRead_parse file _ log') hquiet hquiet'
    hholds hholds' s.file file settings settings'
  rw [hassemble] at h
  rw [hassemble']
  rcases houtcome with ⟨b, a', hb, ha', hcode, hstatics⟩ | ⟨ds, ds', herror, -⟩
  · cases h.symm.trans hb
    exact ⟨a', ha', hcode.symm, hstatics.symm⟩
  · cases h.symm.trans herror

/-- A label that is declared again after a directive names it, a body over two lines, and text that is printed with escapes. -/
theorem assemble_dump_of_redeclared :
    let s := ofChars "a" "jmp a\na:\n.d a 'é\\\"' \x7b $\x7ba\x7d 0x10\n'\\0' \x7d\n\na:\ncmp 0X7FfFfFfFfFfFfFfF %1\n".toList
    (∀ t ∈ outside .head s.tokens, t.kind ≠ .interpolation) ∧ (∀ x ∈ Lexeme.readAll s.text, ¬ x.isLargeWord) ∧
      s.analyze.program.dump =
        "a:\n.d a \"é\\\"\" \x7b $\x7ba\x7d 16 \n \"\\0\" \x7d\na:\njmp a\ncmp 9223372036854775807 %1" ∧
      ∃ a a', (s.assemble {}).1 = .ok a ∧ ((ofChars "b" s.analyze.program.dump.toList).assemble {}).1 = .ok a' ∧
        a'.chunk.code = a.chunk.code ∧ a'.statics = a.statics := by
  intro s
  have hinterpolation : ∀ t ∈ outside .head s.tokens, t.kind ≠ .interpolation := by decide +kernel
  have hlarge : ∀ x ∈ Lexeme.readAll s.text, ¬ x.isLargeWord := by decide +kernel
  have hok : (s.assemble {}).1.isOk := by decide +kernel
  obtain ⟨a, ha⟩ := exists_eq_ok hok
  obtain ⟨a', ha', hsame⟩ := assemble_dump ha hinterpolation hlarge "b" {}
  exact ⟨hinterpolation, hlarge, by decide +kernel, a, a', ha, ha', hsame⟩

end Source

end Assembler
