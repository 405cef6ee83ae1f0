import Assembler.Proofs.Bodies
import Assembler.Proofs.Denotation
/-!
# Names and interpolations of names

A name that is an operand after the only declaration of its label stands for what an interpolation of the name would
stand for in its place. So it may be written as one: the program is assembled into the same code and the same static
area (`Source.assemble_interpolated`).
-/

namespace Assembler

/-! ## The text of an interpolation -/

theorem filler_of_isInlineBlank {s : List Char} (h : ∀ c ∈ s, Text.isInlineBlank c) : Filler s := by
  induction s with
  | nil => exact .nil
  | cons c s ih =>
    obtain ⟨hc, hs⟩ := List.forall_mem_cons.1 h
    exact .blank hc (ih hs)

/-- Blanks around the name in an interpolation make no difference. -/
theorem Token.nameInside?_eq_some {u : Token} {left name right : String} (hvalue : u.value = left ++ name ++ right)
    (hname : isName name.toList) (hblank : ∀ c ∈ left.toList ++ right.toList, Text.isInlineBlank c) :
    u.nameInside? = some name := by
  obtain ⟨hleft, hright⟩ := List.forall_mem_append.1 hblank
  have hapart : Apart right.toList := by
    intro c hc
    exact isBlank_of_isInlineBlank (hright c (List.mem_of_mem_head? hc))
  have hsaid : (Workspace.tokensInside u).1.map said = (.identifier, name) :: lexed right.toList := by
    refine (Lexer.map_said_readAll _).trans ?_
    change lexed u.value.toList = _
    rw [hvalue, String.toList_append, String.toList_append, List.append_assoc,
      lexed_of_filler (filler_of_isInlineBlank hleft), lexed_identifier hname hapart, String.ofList_toList]
  obtain ⟨v, rest, hinside, hv, -⟩ := List.map_eq_cons_iff.1 hsaid
  obtain ⟨hkind, hvalue⟩ := Prod.mk.inj hv
  rw [nameInside?, hinside]
  simp [hkind, hvalue]

/-- What a lexer finds to be a name is one. -/
theorem Lexer.isName_of_mem {l : Lexer} {t : Token} (ht : t ∈ l.run.1) (hkind : t.kind = .identifier) :
    isName t.value.toList := by
  rcases l.isLegible_of_mem ht (by simp [hkind]) with hwell | hnegative
  · simpa [Token.isWellFormed, hkind] using hwell
  · simp [Token.isNegative, hkind] at hnegative

/-! ## Operands of a sentence -/

namespace Sentence

/-- A token that is an operand of a jump, a comparison or a directive, with the tokens before and after it. -/
inductive Takes : Sentence → List Token → Token → List Token → Prop
  | target (condition : Condition) (mnemonic x : Token) : Takes (.jump condition mnemonic x) [mnemonic] x []
  | left (mnemonic x right : Token) : Takes (.compare mnemonic x right) [mnemonic] x [right]
  | right (mnemonic left x : Token) : Takes (.compare mnemonic left x) [mnemonic, left] x []
  | argument (name : Token) (before : List Token) (x : Token) (after : List Token) (body : Option Braced) :
      Takes (.directive name (before ++ x :: after) body) (name :: before) x (after ++ (body.map Braced.tokens).getD [])

variable {c : Sentence} {own own' : List Token} {x u : Token}

theorem Takes.tokens_eq (h : c.Takes own x own') : c.tokens = own ++ x :: own' := by
  cases h <;> simp [tokens]

/-- Another term may stand in the place of an operand; the line is the same if the operand is. -/
theorem Takes.replace (h : c.Takes own x own') (hc : c.IsLegal Token.IsTerm) (hu : u.IsTerm) :
    ∃ c' : Sentence, c'.tokens = own ++ u :: own' ∧ c'.IsLegal Token.IsTerm ∧ c'.isHoisted = c.isHoisted ∧ c'.label? = c.label? ∧
      ∀ n place, u.operand? n = x.operand? n → (u.kind = .string ↔ x.kind = .string) → c'.line? n place = c.line? n place := by
  cases h with
  | target condition mnemonic x =>
    obtain ⟨hkind, hvalue, -⟩ := hc
    refine ⟨.jump condition mnemonic u, rfl, ⟨hkind, hvalue, hu⟩, rfl, rfl, fun n place hsame hstring => ?_⟩
    simp only [line?, hsame, hstring]
  | left mnemonic x right =>
    obtain ⟨hkind, hvalue, -, hright⟩ := hc
    refine ⟨.compare mnemonic u right, rfl, ⟨hkind, hvalue, hu, hright⟩, rfl, rfl, fun n place hsame _ => ?_⟩
    rw [line?, line?, hsame]
  | right mnemonic left x =>
    obtain ⟨hkind, hvalue, hleft, -⟩ := hc
    refine ⟨.compare mnemonic left u, rfl, ⟨hkind, hvalue, hleft, hu⟩, rfl, rfl, fun n place hsame _ => ?_⟩
    rw [line?, line?, hsame]
  | argument name before x after body =>
    obtain ⟨hkind, hterms, hcount, hbody⟩ := hc
    refine ⟨.directive name (before ++ u :: after) body, by simp [tokens], ⟨hkind, ?_, by simpa using hcount, hbody⟩, rfl, rfl,
      fun n place hsame _ => ?_⟩
    · simp only [List.forall_mem_append, List.forall_mem_cons] at hterms ⊢
      exact ⟨hterms.1, hu, hterms.2.2⟩
    · rw [line?, line?, List.mapM_append, List.mapM_append, List.mapM_cons, List.mapM_cons, hsame]

/-! ## Sentences with the same labels -/

theorem names_congr {ss ss' : List Sentence} (h : ss.map label? = ss'.map label?) {s s' : Sentence}
    (hs : s.isHoisted = s'.isHoisted) (place : Nat) : names ss s place = names ss' s' place := by
  have htake : (ss.take place).map label? = (ss'.take place).map label? := by rw [List.map_take, List.map_take, h]
  simp only [names, hs, lastLabel?_congr h, lastLabel?_congr htake]

theorem labelName_congr {ss ss' : List Sentence} (h : ss.map label? = ss'.map label?) : labelName ss = labelName ss' := by
  have hplace (ss : List Sentence) (place : Nat) : labelName ss place = ((ss.map label?)[place]?.bind id).getD "" := by
    rw [labelName, List.getElem?_map]
    cases ss[place]? <;> rfl
  funext place
  rw [hplace, hplace, h]

/-- A sentence may stand in the place of another that declares the same and stands for the same line. -/
theorem lines?_replace {earlier later : List Sentence} {c c' : Sentence} (hhoisted : c'.isHoisted = c.isHoisted)
    (hlabel : c'.label? = c.label?)
    (hline : c'.line? (names (earlier ++ c :: later) c earlier.length) earlier.length =
      c.line? (names (earlier ++ c :: later) c earlier.length) earlier.length) :
    lines? (earlier ++ c' :: later) = lines? (earlier ++ c :: later) := by
  have hlabels : (earlier ++ c' :: later).map label? = (earlier ++ c :: later).map label? := by simp [hlabel]
  refine mapM_eq_of_forall₂ (forall₂_partition ?_)
  rw [List.zipIdx_append, List.zipIdx_append, List.zipIdx_cons, List.zipIdx_cons, Nat.zero_add]
  have hsame (xs : List (Sentence × Nat)) : List.Forall₂ (fun x y : Sentence × Nat => x.1.isHoisted = y.1.isHoisted ∧
      x.1.line? (names (earlier ++ c' :: later) x.1 x.2) x.2 = y.1.line? (names (earlier ++ c :: later) y.1 y.2) y.2) xs xs :=
    List.forall₂_same.2 fun x _ => ⟨rfl, by rw [names_congr hlabels rfl]⟩
  refine List.rel_append (hsame _) (.cons ⟨hhoisted, ?_⟩ (hsame _))
  rw [names_congr hlabels hhoisted, hline]

/-- After its label is declared, and if that is not declared again, a name is what it is inside an interpolation. -/
theorem names_of_declared {earlier later : List Sentence} {c : Sentence} {name : String}
    (hearlier : ∃ d ∈ earlier, d.label? = some name) (hlater : ∀ d ∈ c :: later, d.label? ≠ some name) :
    (names (earlier ++ c :: later) c earlier.length).outside name =
      (names (earlier ++ c :: later) c earlier.length).inside name := by
  obtain ⟨d, hd, hname⟩ := hearlier
  obtain ⟨place, hplace⟩ := Option.isSome_iff_exists.1 (isSome_lastLabel? hd hname)
  have hall : lastLabel? name (earlier ++ c :: later) = lastLabel? name earlier := by
    rw [lastLabel?_append, lastLabel?_eq_none hlater, Option.map_none, Option.none_or]
  rw [names_outside, names_inside, hall, hplace, Option.some_or, ite_self]

/-- What is declared once, and before, is not declared again. -/
theorem label?_ne_of_countP_eq_one {earlier later : List Sentence} {name : String}
    (hone : (earlier ++ later).countP (·.label? = some name) = 1) (hearlier : ∃ d ∈ earlier, d.label? = some name) :
    ∀ d ∈ later, d.label? ≠ some name := by
  obtain ⟨d, hd, hdeclares⟩ := hearlier
  have hpos : 0 < earlier.countP (·.label? = some name) := List.countP_pos_iff.2 ⟨d, hd, by simpa using hdeclares⟩
  have hzero : later.countP (·.label? = some name) = 0 := by
    rw [List.countP_append] at hone
    omega
  simpa only [decide_eq_true_eq] using List.countP_eq_zero.1 hzero

/-! ## A sentence among others -/

/-- Tokens laid out in sentences before and after a sentence, as they stand around it. -/
structure Stands (c : Sentence) (lines : List Token) (earlier : List Sentence) (more : List Token) (later : List Sentence) :
    Prop where
  before : Layout Token.IsTerm lines earlier
  whole : ∀ t ∈ lines.getLast?, t.isNewline
  legal : c.IsLegal Token.IsTerm
  ends : EndsLine more
  after : Layout Token.IsTerm more later

variable {lines more : List Token} {earlier later : List Sentence}

theorem Stands.layout (h : c.Stands lines earlier more later) :
    Layout Token.IsTerm (lines ++ (c.tokens ++ more)) (earlier ++ c :: later) :=
  h.before.append (fun _ => id) h.whole (.sentence h.legal h.ends h.after)

/-- Every sentence stands among the others. -/
theorem exists_stands {tokens : List Token} {ss : List Sentence} (h : Layout Token.IsTerm tokens ss)
    (hss : ss = earlier ++ c :: later) :
    ∃ lines more, tokens = lines ++ (c.tokens ++ more) ∧ c.Stands lines earlier more later := by
  induction h generalizing earlier with
  | nil => simp at hss
  | @newline t rest ss ht _ ih =>
    obtain ⟨lines, more, rfl, hstands⟩ := ih hss
    refine ⟨t :: lines, more, rfl, .newline ht hstands.before, fun u hu => ?_, hstands.legal, hstands.ends, hstands.after⟩
    cases hlast : lines.getLast? with
    | none =>
      obtain rfl := List.getLast?_eq_none_iff.1 hlast
      obtain rfl : t = u := by simpa using hu
      exact ht
    | some v =>
      obtain rfl : v = u := by simpa [List.getLast?_cons, hlast] using hu
      exact hstands.whole v hlast
  | @sentence s rest ss hs hend hrest ih =>
    cases earlier with
    | nil =>
      obtain ⟨rfl, rfl⟩ := List.cons.inj hss
      exact ⟨[], rest, rfl, .nil, by simp, hs, hend, hrest⟩
    | cons first earlier =>
      obtain ⟨rfl, rfl⟩ := List.cons.inj hss
      obtain ⟨lines, more, rfl, hstands⟩ := ih rfl
      -- The sentence does not begin where the one before it ends, so there is a line end between them.
      obtain ⟨t, lines', rfl⟩ : ∃ t lines', lines = t :: lines' := by
        obtain ⟨t, tail, htail, ht⟩ := exists_head hstands.legal
        refine List.exists_cons_of_ne_nil ?_
        rintro rfl
        exact ht (hend t (by rw [htail]; rfl))
      refine ⟨s.tokens ++ t :: lines', more, by simp, .sentence hs hend hstands.before, fun u hu => ?_, hstands.legal,
        hstands.ends, hstands.after⟩
      rw [List.getLast?_append, List.getLast?_cons, Option.some_or] at hu
      exact hstands.whole u (by rwa [List.getLast?_cons])

end Sentence

/-! ## Programs -/

/-- Programs that declare the same labels and have the same lines are assembled into the same code and the same static
area. -/
theorem Workspace.assemble_of_same_lines {file : String} {log : Log} {tokens tokens' : List Token} {ss ss' : List Sentence}
    {settings : Settings} {a : Assembly} (h : Layout Token.IsTerm tokens ss) (h' : Layout Token.IsTerm tokens' ss')
    (hlines : Sentence.lines? ss' = Sentence.lines? ss) (hlabels : ss'.map Sentence.label? = ss.map Sentence.label?)
    (ha : ((parse file tokens { log }).resolve.sortDiagnostics.assemble file settings).1 = .ok a) (settings' : Settings) :
    ∃ a', assembleTokens file tokens' settings' = .ok a' ∧ a'.chunk.code = a.chunk.code ∧ a'.statics = a.statics := by
  obtain ⟨hok, hall⟩ := assemble_of_layout file log h settings
  obtain ⟨ls, hls⟩ := Option.isSome_iff_exists.1 (hok.1 (by rw [ha]; rfl))
  obtain ⟨b, hb, hcode, hstatics⟩ := hall ls hls
  cases ha.symm.trans hb
  obtain ⟨a', ha', hcode', hstatics'⟩ := (assemble_of_layout file #[] h' settings').2 ls (hlines.trans hls)
  refine ⟨a', ha', hcode'.trans hcode.symm, Array.toList_inj.1 ?_⟩
  rw [hstatics', hstatics, Sentence.labelName_congr hlabels]

namespace Source

variable {s : Source} {settings : Settings} {a : Assembly}

/-- The tokens of a source that is assembled are laid out in sentences, of which each stands among the others. -/
theorem exists_stands_of_assemble (h : (s.assemble settings).1 = .ok a) :
    ∃ ss, Layout Token.IsTerm s.tokens ss ∧ ∀ earlier c later, ss = earlier ++ c :: later →
      ∃ lines more, s.tokens = lines ++ (c.tokens ++ more) ∧ c.Stands lines earlier more later := by
  obtain ⟨ss, hlayout, -⟩ := s.exists_layout (s.diagnostics_parse_of_assemble h)
  exact ⟨ss, hlayout, fun _ _ _ => Sentence.exists_stands hlayout⟩

/-- A source that is assembled may name a label in an interpolation wherever it names it as an operand after the only
declaration of the label: its tokens are assembled into the same code and the same static area. -/
theorem assemble_interpolated (h : (s.assemble settings).1 = .ok a) {lines own own' more : List Token}
    {earlier later : List Sentence} {c : Sentence} {x u : Token} {left right : String}
    (htokens : s.tokens = lines ++ ((own ++ x :: own') ++ more)) (hstands : c.Stands lines earlier more later)
    (htakes : c.Takes own x own') (hx : x.kind = .identifier)
    (hone : (earlier ++ c :: later).countP (·.label? = some x.value) = 1) (hearlier : ∃ d ∈ earlier, d.label? = some x.value)
    (hu : u.kind = .interpolation) (hvalue : u.value = left ++ x.value ++ right)
    (hblank : ∀ b ∈ left.toList ++ right.toList, Text.isInlineBlank b) (settings' : Settings) :
    ∃ a', Workspace.assembleTokens s.file (lines ++ ((own ++ u :: own') ++ more)) settings' = .ok a' ∧
      a'.chunk.code = a.chunk.code ∧ a'.statics = a.statics := by
  have hlater := Sentence.label?_ne_of_countP_eq_one hone hearlier
  have hmem : x ∈ s.tokens := by simp [htokens]
  have hinside : u.nameInside? = some x.value := Token.nameInside?_eq_some hvalue (Lexer.isName_of_mem hmem hx) hblank
  have hleaf : x.leaf? = some (.identifier x.value none) := by simp [Token.leaf?, hx]
  obtain ⟨c', htokens', hlegal, hhoisted, hlabel, hline⟩ := htakes.replace hstands.legal (.inr hu : u.IsTerm)
  have hlines : Sentence.lines? (earlier ++ c' :: later) = Sentence.lines? (earlier ++ c :: later) := by
    refine Sentence.lines?_replace hhoisted hlabel (hline _ _ ?_ (by simp [hu, hx]))
    rw [Token.operand?, if_pos hu, Token.operand?, if_neg (by simp [hx]), hinside, hleaf, Option.bind_some, Option.bind_some,
      Node.Kind.operand?, Sentence.names_of_declared hearlier hlater]
  have hlayout := hstands.layout
  have hlayout' : Layout Token.IsTerm (lines ++ (c'.tokens ++ more)) (earlier ++ c' :: later) :=
    Sentence.Stands.layout ⟨hstands.before, hstands.whole, hlegal, hstands.ends, hstands.after⟩
  rw [htakes.tokens_eq, ← htokens] at hlayout
  rw [htokens'] at hlayout'
  obtain ⟨log, hassemble⟩ := s.exists_assemble_parse_eq settings
  rw [hassemble] at h
  exact Workspace.assemble_of_same_lines hlayout hlayout' hlines (by simp [hlabel]) h settings'

/-- A name among the arguments of a directive with a body, and blanks around it inside the interpolation. -/
theorem assemble_interpolated_of_argument :
    let s := ofChars "a" "n:\n.d n 'n' \x7b n \x7d\njmp n\n".toList
    let u : Token := ⟨.interpolation, " n\t", ⟨"a", 2, 4⟩⟩
    (s.tokens.map Token.said)[3]? = some (.identifier, "n") ∧
      ∃ a a', (s.assemble {}).1 = .ok a ∧ Workspace.assembleTokens "a" (s.tokens.set 3 u) {} = .ok a' ∧
        a'.chunk.code = a.chunk.code ∧ a'.statics = a.statics := by
  intro s u
  let t (kind : Token.Kind) (value : String) (line column : Nat) : Token := ⟨kind, value, ⟨"a", line, column⟩⟩
  let first := Sentence.label (t .label "n" 1 1)
  let body : Braced := ⟨t .openBrace "\x7b" 2 10, [t .identifier "n" 2 12], t .closeBrace "\x7d" 2 14⟩
  let x := t .identifier "n" 2 4
  let c := Sentence.directive (t .directive "d" 2 1) [x, t .string "n" 2 6] (some body)
  let last := Sentence.jump .always (t .identifier "jmp" 3 1) (t .identifier "n" 3 5)
  have hok : (s.assemble {}).1.isOk := by decide +kernel
  obtain ⟨a, ha⟩ := exists_eq_ok hok
  have hends (number column : Nat) (ts : List Token) : EndsLine (t .newline "\n" number column :: ts) := by
    simp [EndsLine, Token.isNewline, t]
  have hlegal : c.IsLegal Token.IsTerm := by
    refine ⟨rfl, ?_, by decide, ?_⟩
    · simp [Token.IsTerm, Token.IsLeaf, Token.leaf?, x, t]
    · rintro _ ⟨⟩
      exact ⟨rfl, rfl, rfl⟩
  have hstands : c.Stands (first.tokens ++ [t .newline "\n" 1 3]) [first]
      (t .newline "\n" 2 15 :: (last.tokens ++ [t .newline "\n" 3 6])) [last] := {
    before := .sentence rfl (hends _ _ _) (.newline rfl .nil)
    whole := by simp [Token.isNewline, t]
    legal := hlegal
    ends := hends _ _ _
    after := .newline rfl (.sentence ⟨rfl, rfl, .inl rfl⟩ (hends _ _ _) (.newline rfl .nil)) }
  have htokens : s.tokens = first.tokens ++ [t .newline "\n" 1 3] ++ (c.tokens ++
      t .newline "\n" 2 15 :: (last.tokens ++ [t .newline "\n" 3 6])) := by
    decide +kernel
  have hvalue : u.value = " " ++ x.value ++ "\t" := by decide
  obtain ⟨a', ha', hsame⟩ := assemble_interpolated ha htokens hstands (.argument _ [] x _ _) rfl (by decide)
    ⟨first, by simp, rfl⟩ rfl hvalue (List.all_eq_true.1 (by decide)) {}
  refine ⟨by decide +kernel, a, a', ha, ?_, hsame⟩
  rw [htokens]
  exact ha'

end Source

end Assembler
