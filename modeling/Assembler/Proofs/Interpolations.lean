import Assembler.Proofs.Assembled
import Assembler.Proofs.Complaints
import Assembler.Proofs.Tiling
/-!
# Interpolations in their source

The text inside an interpolation is read on its own, and its tokens are located all the same where they
stand in the source: two columns past the interpolation begins the text inside it, and lines and columns
are counted on from there (`Tiled`). So all that is reported of an interpolation points at one of its
characters, whichever workspace it is evaluated in (`Source.interpolations_located`).
-/

namespace Assembler

/-- A location is that of a character of a text that comes after another. -/
def Location.IsWithin (l : Location) (file : String) (before text : List Char) : Prop :=
  ∃ inside c more, text = inside ++ c :: more ∧ l = .after file (before ++ inside)

theorem Location.IsWithin.append_left {l : Location} {file : String} {before text : List Char} (more : List Char)
    (h : l.IsWithin file (before ++ more) text) : l.IsWithin file before (more ++ text) := by
  obtain ⟨inside, c, rest, rfl, rfl⟩ := h
  exact ⟨more ++ inside, c, rest, (List.append_assoc ..).symm, by rw [List.append_assoc]⟩

/-- A token of a text is located at its lexeme. -/
theorem Tiled.exists_lexeme {file : String} {before text : List Char} {ts : List Token} (h : Tiled file before text ts)
    {t : Token} (ht : t ∈ ts) : ∃ skipped lexeme after, text = skipped ++ lexeme ++ after ∧ lexeme ≠ [] ∧
      IsLexeme t.kind lexeme after ∧ t.location = .after file (before ++ skipped) := by
  induction h with
  | done => cases ht
  | @token before trivia lexeme rest u us htrivia hne hlexeme hlocation _ ih =>
    rcases List.mem_cons.1 ht with rfl | ht
    · exact ⟨trivia, lexeme, rest, rfl, hne, hlexeme, hlocation⟩
    · obtain ⟨skipped, lexeme', after, rfl, hne', hlexeme', hlocation'⟩ := ih ht
      exact ⟨trivia ++ lexeme ++ skipped, lexeme', after, by simp, hne', hlexeme', by simpa using hlocation'⟩

/-- A token of a text is located at the first character of its lexeme. -/
theorem Tiled.isWithin {file : String} {before text : List Char} {ts : List Token} (h : Tiled file before text ts) {t : Token}
    (ht : t ∈ ts) : t.location.IsWithin file before text := by
  obtain ⟨skipped, lexeme, after, rfl, hne, -, hlocation⟩ := h.exists_lexeme ht
  obtain ⟨c, more, rfl⟩ := List.exists_cons_of_ne_nil hne
  exact ⟨skipped, c, more ++ after, by simp, hlocation⟩

/-! ## The text inside -/

namespace Lexer

/-- A token says what the lexeme at its location is read as, and the tokens after it are read of what comes after that. -/
theorem exists_read_at_of_mem {l : Lexer} {t : Token} (ht : t ∈ l.readAll.1) :
    ∃ skipped c rest earlier, ∃ l' : Lexer, l.rest = skipped ++ c :: rest ∧
      t = ⟨(Lexeme.read c rest).kind, String.ofList (Lexeme.read c rest).value, .ofPosition l.file (l.position.after skipped)⟩ ∧
      IsLexeme (Lexeme.read c rest).kind (Lexeme.read c rest).text (Lexeme.read c rest).rest ∧
      l'.rest = (Lexeme.read c rest).rest ∧ l.readAll.1 = earlier ++ t :: l'.readAll.1 := by
  fun_induction readAll l with
  | case1 => cases ht
  | case2 l u l' events hnext hlt tokens later heq ih =>
    obtain ⟨c, rest, hrest, rfl, hfile, hafter, hposition⟩ := next_eq_some (congrArg Prod.fst hnext)
    have htext := Trivia.text_append_rest l.rest
    rw [hrest] at htext
    rcases List.mem_cons.1 ht with rfl | ht
    · exact ⟨_, c, rest, [], l', htext.symm, rfl, Lexeme.isLexeme_read hrest, hafter, by rw [heq]; rfl⟩
    · obtain ⟨skipped, c', rest', earlier, l'', hskipped, rfl, hlexeme, hafter', hlater⟩ := ih (heq ▸ ht)
      rw [hafter] at hskipped
      rw [heq] at hlater
      refine ⟨(Trivia.read l.rest).text ++ (Lexeme.read c rest).text ++ skipped, c', rest', _ :: earlier, l'', ?_, ?_, hlexeme,
        hafter', congrArg _ hlater⟩
      · refine htext.symm.trans ?_
        rw [← Lexeme.text_append_rest c rest, hskipped]
        simp
      · simp [hfile, hposition, Position.after, List.foldl_append]

/-- A token of a text that goes on after another is located by the two. -/
theorem exists_read_of_mem {l : Lexer} {before : List Char} (h : Location.ofPosition l.file l.position = .after l.file before)
    {t : Token} (ht : t ∈ l.readAll.1) : ∃ skipped c rest, l.rest = skipped ++ c :: rest ∧
      t = ⟨(Lexeme.read c rest).kind, String.ofList (Lexeme.read c rest).value, .after l.file (before ++ skipped)⟩ ∧
      IsLexeme (Lexeme.read c rest).kind (Lexeme.read c rest).text (Lexeme.read c rest).rest := by
  obtain ⟨skipped, c, rest, -, -, htext, rfl, hlexeme, -⟩ := exists_read_at_of_mem ht
  exact ⟨skipped, c, rest, htext, by rw [Location.ofPosition_after h], hlexeme⟩

end Lexer

/-- A lexeme that is an interpolation goes through the brace that closes the text inside it, or to the end. -/
theorem Lexeme.exists_eq_of_interpolation {c : Char} {rest : List Char} (hkind : (read c rest).kind = .interpolation)
    (h : IsLexeme (read c rest).kind (read c rest).text (read c rest).rest) :
    ∃ after, c :: rest = '$' :: '\x7b' :: ((read c rest).value ++ after) ∧
      (isBraced 0 (read c rest).value ∧ after.head? = some '\x7d' ∨ after = []) := by
  obtain ⟨body, hbody⟩ : ∃ body, c :: rest = '$' :: '\x7b' :: body := by
    have htext := text_append_rest c rest
    rw [hkind] at h
    generalize (read c rest).text = text at h htext
    generalize (read c rest).rest = after at h htext
    cases h with
    | interpolation => exact ⟨_, htext.symm⟩
    | openInterpolation => exact ⟨_, htext.symm⟩
    | punctuation hc =>
      have hmem := Token.Kind.mem_of_ofPunctuation? hc
      fin_cases hmem <;> cases hc
  obtain ⟨rfl, rfl⟩ := List.cons.inj hbody
  have hvalue : (read '$' ('\x7b' :: body)).value = (readBraced 0 body).value := rfl
  rw [hvalue]
  have hsplit := readBraced_text_append_rest 0 body
  rcases readBraced_value 0 body with ⟨hbraced, htext⟩ | ⟨htext, hrest⟩
  · rw [htext, List.append_assoc] at hsplit
    exact ⟨_, by rw [hsplit], .inl ⟨hbraced, rfl⟩⟩
  · rw [htext, hrest, List.append_nil] at hsplit
    exact ⟨[], by rw [List.append_nil, hsplit], .inr rfl⟩

/-! ## Diagnostics -/

namespace Source

/-- An interpolation stands in a source after some text, and some text follows what is inside it, from the closing brace on
or, if that is missing, none. -/
structure Interpolates (s : Source) (t : Token) (before after : List Char) : Prop where
  text : s.text = before ++ '$' :: '\x7b' :: (t.value.toList ++ after)
  location : t.location = .after s.file before
  closed : isBraced 0 t.value.toList ∧ after.head? = some '\x7d' ∨ after = []

variable {s : Source} {t : Token} {before after : List Char}

theorem exists_interpolates (ht : t ∈ s.tokens) (hkind : t.kind = .interpolation) :
    ∃ before after, s.Interpolates t before after := by
  have hstart : Location.ofPosition s.file {} = .after s.file [] := rfl
  obtain ⟨skipped, c, rest, htext, rfl, hlexeme⟩ := Lexer.exists_read_of_mem (l := Lexer.ofSource s) hstart ht
  obtain ⟨after, hafter, hclosed⟩ := Lexeme.exists_eq_of_interpolation hkind hlexeme
  have htext : s.text = skipped ++ c :: rest := htext
  rw [hafter] at htext
  exact ⟨skipped, after, by simpa using htext, rfl, by simpa using hclosed⟩

/-- The tokens inside an interpolation are located in the text around it. -/
theorem Interpolates.tiled_inside (h : s.Interpolates t before after) :
    Tiled s.file (before ++ ['$', '\x7b']) t.value.toList (Workspace.tokensInside t).1 := by
  have hlocation : Location.ofPosition s.file ⟨t.location.line, t.location.column, 0⟩ = .after s.file before := by
    rw [h.location]
    rfl
  have hinside : Location.ofPosition s.file ⟨t.location.line, (t.location.shifted 2).column, 0⟩ =
      .after s.file (before ++ ['$', '\x7b']) := Location.ofPosition_after hlocation ['$', '\x7b']
  have hfile : t.location.file = s.file := by
    rw [h.location]
    rfl
  rw [← hfile] at hinside ⊢
  exact Lexer.tiled_readAll (.ofText t.location.file t.value.toList t.location.line (t.location.shifted 2).column) _ hinside

theorem Interpolates.isWithin (h : s.Interpolates t before after) {d : Diagnostic} (hd : d ∈ t.complaintsInside) :
    d.location.IsWithin s.file before ('$' :: '\x7b' :: t.value.toList) := by
  rcases Token.cases_of_mem_complaintsInside hd with rfl | ⟨u, hu, rfl⟩
  · exact ⟨[], '$', _, rfl, by simpa using h.location⟩
  · rw [Token.location_passedOver]
    exact (h.tiled_inside.isWithin hu).append_left ['$', '\x7b']

/-- The tokens inside an interpolation are located where they stand in the source, and all that is reported of an
interpolation points at one of its characters. -/
theorem interpolations_located (s : Source) :
    (∀ t ∈ s.tokens, t.kind = .interpolation → ∃ before after, s.Interpolates t before after ∧
      Tiled s.file (before ++ ['$', '\x7b']) t.value.toList (Workspace.tokensInside t).1 ∧
      ∀ w : Workspace, ∃ ds, (w.interpolation t).2.diagnostics = w.diagnostics ++ ds ∧
        ∀ d ∈ ds, d.location.IsWithin s.file before ('$' :: '\x7b' :: t.value.toList)) ∧
    ∀ d ∈ s.parse.diagnostics, d.cause = .expectedIdentifier ∨ d.cause = .unresolvedIdentifier →
      ∃ t ∈ s.tokens, t.kind = .interpolation ∧ ∃ before after, s.Interpolates t before after ∧
        d.location.IsWithin s.file before ('$' :: '\x7b' :: t.value.toList) := by
  refine ⟨fun t ht hkind => ?_, fun d hd hcause => ?_⟩
  · obtain ⟨before, after, h⟩ := exists_interpolates ht hkind
    refine ⟨before, after, h, h.tiled_inside, fun w => ?_⟩
    obtain ⟨ds, hbegin, hds⟩ := Workspace.exists_diagnostics_interpolation t w
    exact ⟨ds, hds, fun d hd => h.isWithin (hbegin.subset hd)⟩
  · obtain ⟨log, hparse⟩ := s.exists_parse_eq
    obtain ⟨ds, hds, hcomplaint⟩ := Workspace.complains_parse s.file s.tokens { log }
    rw [hparse, hds] at hd
    -- Nothing but what is inside an interpolation is reported for these two causes.
    cases hcomplaint d (by simpa [Workspace.diagnostics] using hd) with
    | inside ht hkind hinside =>
      obtain ⟨before, after, h⟩ := exists_interpolates ht hkind
      exact ⟨_, ht, hkind, before, after, h, h.isWithin hinside⟩
    | _ => rcases hcause with hcause | hcause <;> cases hcause

/-- An interpolation over three lines, and one over two that is left open. -/
theorem interpolations_located_of_lines :
    let s := ofChars "a" "jmp $\x7b\n  a /* \n */ 5\x7d\ncmp é $\x7b é\n\t\"b c".toList
    (s.tokens.filter (·.kind = .interpolation)).map (fun t => (Workspace.tokensInside t).1.map (·.location)) =
      [[⟨"a", 1, 7⟩, ⟨"a", 2, 3⟩, ⟨"a", 3, 5⟩], [⟨"a", 4, 10⟩, ⟨"a", 4, 11⟩, ⟨"a", 5, 2⟩]] ∧
    ∃ d ∈ s.parse.diagnostics, d.location = ⟨"a", 5, 2⟩ ∧
      ∃ t ∈ s.tokens, t.kind = .interpolation ∧ ∃ before after, s.Interpolates t before after ∧
        d.location.IsWithin s.file before ('$' :: '\x7b' :: t.value.toList) := by
  intro s
  have hreported : ∃ d ∈ s.parse.diagnostics, d.location = ⟨"a", 5, 2⟩ ∧ d.cause = .expectedIdentifier := by decide +kernel
  obtain ⟨d, hd, hlocation, hcause⟩ := hreported
  exact ⟨by decide +kernel, d, hd, hlocation, s.interpolations_located.2 d hd (.inl hcause)⟩

end Source

end Assembler
