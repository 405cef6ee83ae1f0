import Assembler.Proofs.Located
import Assembler.Proofs.OneLine
import Assembler.Report
/-!
# Diagnostics are written on lines of their own

The message of a diagnostic is on one line as long as its context is (`Diagnostic.isOneLine_message`), and the context is
made of the texts of tokens that cannot have a line feed, of names, and of quoted texts: for what the parser complains
of (`Complaint.isOneLine_context`), and for the faults of a program's names (`Program.isOneLine_context_of_mem_faults`).
Main statement: `Source.diagnostics_on_lines`.
-/

namespace Assembler

open Text (IsOneLine)

/-! ## Messages -/

theorem Cause.isOneLine_message (cause : Cause) {context : Option String} (h : ∀ c ∈ context, IsOneLine c) :
    IsOneLine (cause.message context) := by
  have hnamed : IsOneLine (context.getD "") := by
    cases context with
    | none => decide
    | some c => exact h c rfl
  unfold message
  cases cause with
  | expectedIdentifier => exact (by decide : IsOneLine "expected an identifier")
  | expectedEndOfStatement => exact (by decide : IsOneLine "expected end of statement")
  | unexpectedEof => exact (by decide : IsOneLine "unexpected end of file")
  | unexpectedEol => exact (by decide : IsOneLine "unexpected end of line")
  | expectedToken | unexpectedToken | unresolvedIdentifier | undeclaredIdentifier =>
    exact Text.isOneLine_append.2 ⟨Text.isOneLine_append.2 ⟨by decide, hnamed⟩, by decide⟩
  | illegalExpression =>
    cases context with
    | none => decide
    | some c => exact Text.isOneLine_append.2 ⟨by decide, hnamed⟩

theorem Diagnostic.isOneLine_message {d : Diagnostic} (h : ∀ c ∈ d.context, IsOneLine c) : IsOneLine d.message :=
  d.cause.isOneLine_message h

theorem Severity.isOneLine_name (s : Severity) : IsOneLine s.name := by cases s <;> decide

theorem Diagnostic.isOneLine_text {d : Diagnostic} (hfile : IsOneLine d.location.file) (hmessage : IsOneLine d.message) :
    IsOneLine d.text := by
  have hlocation := Location.isOneLine_text hfile
  simp only [text, Text.isOneLine_append, hlocation, hmessage, d.severity.isOneLine_name, true_and, and_true]
  decide

/-! ## Contexts -/

variable {s : Source}

theorem Source.isLegible_of_kind {t : Token} (ht : t ∈ s.tokens) (hkind : t.kind ∉ [.string, .interpolation, .newline]) :
    t.IsLegible :=
  s.isLegible_of_mem ht fun heq => hkind (by simp [heq])

theorem Source.isOneLine_value {t : Token} (ht : t ∈ s.tokens) (hkind : t.kind ∉ [.string, .interpolation, .newline]) :
    IsOneLine t.value := Token.isOneLine_value (isLegible_of_kind ht hkind) hkind

/-- The context of a complaint has no line feed, whatever the tokens of the source have. -/
theorem Complaint.isOneLine_context {d : Diagnostic} (h : Complaint s.tokens d) : ∀ c ∈ d.context, IsOneLine c := by
  have hnone : ∀ c ∈ (none : Option String), IsOneLine c := by
    intro c hc
    cases hc
  cases h with
  | unexpectedEof | unexpectedEol | expectedEndOfStatement => exact hnone
  | unclosed =>
    rintro _ ⟨⟩
    decide
  | unexpectedToken ht hkind =>
    rintro _ ⟨⟩
    exact Token.isOneLine_repr (Source.isLegible_of_kind ht hkind) hkind
  | @outOfRange t what ht hkind hwhat =>
    have hvalue : IsOneLine t.value := by
      refine Source.isOneLine_value ht ?_
      generalize t.kind = kind at hkind
      fin_cases hkind <;> decide
    have hwords : IsOneLine what := by
      fin_cases hwhat <;> decide
    rintro _ ⟨⟩
    exact Text.isOneLine_append.2 ⟨Text.isOneLine_append.2 ⟨hwords, hvalue⟩, by decide⟩
  | @tooMany t count ht hkind hcount =>
    have hvalue : IsOneLine t.value := Source.isOneLine_value ht (by simp [hkind])
    rintro _ ⟨⟩
    simp only [Text.isOneLine_append, hvalue, Text.isOneLine_decimal, and_true]
    decide
  | @inside t d ht hkind hd =>
    obtain rfl | ⟨u, hu, rfl⟩ := Token.cases_of_mem_complaintsInside hd
    · exact hnone
    · unfold Token.passedOver
      split
      · rename_i hname
        rintro _ ⟨⟩
        exact Token.isOneLine_value (Lexer.isLegible_of_mem _ hu (by simp [hname])) (by simp [hname])
      · exact hnone

namespace Program

variable {p : Program}

/-- The context of a fault is the name of a node, or has a string literal between quotes. -/
theorem isOneLine_context_of_mem_faults {declared : String → Bool} {id : NodeId} {d : Diagnostic} (h : d ∈ p.faults declared id)
    (hnames : ∀ id k name, p.kind? id = some k → k.name? = some name → isName name.toList) :
    ∀ c ∈ d.context, IsOneLine c := by
  obtain ⟨part, -, hname | htarget⟩ := exists_part_of_mem_faults h
  · unfold nameFault at hname
    split at hname
    · rename_i name binding hk
      split at hname
      · cases hname
      · obtain rfl := List.mem_singleton.1 hname
        rintro _ ⟨⟩
        exact newline_not_mem_of_isName (hnames part _ name hk rfl)
    · cases hname
  · unfold targetFault at htarget
    split at htarget
    · obtain rfl := List.mem_singleton.1 htarget
      rintro _ ⟨⟩
      exact Text.isOneLine_append.2 ⟨by decide, Text.isOneLine_quoted _⟩
    · cases htarget

end Program

/-! ## Sources -/

namespace Source

/-- Whatever is reported of a source has a message of one line. -/
theorem isOneLine_message {d : Diagnostic} (hd : d ∈ s.analyze.diagnostics) : IsOneLine d.message := by
  obtain ⟨log, hparse⟩ := s.exists_parse_eq
  have hd : d ∈ s.parse.resolve.diagnostics := hd
  rw [s.isRead_parse.diagnostics_resolve] at hd
  apply Diagnostic.isOneLine_message
  rcases List.mem_append.1 hd with hd | hd
  · obtain ⟨ds, hds, hcomplaint⟩ := Workspace.complains_parse s.file s.tokens { log }
    rw [hparse, hds] at hd
    exact (hcomplaint d (by simpa [Workspace.diagnostics] using hd)).isOneLine_context
  · obtain ⟨id, -, hfault⟩ := List.mem_flatMap.1 hd
    exact Program.isOneLine_context_of_mem_faults hfault fun _ _ _ hk hname => isName_of_kind? hk hname

theorem file_of_mem {d : Diagnostic} (hd : d ∈ s.analyze.diagnostics) : d.location.file = s.file := by
  obtain ⟨t, ht, hlocation⟩ := exists_hasToken hd
  obtain ⟨before, c, hbegins⟩ := ht.exists_begins
  rw [hlocation, hbegins.location]
  rfl

/-- What is told of a source: what the parser reported, or all that was reported, or why an assembly failed. -/
inductive Tells (s : Source) : List Diagnostic → Prop
  | parsed : Tells s s.parse.diagnostics
  | analyzed : Tells s s.analyze.diagnostics
  | failed {settings : Settings} {ds : List Diagnostic} (h : (s.assemble settings).1 = .error (.diagnostics ds)) : Tells s ds

theorem Tells.subset {ds : List Diagnostic} (h : s.Tells ds) : ds ⊆ s.analyze.diagnostics := by
  cases h with
  | parsed =>
    obtain ⟨added, hadded, -⟩ := s.exists_diagnostics_eq
    rw [hadded]
    exact List.subset_append_left ..
  | analyzed => exact List.Subset.refl _
  | @failed settings ds h =>
    by_cases hnone : s.analyze.diagnostics = []
    · obtain ⟨ls, chunk, statics, -, hok, -⟩ := s.assemble_of_no_diagnostics settings hnone
      cases hok.symm.trans h
    · cases (s.assemble_of_diagnostics settings hnone).symm.trans h
      exact (Diagnostics.isStableSort_sorted _).perm.subset

/-- No message that is reported of a source has a line feed, whatever is in the source. If the name of the file has none
either, the text of what is told has one line for each diagnostic, in their order, with nothing after the line feed of the
last, and so have the texts of the reports that a failure is told with, up to any limit. -/
theorem diagnostics_on_lines (s : Source) :
    (∀ d ∈ s.analyze.diagnostics, IsOneLine d.message) ∧
    (IsOneLine s.file → ∀ ds, s.Tells ds →
      Text.segments (Diagnostics.text ds).toList = ds.map (·.text.toList) ++ [[]] ∧
      ∀ limit, Text.segments (String.join (((Failure.diagnostics ds).reports limit).map (·.text ++ "\n"))).toList =
        (if limit = 0 then ds else ds.take limit).map (·.text.toList) ++ [[]]) := by
  refine ⟨fun d hd => isOneLine_message hd, fun hfile ds htells => ?_⟩
  have hlines {ds' : List Diagnostic} (hsub : ds' ⊆ ds) :
      Text.segments (Diagnostics.text ds').toList = ds'.map (·.text.toList) ++ [[]] := by
    have hline : ∀ text ∈ ds'.map Diagnostic.text, IsOneLine text := by
      intro text htext
      obtain ⟨d, hd, rfl⟩ := List.mem_map.1 htext
      have hreported := htells.subset (hsub hd)
      exact Diagnostic.isOneLine_text (file_of_mem hreported ▸ hfile) (isOneLine_message hreported)
    have htext : Diagnostics.text ds' = String.join ((ds'.map Diagnostic.text).map (· ++ "\n")) := by
      rw [List.map_map]
      rfl
    rw [htext, Text.segments_join, Text.flatMap_segments_of_isOneLine hline, List.map_map]
    rfl
  refine ⟨hlines (List.Subset.refl _), fun limit => ?_⟩
  -- A report of a diagnostic is written as the diagnostic.
  have hreports : ((Failure.diagnostics ds).reports limit).map (·.text ++ "\n") =
      (if limit = 0 then ds else ds.take limit).map (·.text ++ "\n") := by
    rw [Failure.reports, List.map_map]
    rfl
  rw [hreports]
  apply hlines
  split
  · exact List.Subset.refl _
  · exact List.take_subset ..

/-- A string literal with a line feed as a target, an interpolation over two lines, and a character that begins no token. -/
theorem diagnostics_on_lines_of_line_feeds :
    let s := ofChars "a" "jmp 'x\\\ny'\ncmp $\x7bb\n5\x7d $0\n.d é".toList
    IsOneLine s.file ∧
      s.analyze.diagnostics.map (·.text) =
        ["a:3:7: error: could not resolve identifier 'b' in interpolation", "a:3:8: error: expected an identifier",
          "a:4:1: error: expected an identifier", "a:5:4: error: unexpected token 'é'",
          "a:1:5: error: illegal expression: cannot jump to string literal \"x\\ny\""] ∧
      ∃ ds, (s.assemble {}).1 = .error (.diagnostics ds) ∧
        Text.segments (Diagnostics.text ds).toList = ds.map (·.text.toList) ++ [[]] := by
  intro s
  have hfile : IsOneLine s.file := by decide
  have hne : s.analyze.diagnostics ≠ [] := by decide +kernel
  have herror := s.assemble_of_diagnostics {} hne
  exact ⟨hfile, by decide +kernel, _, herror, (s.diagnostics_on_lines.2 hfile _ (.failed herror)).1⟩

end Source

end Assembler
