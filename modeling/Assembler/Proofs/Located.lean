import Assembler.Proofs.Excerpts
import Assembler.Proofs.Faults
import Assembler.Proofs.Interpolations
/-!
# Diagnostics are located at tokens

Every node is located at the token it is made of (`Workspace.places_parse`), every complaint of the parser is at a token or
inside an interpolation, and every fault of a name is at a node. So each diagnostic that an assembly fails with is at a
token of the source (`Source.exists_hasToken`), which begins with some character of its text (`Source.Begins`): that is
the character an excerpt marks. Main statement: `Source.diagnostics_marked`.
-/

namespace Assembler

/-- A node is made of a token: the token itself tells what it is, or begins the statement that it is or declares. -/
inductive Node.Kind.IsMadeOf (t : Token) : Node.Kind → Prop
  | leaf {k : Node.Kind} (hleaf : t.leaf? = some k) : IsMadeOf t k
  | directive (hkind : t.kind = .directive) (arguments : List NodeId) (body : String) :
      IsMadeOf t (.directive t.value arguments body)
  | label (hkind : t.kind = .label) : IsMadeOf t (.label t.value)
  | labelDecl (hkind : t.kind = .label) (label : NodeId) : IsMadeOf t (.labelDecl t.value label)
  | jump (hkind : t.kind = .identifier) (condition : Condition) (target : NodeId) : IsMadeOf t (.jump condition target)
  | compare (hkind : t.kind = .identifier) (left right : NodeId) : IsMadeOf t (.compare left right)

namespace Node.Kind

/-- The name in a node. -/
def name? : Kind → Option String
  | directive name _ _ | labelDecl name _ | label name | identifier name _ => some name
  | _ => none

/-- The name in a node is what the token says that the node is made of. -/
theorem IsMadeOf.of_name? {t : Token} {k : Kind} (h : k.IsMadeOf t) {name : String} (hname : k.name? = some name) :
    t.value = name ∧ t.kind ∈ [.identifier, .directive, .label] := by
  cases h with
  | leaf hleaf =>
    unfold Token.leaf? at hleaf
    split at hleaf
    · rename_i hkind
      cases hleaf
      exact ⟨Option.some.inj hname, by simp [hkind]⟩
    · cases hleaf
      cases hname
    · obtain ⟨_, -, rfl⟩ := Option.map_eq_some_iff.1 hleaf
      cases hname
    · obtain ⟨_, -, rfl⟩ := Option.map_eq_some_iff.1 hleaf
      cases hname
    · obtain ⟨_, -, rfl⟩ := Option.map_eq_some_iff.1 hleaf
      cases hname
    · cases hleaf
  | directive hkind | label hkind | labelDecl hkind => exact ⟨Option.some.inj hname, by simp [hkind]⟩
  | jump | compare => cases hname

end Node.Kind

namespace Workspace

variable {tokens tokens' : List Token} {w w' w'' : Workspace}

/-! ## Nodes are located at tokens -/

/-- A workspace has the nodes of another, and then some that are located at the tokens they are made of. -/
def Places (tokens : List Token) (w w' : Workspace) : Prop :=
  ∀ id n, w'.program.node? id = some n →
    w.program.node? id = some n ∨ ∃ t ∈ tokens, n.location = t.location ∧ n.kind.IsMadeOf t

namespace Places

theorem of_eq (h : w'.program = w.program) : Places tokens w w' := fun _ _ hn => .inl (h ▸ hn)

theorem refl (w : Workspace) : Places tokens w w := of_eq rfl

theorem trans (h : Places tokens w w') (h' : Places tokens w' w'') : Places tokens w w'' :=
  fun id n hn => (h' id n hn).elim (h id n) .inr

theorem mono (h : Places tokens w w') (hsub : tokens ⊆ tokens') : Places tokens' w w' :=
  fun id n hn => (h id n hn).imp_right fun ⟨t, ht, hmade⟩ => ⟨t, hsub ht, hmade⟩

theorem push {t : Token} (ht : t ∈ tokens) (w : Workspace) {kind : Node.Kind} (hkind : kind.IsMadeOf t) :
    Places tokens w (w.push kind t.location).2 := by
  intro id n hn
  change (w.program.push kind t.location).2.node? id = some n at hn
  rw [Program.node?_push] at hn
  split at hn
  · cases hn
    exact .inr ⟨t, ht, rfl, hkind⟩
  · exact .inl hn

end Places

theorem places_term {t : Token} (ht : t ∈ tokens) (w : Workspace) : Places tokens w (term t w).2 := by
  rcases term_cases t w with ⟨-, hterm⟩ | ⟨k, hleaf, hterm⟩ | ⟨-, cause, context, hterm⟩
  · rw [hterm]
    exact .of_eq rfl
  · rw [hterm]
    exact .push ht w (.leaf hleaf)
  · rw [hterm]
    exact .of_eq rfl

theorem places_arguments (tokens : List Token) (w : Workspace) : Places tokens w (arguments tokens w).workspace := by
  fun_induction arguments tokens w with
  | case1 => exact .refl _
  | case2 => exact .refl _
  | case3 t rest w h w' hterm =>
    have hfirst : Places (t :: rest) w (term t w).2 := places_term List.mem_cons_self w
    rwa [hterm] at hfirst
  | case4 t rest w h id w' hterm more ih =>
    have hfirst : Places (t :: rest) w (term t w).2 := places_term List.mem_cons_self w
    rw [hterm] at hfirst
    exact hfirst.trans (ih.mono (List.subset_cons_self ..))

theorem places_directive {t : Token} (ht : t.kind = .directive) (rest : List Token) (w : Workspace) :
    Places (t :: rest) w (directive t rest w).workspace := by
  have harguments := (places_arguments rest w).mono (List.subset_cons_self t rest)
  refine harguments.trans (.trans (.of_eq ?_) (.push List.mem_cons_self _ (.directive ht _ _)))
  exact checks_of_reject (P := fun w' => w'.program = (arguments rest w).workspace.program) (fun _ _ _ _ h => h) rfl ..

theorem places_label {t : Token} (ht : t.kind = .label) (rest : List Token) (w : Workspace) :
    Places (t :: rest) w (label t rest w).workspace := by
  unfold label
  dsimp only
  refine (Places.push List.mem_cons_self w (.label ht)).trans (.trans (.of_eq ?_) (.push List.mem_cons_self _ (.labelDecl ht _)))
  split <;> rfl

theorem places_operand (statement : List Token) {rest : List Token} (hsub : rest ⊆ tokens) (w : Workspace) :
    Places tokens w (operand statement rest w).workspace := by
  unfold operand
  split
  · exact .of_eq rfl
  · split
    · exact .of_eq rfl
    · exact places_term (hsub List.mem_cons_self) w

theorem places_command {t : Token} (ht : t.kind = .identifier) (rest : List Token) (w : Workspace) :
    Places (t :: rest) w (command t rest w).workspace := by
  have hoperand {after : List Token} (hafter : after <:+ rest) (w : Workspace) :
      Places (t :: rest) w (operand (t :: rest) after w).workspace :=
    places_operand (t :: rest) (List.Subset.trans hafter.subset (List.subset_cons_self ..)) w
  have hleft := hoperand List.suffix_rfl w
  unfold command
  split
  · dsimp only
    split
    · exact hleft.trans (.push List.mem_cons_self _ (.jump ht _ _))
    · exact hleft
  · split
    · have hright := hoperand (operand_rest_suffix (t :: rest) rest w) (operand (t :: rest) rest w).workspace
      have hboth := hleft.trans hright
      dsimp only
      split
      · exact hboth.trans (.push List.mem_cons_self _ (.compare ht _ _))
      · exact hboth
    · exact (Places.of_eq rfl).trans (places_term List.mem_cons_self _)

theorem places_statement (t : Token) (rest : List Token) (w : Workspace) :
    Places (t :: rest) w (statement t rest w).workspace := by
  unfold statement
  split
  · exact places_directive ‹_› rest w
  · exact places_label ‹_› rest w
  · exact places_command ‹_› rest w
  · exact places_term List.mem_cons_self w

end Workspace

namespace Draft

open Workspace

theorem places_readLine (t : Token) (rest : List Token) (d : Draft) :
    Places (t :: rest) d.toWorkspace (readLine t rest d).2.toWorkspace := by
  have hstatement := places_statement t rest d.toWorkspace
  have hend (tokens : List Token) (w : Workspace) : (endOfStatement tokens w).2.program = w.program := by
    unfold endOfStatement
    split
    · rfl
    · split <;> rfl
  unfold readLine
  dsimp only
  split
  · exact hstatement
  · rw [add_toWorkspace]
    exact hstatement.trans (.of_eq (hend _ _))

theorem places_read (tokens : List Token) (d : Draft) : Places tokens d.toWorkspace (read tokens d).toWorkspace := by
  fun_induction read tokens d with
  | case1 d => exact .refl _
  | case2 d t rest h ih => exact ih.mono (List.subset_cons_self ..)
  | case3 d t rest h ih =>
    have hsub := List.Subset.trans (readLine_suffix t rest d).subset (List.subset_cons_self t rest)
    exact (places_readLine t rest d).trans (ih.mono hsub)

end Draft

/-- Every node of a program is made of one of its tokens, and located there. -/
theorem Workspace.places_parse (file : String) (tokens : List Token) (log : Log) {id : NodeId} {n : Node}
    (hn : (parse file tokens { log }).program.node? id = some n) :
    ∃ t ∈ tokens, n.location = t.location ∧ n.kind.IsMadeOf t :=
  (Draft.places_read tokens _ id n hn).resolve_left (by simp [Program.node?, tell])

/-- The names in the nodes of a source are names. -/
theorem Source.isName_of_kind? {s : Source} {id : NodeId} {k : Node.Kind} (hk : s.parse.program.kind? id = some k) {name : String}
    (hname : k.name? = some name) : isName name.toList := by
  obtain ⟨log, hparse⟩ := s.exists_parse_eq
  obtain ⟨n, hn, rfl⟩ := Program.kind?_eq_some.1 hk
  rw [hparse] at hn
  obtain ⟨t, ht, -, hmade⟩ := Workspace.places_parse s.file s.tokens log hn
  obtain ⟨rfl, hkind⟩ := hmade.of_name? hname
  have hlegible := (Lexer.ofSource s).isLegible_of_mem ht (by rintro heq; simp [heq] at hkind)
  obtain ⟨kind, value, location⟩ := t
  rcases hlegible with hwell | hnegative
  · fin_cases hkind <;> exact hwell
  · fin_cases hkind <;> simp [Token.isNegative] at hnegative

/-! ## Diagnostics are located at tokens -/

/-- The tokens of a source, and those inside its interpolations. -/
inductive Source.HasToken (s : Source) : Token → Prop
  | read {t : Token} (ht : t ∈ s.tokens) : HasToken s t
  | inside {t u : Token} (ht : t ∈ s.tokens) (hkind : t.kind = .interpolation) (hu : u ∈ (Workspace.tokensInside t).1) :
      HasToken s u

/-- What the parser complains of is at a token, or at a token inside an interpolation. -/
theorem Complaint.exists_hasToken {s : Source} {d : Diagnostic} (h : Complaint s.tokens d) :
    ∃ t, s.HasToken t ∧ d.location = t.location := by
  cases h with
  | unexpectedEof ht => exact ⟨_, .read ht, rfl⟩
  | unexpectedEol ht hkind => exact ⟨_, .read ht, rfl⟩
  | unexpectedToken ht hkind => exact ⟨_, .read ht, rfl⟩
  | expectedEndOfStatement ht hkind => exact ⟨_, .read ht, rfl⟩
  | unclosed ht => exact ⟨_, .read ht, rfl⟩
  | outOfRange ht hkind hwhat => exact ⟨_, .read ht, rfl⟩
  | tooMany ht hkind hcount => exact ⟨_, .read ht, rfl⟩
  | inside ht hkind hd =>
    obtain rfl | ⟨u, hu, rfl⟩ := Token.cases_of_mem_complaintsInside hd
    · exact ⟨_, .read ht, rfl⟩
    · exact ⟨u, .inside ht hkind hu, u.location_passedOver⟩

namespace Source

variable {s : Source}

/-- All that is reported of a source is at one of its tokens. -/
theorem exists_hasToken {d : Diagnostic} (hd : d ∈ s.analyze.diagnostics) : ∃ t, s.HasToken t ∧ d.location = t.location := by
  obtain ⟨log, hparse⟩ := s.exists_parse_eq
  have hd : d ∈ s.parse.resolve.diagnostics := hd
  rw [s.isRead_parse.diagnostics_resolve] at hd
  rcases List.mem_append.1 hd with hd | hd
  · obtain ⟨ds, hds, hcomplaint⟩ := Workspace.complains_parse s.file s.tokens { log }
    rw [hparse, hds] at hd
    exact (hcomplaint d (by simpa [Workspace.diagnostics] using hd)).exists_hasToken
  · obtain ⟨id, -, hfault⟩ := List.mem_flatMap.1 hd
    obtain ⟨c, n, hn, hlocation⟩ := Program.exists_node_of_mem_faults hfault
    rw [hparse] at hn
    obtain ⟨t, ht, hplace, -⟩ := Workspace.places_parse s.file s.tokens log hn
    exact ⟨t, .read ht, hlocation.trans hplace⟩

end Source

/-! ## Tokens begin with a character of the text -/

/-- No lexeme begins with a carriage return, and a newline is the only one that begins with a line feed. -/
theorem IsLexeme.head {kind : Token.Kind} {c : Char} {more rest : List Char} (h : IsLexeme kind (c :: more) rest) :
    c ≠ '\r' ∧ (kind = .newline ↔ c = '\n') := by
  have hother {kind : Token.Kind} {c : Char} (hkind : kind ≠ .newline) (hr : c ≠ '\r') (hn : c ≠ '\n') :
      c ≠ '\r' ∧ (kind = .newline ↔ c = '\n') := ⟨hr, iff_of_false hkind hn⟩
  have hname {kind : Token.Kind} {c : Char} {name : List Char} (hkind : kind ≠ .newline) (h : isName (c :: name)) :
      c ≠ '\r' ∧ (kind = .newline ↔ c = '\n') := by
    have hstart : isIdentifierStart c := by
      simp only [isName, Bool.and_eq_true] at h
      exact h.1
    exact hother hkind (by rintro rfl; cases hstart) (by rintro rfl; cases hstart)
  generalize hs : c :: more = s at h
  cases h with
  | identifier h => exact hname (by decide) (hs ▸ h)
  | @label name h =>
    cases name with
    | nil => cases h
    | cons d name =>
      obtain rfl : c = d := (List.cons.inj hs).1
      exact hname (by decide) h
  | decimal h =>
    subst hs
    have hdigit : c.isDigit := by
      simp only [isDecimal, List.all_cons, Bool.and_eq_true] at h
      exact h.2.1
    exact hother (by decide) (by rintro rfl; cases hdigit) (by rintro rfl; cases hdigit)
  | newline =>
    obtain rfl : c = '\n' := (List.cons.inj hs).1
    decide
  | punctuation hc =>
    obtain rfl := (List.cons.inj hs).1
    have hmem := Token.Kind.mem_of_ofPunctuation? hc
    fin_cases hmem <;> cases hc <;> decide
  | unknown hc =>
    obtain rfl := (List.cons.inj hs).1
    exact hother (by decide) (by rintro rfl; cases hc) (by rintro rfl; cases hc)
  | string hquote =>
    obtain rfl := (List.cons.inj hs).1
    fin_cases hquote <;> decide
  | directive | hex | register | localSlot | interpolation | openInterpolation =>
    obtain rfl := (List.cons.inj hs).1
    decide

namespace Source

variable {s : Source} {t : Token}

/-- A token begins with a character of a source, where its lexeme stands after some text. -/
structure Begins (s : Source) (t : Token) (before : List Char) (c : Char) : Prop where
  location : t.location = .after s.file before
  lexeme : ∃ more after rest, s.text = before ++ c :: more ++ after ∧ IsLexeme t.kind (c :: more) rest

theorem HasToken.exists_begins (h : s.HasToken t) : ∃ before c, s.Begins t before c := by
  have hbegins {before text after : List Char} {ts : List Token} {t : Token} (htiled : Tiled s.file before text ts)
      (ht : t ∈ ts) (htext : s.text = before ++ text ++ after) : ∃ before c, s.Begins t before c := by
    obtain ⟨skipped, lexeme, rest, rfl, hne, hlexeme, hlocation⟩ := htiled.exists_lexeme ht
    obtain ⟨c, more, rfl⟩ := List.exists_cons_of_ne_nil hne
    exact ⟨before ++ skipped, c, hlocation, more, rest ++ after, rest, by simp [htext], hlexeme⟩
  cases h with
  | read ht => exact hbegins s.tiled.1 ht (List.append_nil _).symm
  | inside ht hkind hu =>
    obtain ⟨before, after, hinside⟩ := exists_interpolates ht hkind
    refine hbegins hinside.tiled_inside hu (?_ : _ = _ ++ after)
    simp [hinside.text]

/-- Every diagnostic that an assembly fails with is located where a token of the source begins. The excerpt around it
shows the line of that place, and directly below it a mark under the first character of the token; a newline is marked
past the end of its line. -/
theorem diagnostics_marked (s : Source) {settings : Settings} {ds : List Diagnostic}
    (h : (s.assemble settings).1 = .error (.diagnostics ds)) {d : Diagnostic} (hd : d ∈ ds) :
    ∃ t before c, s.HasToken t ∧ s.Begins t before c ∧ d.location = t.location ∧
      Excerpt.render s.text d.location.line d.location.column ≠ "" ∧
      ∃ line, (Text.lines s.text)[d.location.line - 1]? = some line ∧
        Excerpt.Points (Excerpt.render s.text d.location.line d.location.column) d.location.line line
          (if t.kind = .newline then none else some c) := by
  have hreported : d ∈ s.analyze.diagnostics := by
    by_cases hnone : s.analyze.diagnostics = []
    · obtain ⟨ls, chunk, statics, -, hok, -⟩ := s.assemble_of_no_diagnostics settings hnone
      cases hok.symm.trans h
    · cases (s.assemble_of_diagnostics settings hnone).symm.trans h
      exact (Diagnostics.isStableSort_sorted _).perm.mem_iff.1 hd
  obtain ⟨t, ht, hlocation⟩ := exists_hasToken hreported
  obtain ⟨before, c, hbegins⟩ := ht.exists_begins
  obtain ⟨more, after, rest, htext, hlexeme⟩ := hbegins.lexeme
  obtain ⟨hreturn, hnewline⟩ := hlexeme.head
  obtain ⟨line, hline, habove⟩ := Text.exists_line before (more ++ after) hreturn
  rw [← List.cons_append, ← List.append_assoc, ← htext] at hline
  have hplace : d.location = .after s.file before := hlocation.trans hbegins.location
  have hnumber : d.location.line - 1 = before.count '\n' := by
    rw [hplace, Location.after, Nat.add_sub_cancel_left]
  have hcolumn : d.location.column - 1 = (Text.lastLine before).length := by
    rw [hplace, Location.after, Nat.add_sub_cancel_left, Text.length_lastLine]
  rw [← hnumber] at hline
  have hpoints := Excerpt.points_render d.location.column (by rw [hplace]; exact Nat.le_add_right ..) hline
  refine ⟨t, before, c, ht, hbegins, hlocation, hpoints.ne_empty, line, hline, ?_⟩
  rw [hcolumn, habove] at hpoints
  simpa only [hnewline] using hpoints

/-- A newline inside an interpolation whose lines end in carriage returns, and the end of the text. -/
theorem diagnostics_marked_of_carriage_returns :
    let s := ofChars "a" "jmp $\x7bb\r\n5\x7d\r\ncmp $0".toList
    Excerpt.render s.text 1 9 = "--|--\n1 | jmp $\x7bb\n  |         ^\n2 | 5\x7d\n3 | cmp $0\n--|--\n" ∧
    ∃ ds, (s.assemble {}).1 = .error (.diagnostics ds) ∧ ∃ d ∈ ds, d.location = ⟨"a", 1, 9⟩ ∧
      ∃ t before c, s.HasToken t ∧ s.Begins t before c ∧ d.location = t.location ∧
        Excerpt.render s.text d.location.line d.location.column ≠ "" ∧
        ∃ line, (Text.lines s.text)[d.location.line - 1]? = some line ∧
          Excerpt.Points (Excerpt.render s.text d.location.line d.location.column) d.location.line line
            (if t.kind = .newline then none else some c) := by
  intro s
  have hreported : ∃ d ∈ s.analyze.diagnostics, d.location = ⟨"a", 1, 9⟩ := by decide +kernel
  obtain ⟨d, hd, hlocation⟩ := hreported
  have herror := s.assemble_of_diagnostics {} (List.ne_nil_of_mem hd)
  have hmem := (Diagnostics.isStableSort_sorted s.analyze.diagnostics).perm.mem_iff.2 hd
  exact ⟨by decide +kernel, _, herror, d, hmem, hlocation, s.diagnostics_marked herror hmem⟩

end Source

end Assembler
