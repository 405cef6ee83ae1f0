import Assembler.Proofs.Defined
import Assembler.Proofs.Known
import Assembler.Proofs.Located
import Assembler.Proofs.OneLine
/-!
# Programs and code as lines

A statement is printed on one line, and an instruction is listed on one, but for the body of a directive: its tokens are
written as they are, and a newline or an interpolation among them may have line feeds (`Token.isOneLine_spelling_iff`).
Main statement: `Source.lines_of_renderings`.
-/

namespace Assembler

open Text (IsOneLine EndsInLine)

/-- A body has its own line feeds where it is written in braces. -/
theorem Clause.count_bodyText (body : String) : (bodyText body).toList.count '\n' = body.toList.count '\n' := by
  unfold bodyText
  split
  · rename_i hempty
    rw [String.isEmpty_iff.1 hempty]
  · simp

/-! ## Statements -/

namespace Node.Kind

/-- What stands in the braces of a directive; no other node has any. -/
def body : Kind → String
  | directive _ _ body => body
  | _ => ""

variable {k : Kind} {childText : NodeId → String}

/-- A node has the line feeds of its body where it is printed. -/
theorem count_kindText (hname : ∀ name, k.name? = some name → isName name.toList) (hchild : ∀ a ∈ k.children, IsOneLine (childText a)) :
    (Program.kindText childText k).toList.count '\n' = k.body.toList.count '\n' := by
  have hnamed (name : String) (h : k.name? = some name) : IsOneLine name := newline_not_mem_of_isName (hname name h)
  cases k with
  | directive name arguments body =>
    have hhead : IsOneLine ("." ++ name ++ String.join (arguments.map fun a => " " ++ childText a)) := by
      have harguments : ∀ text ∈ arguments.map (" " ++ childText ·), IsOneLine text := by
        intro text htext
        obtain ⟨a, ha, rfl⟩ := List.mem_map.1 htext
        exact Text.isOneLine_append.2 ⟨by decide, hchild a ha⟩
      simp only [Text.isOneLine_append, Text.isOneLine_join]
      exact ⟨⟨by decide, hnamed name rfl⟩, harguments⟩
    have hsplit : Program.kindText childText (directive name arguments body) =
        "." ++ name ++ String.join (arguments.map fun a => " " ++ childText a) ++ Clause.bodyText body := rfl
    rw [hsplit, Text.count_append_of_isOneLine hhead, Clause.count_bodyText]
    rfl
  | labelDecl name label => exact Text.isOneLine_iff_count.1 (Text.isOneLine_append.2 ⟨hnamed name rfl, by decide⟩)
  | label name | identifier name binding => exact Text.isOneLine_iff_count.1 (hnamed name rfl)
  | integer value => exact Text.isOneLine_iff_count.1 (Text.isOneLine_signed value.toInt)
  | string value => exact Text.isOneLine_iff_count.1 (Text.isOneLine_quoted value)
  | slot store index =>
    have hindex := Text.isOneLine_decimal index.toNat
    refine Text.isOneLine_iff_count.1 ?_
    cases store with
    | register | localSlot => exact Text.isOneLine_append.2 ⟨by decide, hindex⟩
    | null | static => exact Text.isOneLine_append.2 ⟨Text.isOneLine_append.2 ⟨by decide, hindex⟩, by decide⟩
  | jump condition target =>
    refine Text.isOneLine_iff_count.1 (Text.isOneLine_append.2 ⟨Text.isOneLine_append.2 ⟨?_, by decide⟩, ?_⟩)
    · exact condition.isOneLine_mnemonic
    · exact hchild target List.mem_cons_self
  | compare left right =>
    have hleft := hchild left List.mem_cons_self
    have hright := hchild right (List.mem_cons_of_mem _ List.mem_cons_self)
    refine Text.isOneLine_iff_count.1 (Text.isOneLine_append.2 ⟨Text.isOneLine_append.2 ⟨?_, by decide⟩, hright⟩)
    exact Text.isOneLine_append.2 ⟨by decide, hleft⟩

theorem kindText_ne_empty (hname : ∀ name, k.name? = some name → isName name.toList) : Program.kindText childText k ≠ "" := by
  have hnamed (name : String) (h : k.name? = some name) : name ≠ "" := by
    rintro rfl
    exact absurd (hname "" h) (by decide)
  intro hempty
  cases k with
  | label name | identifier name binding => exact hnamed name rfl hempty
  | integer value =>
    have hdecimal (n : Nat) : Text.decimal n ≠ "" := fun heq => absurd (heq ▸ isDecimal_decimal n) (by decide)
    change Text.signed value.toInt = "" at hempty
    unfold Text.signed at hempty
    split at hempty
    · exact hdecimal _ hempty
    · simp at hempty
  | slot store index => cases store <;> simp [Program.kindText] at hempty
  | directive | labelDecl | string | jump | compare => simp [Program.kindText, Text.quoted] at hempty

/-- What is printed of a node does not end in a line feed, though its body may. -/
theorem endsInLine_kindText (hname : ∀ name, k.name? = some name → isName name.toList)
    (hchild : ∀ a ∈ k.children, IsOneLine (childText a)) : EndsInLine (Program.kindText childText k) := by
  by_cases hbody : k.body = ""
  · have hcount := count_kindText hname hchild
    rw [hbody] at hcount
    exact .of_isOneLine (Text.isOneLine_iff_count.2 hcount) (kindText_ne_empty hname)
  · -- Only a directive has a body, and it ends in the brace that closes it.
    cases k with
    | directive name arguments body =>
      have hbody : body ≠ "" := hbody
      rw [Program.kindText, if_neg (by simpa using hbody)]
      exact EndsInLine.append (EndsInLine.append ⟨[], '\x7d', rfl, by decide⟩ _) _
    | _ => exact absurd rfl hbody

end Node.Kind

namespace Program

/-- What stands in the braces of a statement. -/
def body (p : Program) (id : NodeId) : String := ((p.kind? id).map (·.body)).getD ""

/-- A program in which the names are names, and statements are made of operands. -/
structure IsPrinted (p : Program) : Prop where
  name : ∀ id k name, p.kind? id = some k → k.name? = some name → isName name.toList
  statement : ∀ id ∈ p.statements, id < p.size ∧ ∀ a ∈ p.children id, p.IsOperand a

variable {p : Program} {id : NodeId}

theorem isOneLine_textWithin (hname : ∀ id k name, p.kind? id = some k → k.name? = some name → isName name.toList)
    (h : p.IsOperand id) (depth : Nat) : IsOneLine (p.textWithin depth id) := by
  cases depth with
  | zero => exact (by decide : IsOneLine "")
  | succ depth =>
    obtain ⟨k, hk, hexpression⟩ := h
    have hchildren : k.children = [] := by cases k <;> first | rfl | cases hexpression
    have hbody : k.body = "" := by cases k <;> first | rfl | cases hexpression
    have hcount : (kindText (p.textWithin depth) k).toList.count '\n' = k.body.toList.count '\n' :=
      Node.Kind.count_kindText (hname id k · hk) (by simp [hchildren])
    rw [hbody] at hcount
    simp only [textWithin, hk]
    exact Text.isOneLine_iff_count.2 hcount

namespace IsPrinted

variable (h : p.IsPrinted)
include h

/-- A statement is printed with the line feeds of its body, and does not end in one. -/
theorem text_statement (hid : id ∈ p.statements) :
    (p.text id).toList.count '\n' = (p.body id).toList.count '\n' ∧ EndsInLine (p.text id) := by
  obtain ⟨hlt, hchild⟩ := h.statement id hid
  obtain ⟨depth, hdepth⟩ := Nat.exists_eq_succ_of_ne_zero (Nat.ne_zero_of_lt hlt)
  obtain ⟨k, hk⟩ : ∃ k, p.kind? id = some k := ⟨_, kind?_eq_some.2 ⟨p.nodes[id], Array.getElem?_eq_getElem hlt, rfl⟩⟩
  have hnames := fun name => h.name id k name hk
  have hlines : ∀ a ∈ k.children, IsOneLine (p.textWithin depth a) := by
    intro a ha
    rw [← children_of_kind? hk] at ha
    exact isOneLine_textWithin h.name (hchild a ha) depth
  have htext : p.text id = kindText (p.textWithin depth) k := by simp only [text, hdepth, textWithin, hk]
  rw [htext, body, hk]
  exact ⟨Node.Kind.count_kindText hnames hlines, Node.Kind.endsInLine_kindText hnames hlines⟩

/-- A program is printed with a line for each statement, and one more for each line feed in a body. -/
theorem length_lines_dump : (Text.lines p.dump.toList).length =
    p.statements.length + (p.statements.flatMap fun id => (p.body id).toList).count '\n' := by
  have hends : ∀ text ∈ p.statements.map p.text, EndsInLine text := by
    intro text htext
    obtain ⟨id, hid, rfl⟩ := List.mem_map.1 htext
    exact (h.text_statement hid).2
  rw [dump, Text.length_lines_intercalate hends, List.length_map, List.flatMap_map,
    Text.count_flatMap_congr fun id hid => (h.text_statement hid).1]

end IsPrinted

end Program

/-! ## Instructions -/

/-- What is listed of an instruction as it is: the name and the body of a directive. -/
def Instruction.raw : Instruction → String
  | directive name _ body => name ++ body
  | _ => ""

namespace Decoded

/-- What is listed as it is of what was read. -/
def raw : Decoded → String
  | instruction i => i.raw
  | _ => ""

theorem isOneLine_name (d : Decoded) : IsOneLine d.name := by
  have hname (op : Opcode) : IsOneLine op.name := by
    cases op with
    | jump condition => cases condition <;> decide
    | _ => decide
  cases d with
  | instruction i => exact hname i.opcode
  | unknown => exact hname .invalid
  | truncated op => exact hname op

theorem isOneLine_hexByte (b : UInt8) : IsOneLine ((Text.hexByte b).map Char.toUpper) := by
  have hdigit : ∀ n < 16, (Nat.digitChar n).toUpper ≠ '\n' := by decide
  have hlow := hdigit (b.toNat % 16) (Nat.mod_lt _ (by decide))
  have hhigh := hdigit (b.toNat / 16) (by have := b.toNat_lt; omega)
  simpa [IsOneLine, Text.hexByte] using ⟨hhigh.symm, hlow.symm⟩

/-- The operands of an instruction are listed with the line feeds of a directive's name and body. -/
theorem count_operandText (d : Decoded) : d.operandText.toList.count '\n' = d.raw.toList.count '\n' := by
  have hfirst (place : Place) : IsOneLine (place.text ++ " ") := Text.isOneLine_append.2 ⟨place.isOneLine_text, by decide⟩
  cases d with
  | unknown b => exact Text.isOneLine_iff_count.1 (Text.isOneLine_append.2 ⟨by decide, isOneLine_hexByte b⟩)
  | truncated op => exact Text.isOneLine_iff_count.1 (by decide : IsOneLine "<truncated>")
  | instruction i =>
    cases i with
    | loadInt place value =>
      exact Text.isOneLine_iff_count.1 (Text.isOneLine_append.2 ⟨hfirst place, Text.isOneLine_signed value.toInt⟩)
    | loadString place value =>
      exact Text.isOneLine_iff_count.1 (Text.isOneLine_append.2 ⟨hfirst place, Text.isOneLine_quoted value⟩)
    | label place | jump condition place => exact Text.isOneLine_iff_count.1 place.isOneLine_text
    | compare left right =>
      exact Text.isOneLine_iff_count.1 (Text.isOneLine_append.2 ⟨hfirst left, right.isOneLine_text⟩)
    | halt => rfl
    | directive name places body =>
      have hplaces : IsOneLine (String.join (places.map fun a => " " ++ a.text)) := by
        rw [Text.isOneLine_join]
        intro text htext
        obtain ⟨a, -, rfl⟩ := List.mem_map.1 htext
        exact Text.isOneLine_append.2 ⟨by decide, a.isOneLine_text⟩
      have hsplit : (Instruction.directive name places body).operandText =
          "." ++ name ++ String.join (places.map fun a => " " ++ a.text) ++ Clause.bodyText body := rfl
      have hraw : (instruction (.directive name places body)).raw = name ++ body := rfl
      rw [operandText, hsplit, hraw]
      simp only [String.toList_append, List.count_append, Clause.count_bodyText, Text.isOneLine_iff_count.1 hplaces]
      simp

theorem count_text (d : Decoded) : d.text.toList.count '\n' = d.raw.toList.count '\n' := by
  have hname := d.isOneLine_name
  have hoperands := d.count_operandText
  unfold text
  split
  · rename_i hempty
    rw [String.isEmpty_iff.1 hempty] at hoperands
    exact (Text.isOneLine_iff_count.1 hname).trans hoperands
  · have hcolumn : IsOneLine (Text.padRight 12 ' ' d.name ++ " ") :=
      Text.isOneLine_append.2 ⟨Text.isOneLine_padRight (by decide) 12 hname, by decide⟩
    rw [Text.count_append_of_isOneLine hcolumn, hoperands]

end Decoded

namespace Chunk

/-- A row of a listing, without its end. -/
def row (c : Chunk) (offset : Nat) (d : Decoded) : String :=
  Text.padLeft 4 '0' (Text.decimal offset) ++ " " ++ c.lineMark offset ++ d.text

theorem count_row (c : Chunk) (offset : Nat) (d : Decoded) : (c.row offset d).toList.count '\n' = d.raw.toList.count '\n' := by
  have hoffset : IsOneLine (Text.padLeft 4 '0' (Text.decimal offset)) :=
    Text.isOneLine_padLeft (by decide) 4 (Text.isOneLine_decimal offset)
  have hmark : IsOneLine (c.lineMark offset) := by
    unfold lineMark
    split
    · decide
    · split
      · decide
      · exact Text.isOneLine_append.2 ⟨Text.isOneLine_padLeft (by decide) 4 (Text.isOneLine_decimal _), by decide⟩
  have hcolumns : IsOneLine (Text.padLeft 4 '0' (Text.decimal offset) ++ " " ++ c.lineMark offset) :=
    Text.isOneLine_append.2 ⟨Text.isOneLine_append.2 ⟨hoffset, by decide⟩, hmark⟩
  rw [row, Text.count_append_of_isOneLine hcolumns, d.count_text]

/-- Any bytes are listed with a line for the title, a line for each item that is read from them, and one more for each line
feed in the name or the body of a directive. -/
theorem length_lines_listing (c : Chunk) {title : String} (htitle : IsOneLine title) :
    (Text.lines (c.listing title).toList).length =
      1 + (decodeFrom 0 c.code).length + ((decodeFrom 0 c.code).flatMap (·.2.raw.toList)).count '\n' := by
  have hheader : IsOneLine ("== " ++ title ++ " ==") :=
    Text.isOneLine_append.2 ⟨Text.isOneLine_append.2 ⟨by decide, htitle⟩, by decide⟩
  have hlisting : c.listing title =
      String.join ((("== " ++ title ++ " ==") :: (decodeFrom 0 c.code).map fun x => c.row x.1 x.2).map (· ++ "\n")) := by
    have hend : " ==\n" = " ==" ++ "\n" := rfl
    have htitle : "== " ++ title ++ " ==\n" = "== " ++ title ++ " ==" ++ "\n" := by
      rw [hend]
      exact String.append_assoc.symm
    rw [listing, htitle, List.map_cons, List.map_map, String.join_cons]
    rfl
  have hbreaks : ((decodeFrom 0 c.code).flatMap fun x => (c.row x.1 x.2).toList).count '\n' =
      ((decodeFrom 0 c.code).flatMap (·.2.raw.toList)).count '\n' := Text.count_flatMap_congr fun x _ => c.count_row x.1 x.2
  rw [hlisting, Text.length_lines_join, List.length_cons, List.length_map, List.flatMap_cons, List.count_append,
    Text.isOneLine_iff_count.1 hheader, Nat.zero_add, List.flatMap_map, hbreaks, Nat.add_comm 1]

end Chunk

/-- What is written as it is of a line. -/
def Line.raw : Line → String
  | directive name _ body => name ++ body
  | _ => ""

namespace Slots

theorem raw_of_isDefinition {i : Instruction} (h : i.isDefinition) : i.raw = "" := by
  cases i <;> first | rfl | cases h

/-- A line is made into one instruction that has what is written of it as it is, and definitions, which have none. -/
theorem flatMap_raw_line (s : Slots) (l : Line) : (s.line l).1.flatMap (·.raw.toList) = l.raw.toList := by
  have hdefinitions : (s.defineAll l.operands).2.1.flatMap (·.raw.toList) = [] := by
    rw [List.flatMap_eq_nil_iff]
    intro i hi
    rw [raw_of_isDefinition (isDefinition_of_mem_defineAll hi)]
    rfl
  rw [line, List.flatMap_append, hdefinitions, List.nil_append]
  cases l with
  | directive name arguments body => simp [Line.own, Instruction.raw, Line.raw]
  | declaration | jump | compare | bare => rfl

theorem flatMap_raw_lines (s : Slots) (ls : List Line) : (s.lines ls).1.flatMap (·.raw.toList) = ls.flatMap (·.raw.toList) := by
  induction ls generalizing s with
  | nil => rfl
  | cons l ls ih => rw [lines, List.flatMap_append, flatMap_raw_line, ih, List.flatMap_cons]

end Slots

theorem flatMap_raw_plainCode (ls : List Line) : (plainCode ls).flatMap (·.raw.toList) = ls.flatMap (·.raw.toList) := by
  rw [plainCode, List.flatMap_append, Slots.flatMap_raw_lines]
  simp [Instruction.raw]

theorem flatMap_raw_located (offset : Nat) (is : List Instruction) :
    (Instruction.located offset is).flatMap (·.2.raw.toList) = is.flatMap (·.raw.toList) := by
  induction is generalizing offset with
  | nil => rfl
  | cons i is ih => rw [Instruction.located, List.flatMap_cons, List.flatMap_cons, ih, Decoded.raw]

namespace Program

variable {p : Program}

/-- A line has the line feeds of the body of its statement where it is written as it is. -/
theorem count_raw_of_line? (hname : ∀ id name arguments body, p.kind? id = some (.directive name arguments body) → IsOneLine name)
    {id : NodeId} {l : Line} (h : p.line? id = some l) : l.raw.toList.count '\n' = (p.body id).toList.count '\n' := by
  cases l with
  | directive name operands body =>
    obtain ⟨arguments, hk, -⟩ := kind?_of_line?_directive h
    have hline := hname id name arguments body hk
    rw [Program.body, hk, Line.raw, Text.count_append_of_isOneLine hline]
    rfl
  | declaration | jump | compare | bare =>
    have hbody : p.body id = "" := by
      unfold Program.body
      cases hk : p.kind? id with
      | none => rfl
      | some k =>
        cases k with
        | directive name arguments body =>
          simp only [line?, hk] at h
          obtain ⟨_, -, heq⟩ := Option.map_eq_some_iff.1 h
          cases heq
        | _ => rfl
    rw [hbody]
    rfl

/-- What the lines of a program have as it is has the line feeds of the bodies. -/
theorem count_raw_of_lines? (hname : ∀ id name arguments body, p.kind? id = some (.directive name arguments body) → IsOneLine name)
    {ls : List Line} (h : p.lines? = some ls) :
    (ls.flatMap (·.raw.toList)).count '\n' = (p.statements.flatMap fun id => (p.body id).toList).count '\n' := by
  have hlines := mapM_eq_some_iff.1 h
  clear h
  generalize p.statements = ids at hlines
  induction hlines with
  | nil => rfl
  | cons hline _ ih => rw [List.flatMap_cons, List.flatMap_cons, List.count_append, List.count_append, ih, count_raw_of_line? hname hline]

/-! ## Bodies of a source -/

/-- The body of a statement is what stands in the braces of its sentence. -/
theorem SaysAfter.body_eq {before : List NodeId} {s : Sentence} {id : NodeId} (h : p.SaysAfter before s id) (hp : p.Labelled) :
    p.body id = Token.spelling s.inside := by
  have hkind {n : Node} (hn : p.node? id = some n) : p.body id = n.kind.body := by
    rw [Program.body, kind?_eq_some.2 ⟨n, hn, rfl⟩]
    rfl
  have hsay := h.said
  cases s with
  | label name =>
    obtain ⟨label, -, hid⟩ := hsay
    exact hkind hid
  | directive name terms body =>
    obtain ⟨arguments, -, hid⟩ := hsay
    rw [hkind hid, ← Sentence.bodyText_eq_spelling name terms body]
    rfl
  | jump condition mnemonic target =>
    obtain ⟨a, -, hid⟩ := hsay
    exact hkind hid
  | compare mnemonic left right =>
    obtain ⟨a, b, -, -, hid⟩ := hsay
    exact hkind hid
  | bare term =>
    obtain ⟨k, hk, hexpression⟩ := h.isOperand hp
    rw [Program.body, hk]
    cases k <;> first | rfl | cases hexpression

theorem Tells.map_body {ss : List Sentence} {ids : List NodeId} (h : p.Tells ss ids) (hp : p.Labelled) :
    ids.map p.body = ss.map fun s => Token.spelling s.inside := by
  induction h with
  | nil => rfl
  | concat _ hs ih => simp [ih, hs.body_eq hp]

end Program

theorem Workspace.Later.body_eq {w w' : Workspace} (h : w.Later w') : w'.program.body = w.program.body := by
  have hmap (p : Program) (id : NodeId) : ((p.kind? id).map (·.unbound)).map (·.body) = (p.kind? id).map (·.body) := by
    cases p.kind? id with
    | none => rfl
    | some k => cases k <;> rfl
  funext id
  rw [Program.body, Program.body, ← hmap, h.kind, hmap]

namespace Token

/-- A string literal is written without line feeds. -/
theorem isOneLine_stringLiteral (value : String) : IsOneLine (stringLiteral value) := by
  have hescape (c : Char) : '\n' ∉ escapeChar c := by
    unfold escapeChar
    split_ifs
    all_goals simp_all [eq_comm]
  simp [IsOneLine, stringLiteral, hescape]

/-- A token is written with line feeds if it is a newline, or an interpolation with a line feed inside. -/
theorem isOneLine_repr_iff {t : Token} (h : t.kind ≠ .interpolation → t.IsLegible) :
    IsOneLine t.repr ↔ t.kind ≠ .newline ∧ (t.kind = .interpolation → IsOneLine t.value) := by
  by_cases hkind : t.kind ∈ [.string, .interpolation, .newline]
  · obtain ⟨kind, value, location⟩ := t
    fin_cases hkind
    · exact iff_of_true (isOneLine_stringLiteral value) ⟨nofun, nofun⟩
    · refine ⟨fun hrepr => ⟨nofun, fun _ => ?_⟩, fun hvalue => ?_⟩
      · exact (Text.isOneLine_append.1 (Text.isOneLine_append.1 hrepr).1).2
      · exact Text.isOneLine_append.2 ⟨Text.isOneLine_append.2 ⟨by decide, hvalue.2 rfl⟩, by decide⟩
    · exact iff_of_false (by decide : ¬ IsOneLine "\n") fun hnot => hnot.1 rfl
  · have hlegible := h (by rintro heq; simp [heq] at hkind)
    have hother : t.kind ≠ .newline ∧ t.kind ≠ .interpolation := by
      simp only [List.mem_cons, not_or] at hkind
      exact ⟨hkind.2.2.1, hkind.2.1⟩
    exact iff_of_true (isOneLine_repr hlegible hkind) ⟨hother.1, fun heq => absurd heq hother.2⟩

/-- Tokens are written with line feeds if one of them is. -/
theorem isOneLine_spelling_iff {ts : List Token} : IsOneLine (spelling ts) ↔ ∀ t ∈ ts, IsOneLine t.repr := by
  induction ts with
  | nil => exact iff_of_true (by decide) (by simp)
  | cons t ts ih =>
    have hblank : IsOneLine " " := by decide
    simp only [spelling, Text.isOneLine_append, ih, List.forall_mem_cons, hblank, and_true]

theorem toList_spelling (ts : List Token) : (spelling ts).toList = ts.flatMap fun t => t.repr.toList ++ [' '] := by
  induction ts with
  | nil => rfl
  | cons t ts ih => rw [toList_spelling_cons, ih, List.flatMap_cons, List.append_assoc, List.singleton_append]

end Token

namespace Source

variable {s : Source}

theorem isPrinted_parse (s : Source) : s.parse.program.IsPrinted where
  name _ _ _ hk hname := isName_of_kind? hk hname
  statement id hid := (s.isStatement_parse id hid).imp_right fun hchild a ha => (hchild a ha).2

/-- The bodies of a program have the line feeds of the tokens that stand in braces in its source. -/
theorem count_body (h : s.parse.diagnostics = []) {ss : List Sentence} (hlayout : Layout Token.IsTerm s.tokens ss) :
    (s.parse.program.statements.flatMap fun id => (s.parse.program.body id).toList).count '\n' =
      (Token.spelling (ss.flatMap Sentence.inside)).toList.count '\n' := by
  obtain ⟨log, hparse⟩ := s.exists_parse_eq
  have htells : s.parse.program.Tells ss s.lines := by
    rw [hparse] at h ⊢
    exact (Workspace.tells_parse s.file log hlayout).2 h
  have hbodies := htells.map_body s.sound_parse.labelled
  have hmap (ids : List NodeId) : (ids.flatMap fun id => (s.parse.program.body id).toList) =
      (ids.map s.parse.program.body).flatMap String.toList := by rw [List.flatMap_map]
  rw [← (s.perm_lines.flatMap_right _).count_eq, hmap, hbodies, List.flatMap_map, Token.toList_spelling, List.flatMap_assoc]
  simp only [Token.toList_spelling]

/-- The program of an assembled source is printed with a line for each statement, and its code is listed with a line for the
title and one for each item that is read from it, but that each line feed in a body or in the name of a directive takes a
line more. Where the lengths of all texts can be written, the items are the instructions and only bodies have line feeds:
those of the newlines and the interpolations that stand in braces in the source. -/
theorem lines_of_renderings {settings : Settings} {a : Assembly} (h : (s.assemble settings).1 = .ok a) {title : String}
    (htitle : IsOneLine title) :
    (∃ ss, Layout Token.IsTerm s.tokens ss) ∧ ∀ ss, Layout Token.IsTerm s.tokens ss →
      let breaks := (Token.spelling (ss.flatMap Sentence.inside)).toList.count '\n'
      let items := decodeFrom 0 a.chunk.code
      (Text.lines s.analyze.program.dump.toList).length = s.analyze.program.statements.length + breaks ∧
      (Text.lines (a.chunk.listing title).toList).length = 1 + items.length + (items.flatMap (·.2.raw.toList)).count '\n' ∧
      ((∀ t ∈ s.parse.program.texts, FitsInCode t) → (items.flatMap (·.2.raw.toList)).count '\n' = breaks ∧
        ∃ code, a.chunk.code = code.flatMap Instruction.encode ∧ items = Instruction.located 0 code) ∧
      (breaks = 0 ↔ ∀ sentence ∈ ss, ∀ t ∈ sentence.inside,
        t.kind ≠ .newline ∧ (t.kind = .interpolation → IsOneLine t.value)) := by
  have hquiet := s.diagnostics_parse_of_assemble h
  have hlater : s.parse.Later s.analyze := s.bound_parse.resolve.2
  obtain ⟨ss', hlayout', -⟩ := s.exists_layout hquiet
  refine ⟨⟨ss', hlayout'⟩, fun ss hlayout => ?_⟩
  intro breaks items
  have hbodies := count_body hquiet hlayout
  refine ⟨?_, a.chunk.length_lines_listing htitle, fun htexts => ?_, ?_⟩
  · rw [hlater.dump, hlater.statements, s.isPrinted_parse.length_lines_dump, hbodies]
  · have hnone := s.diagnostics_of_assemble h
    obtain ⟨ls, chunk, statics, hls, hok, hcode, -⟩ := s.assemble_of_no_diagnostics settings hnone
    cases hok.symm.trans h
    have hread : items = Instruction.located 0 (plainCode ls) := by
      change decodeFrom 0 chunk.code = _
      rw [hcode]
      exact decodeFrom_flatMap_encode ((s.ready_analyze hnone).writable_plainCode (fun t ht => htexts t (hlater.mem_texts ht)) hls) 0
    -- A name that was read has no line feed, so only the bodies are left.
    have hname : ∀ id name arguments body, s.analyze.program.kind? id = some (.directive name arguments body) → IsOneLine name :=
      fun id name _ _ hk => newline_not_mem_of_isName (isName_of_kind? ((hlater.kind?_iff (by simp)).1 hk) rfl)
    refine ⟨?_, plainCode ls, hcode, hread⟩
    rw [hread, flatMap_raw_located, flatMap_raw_plainCode, Program.count_raw_of_lines? hname hls, hlater.statements,
      hlater.body_eq, hbodies]
  · have hlegible {sentence : Sentence} (hs : sentence ∈ ss) {t : Token} (ht : t ∈ sentence.inside) :
        t.kind ≠ .interpolation → t.IsLegible :=
      fun hkind => s.isLegible_of_mem (List.dropLast_subset _ (hlayout.mem_dropLast_of_inside sentence hs t ht)) hkind
    rw [← Text.isOneLine_iff_count, Token.isOneLine_spelling_iff]
    constructor
    · intro hlines sentence hs t ht
      exact (Token.isOneLine_repr_iff (hlegible hs ht)).1 (hlines t (List.mem_flatMap.2 ⟨sentence, hs, ht⟩))
    · intro hlines t ht
      obtain ⟨sentence, hs, ht⟩ := List.mem_flatMap.1 ht
      exact (Token.isOneLine_repr_iff (hlegible hs ht)).2 (hlines sentence hs t ht)

/-- A newline in a body: two instructions are listed on three lines below the title, and one statement is printed on two. -/
theorem not_one_line_each :
    let s := ofChars "t.asm" ".d \x7b\n\x7d\n".toList
    ∃ a, (s.assemble {}).1 = .ok a ∧ IsOneLine s.file ∧
      (decodeFrom 0 a.chunk.code).map (·.2) = [.instruction (.directive "d" [] "\n "), .instruction .halt] ∧
      (Text.lines (a.chunk.listing s.file).toList).length = 1 + 3 ∧
      s.analyze.program.statements.length = 1 ∧ (Text.lines s.analyze.program.dump.toList).length = 2 := by
  intro s
  have hfile : IsOneLine s.file := by decide
  have hnone : s.analyze.diagnostics = [] := by decide +kernel
  have hlines : s.analyze.program.lines? = some [.directive "d" [] "\n "] := by decide +kernel
  obtain ⟨ls, chunk, statics, hls, hok, hcode, -⟩ := s.assemble_of_no_diagnostics {} hnone
  obtain rfl := Option.some.inj (hlines.symm.trans hls)
  have hwritable : ∀ i ∈ plainCode [.directive "d" [] "\n "], i.Writable := by
    intro i hi
    have hi : i ∈ [Instruction.directive "d" [] "\n ", .halt] := hi
    fin_cases hi
    · exact ⟨by decide, by rintro _ _ _ ⟨⟩; decide⟩
    · exact ⟨nofun, nofun⟩
  have hitems : decodeFrom 0 chunk.code = Instruction.located 0 (plainCode [.directive "d" [] "\n "]) := by
    rw [hcode]
    exact decodeFrom_flatMap_encode hwritable 0
  refine ⟨_, hok, hfile, ?_, ?_, by decide +kernel, by decide +kernel⟩
  · rw [hitems]
    rfl
  · rw [chunk.length_lines_listing hfile, hitems]
    rfl

/-- Two directives: one with an interpolation over two lines and a string with a line feed in its body, and one without a body. -/
theorem lines_of_renderings_of_interpolation :
    let s := ofChars "a" ".d \x7b $\x7bx\ny\x7d 'p\\nq' \x7d\n.e 'p\\nq'\n".toList
    ∃ a, (s.assemble {}).1 = .ok a ∧ IsOneLine "p.bc" ∧
      (Text.lines s.analyze.program.dump.toList).length = 3 ∧ s.analyze.program.statements.length = 2 ∧
      (∃ ss, Layout Token.IsTerm s.tokens ss ∧ (Token.spelling (ss.flatMap Sentence.inside)).toList.count '\n' = 1) ∧
      (Text.lines (a.chunk.listing "p.bc").toList).length = 1 + (decodeFrom 0 a.chunk.code).length + 1 := by
  intro s
  have htitle : IsOneLine "p.bc" := by decide
  have hok : (s.assemble {}).1.isOk := by decide +kernel
  obtain ⟨a, ha⟩ := exists_eq_ok hok
  have hdump : (Text.lines s.analyze.program.dump.toList).length = 3 := by decide +kernel
  have hstatements : s.analyze.program.statements.length = 2 := by decide +kernel
  have htexts : ∀ t ∈ s.parse.program.texts, FitsInCode t := by decide +kernel
  obtain ⟨⟨ss, hlayout⟩, hlines⟩ := lines_of_renderings ha htitle
  obtain ⟨hprinted, hlisted, hitems, -⟩ := hlines ss hlayout
  obtain ⟨hbreaks, -⟩ := hitems htexts
  rw [hdump, hstatements] at hprinted
  have hone : (Token.spelling (ss.flatMap Sentence.inside)).toList.count '\n' = 1 := by omega
  exact ⟨a, ha, htitle, hdump, hstatements, ⟨ss, hlayout, hone⟩, by rw [hlisted, hbreaks, hone]⟩

end Source

end Assembler
