import Assembler.Proofs.Dumped
import Assembler.Proofs.Excerpts
/-!
# Texts of one line

A text without a line feed is one line, whatever is written around it (`Text.IsOneLine`). Numbers, places, locations and
quoted texts are such texts, and so is what a token says, unless it is a string, an interpolation or a newline
(`Token.isOneLine_value`). A text that is put together from lines has just these lines, as long as each is one
(`Text.segments_join`, `Text.segments_intercalate`).
-/

namespace Assembler

theorem newline_not_mem_of_isDecimal {s : List Char} (h : isDecimal s) : '\n' ∉ s := by
  obtain ⟨c, digits, rfl, hdigits⟩ := isDecimal_iff.1 h
  intro hmem
  exact absurd (hdigits _ hmem) (by decide)

namespace Text

/-- A text without a line feed. -/
def IsOneLine (s : String) : Prop := '\n' ∉ s.toList

instance : DecidablePred IsOneLine := fun s => inferInstanceAs (Decidable ('\n' ∉ s.toList))

theorem isOneLine_iff_count {s : String} : IsOneLine s ↔ s.toList.count '\n' = 0 := List.count_eq_zero.symm

@[simp] theorem isOneLine_append {s t : String} : IsOneLine (s ++ t) ↔ IsOneLine s ∧ IsOneLine t := by
  simp [IsOneLine]

/-- What stands before a text on one line adds no line feed to it. -/
theorem count_append_of_isOneLine {s : String} (h : IsOneLine s) (t : String) :
    (s ++ t).toList.count '\n' = t.toList.count '\n' := by
  rw [String.toList_append, List.count_append, isOneLine_iff_count.1 h, Nat.zero_add]

@[simp] theorem isOneLine_join {ss : List String} : IsOneLine (String.join ss) ↔ ∀ s ∈ ss, IsOneLine s := by
  simp [IsOneLine, String.toList_join]

/-! ## Lines of a text -/

theorem segments_of_isOneLine {s : String} (h : IsOneLine s) : segments s.toList = [s.toList] := by
  have hlength := length_segments s.toList
  rw [isOneLine_iff_count.1 h] at hlength
  obtain ⟨part, hpart⟩ := List.length_eq_one_iff.1 hlength
  have hall : s.toList.takeWhile (· ≠ '\n') = s.toList :=
    List.takeWhile_eq_self_iff.2 fun c hc => by simpa using fun heq : c = '\n' => h (heq ▸ hc)
  have hhead := head?_segments s.toList
  rw [hpart, hall] at hhead
  rw [hpart, Option.some.inj hhead]

theorem flatMap_segments_of_isOneLine {ss : List String} (h : ∀ s ∈ ss, IsOneLine s) :
    ss.flatMap (segments ·.toList) = ss.map String.toList := by
  rw [← List.flatMap_pure_eq_map]
  exact List.flatMap_congr fun s hs => segments_of_isOneLine (h s hs)

/-- The lines of texts that each have a line feed put after them; nothing stands after the last one. -/
theorem segments_join (ss : List String) :
    segments (String.join (ss.map (· ++ "\n"))).toList = ss.flatMap (segments ·.toList) ++ [[]] := by
  rw [String.toList_join]
  induction ss with
  | nil => rfl
  | cons s ss ih =>
    rw [List.map_cons, List.flatMap_cons, String.toList_append, List.append_assoc, List.flatMap_cons, List.append_assoc, ← ih]
    exact segments_append_newline s.toList _

/-- The lines of texts that have line feeds put between them. -/
theorem segments_intercalate {ss : List String} (h : ss ≠ []) :
    segments ("\n".intercalate ss).toList = ss.flatMap (segments ·.toList) := by
  obtain ⟨s, ss, rfl⟩ := List.exists_cons_of_ne_nil h
  rw [String.toList_intercalate]
  induction ss generalizing s with
  | nil => simp
  | cons t ss ih =>
    have hrest := ih t (List.cons_ne_nil t ss)
    simp only [List.map_cons] at hrest ⊢
    rw [List.intercalate_cons_cons, List.flatMap_cons, ← hrest, List.append_assoc]
    exact segments_append_newline s.toList _

/-! ## Counting lines -/

theorem count_flatMap_congr {α : Type} {l : List α} {f g : α → List Char} (h : ∀ a ∈ l, (f a).count '\n' = (g a).count '\n') :
    (l.flatMap f).count '\n' = (l.flatMap g).count '\n' := by
  rw [List.count_flatMap, List.count_flatMap]
  exact congrArg List.sum (List.map_congr_left h)

/-- Texts take a line each, and one more for each line feed in them. -/
theorem length_flatMap_segments (ss : List String) :
    (ss.flatMap (segments ·.toList)).length = ss.length + (ss.flatMap String.toList).count '\n' := by
  induction ss with
  | nil => rfl
  | cons s ss ih =>
    rw [List.flatMap_cons, List.length_append, ih, length_segments, List.flatMap_cons, List.count_append, List.length_cons]
    omega

/-- Nothing after the last line feed is no line. -/
theorem length_lines_join (ss : List String) :
    (lines (String.join (ss.map (· ++ "\n"))).toList).length = ss.length + (ss.flatMap String.toList).count '\n' := by
  rw [lines, segments_join, List.dropLast_concat, ← length_flatMap_segments]
  simp

/-- What stands after the last line feed is a line. -/
theorem length_lines_append {s : List Char} {c : Char} (hc : c ≠ '\n') : (lines (s ++ [c])).length = s.count '\n' + 1 := by
  have hcount : (s ++ [c]).count '\n' = s.count '\n' := by simp [hc]
  have hlength : (segments (s ++ [c])).length = s.count '\n' + 1 := by rw [length_segments, hcount]
  have hlast : (segments (s ++ [c])).getLast? = some (lastLine s ++ [c]) := by
    rw [List.getLast?_eq_getElem?, hlength, Nat.add_sub_cancel, getElem?_segments]
    simp [hc]
  rw [lines, hlast]
  simp [hlength]

/-- A text that ends in a character other than a line feed. -/
def EndsInLine (s : String) : Prop := ∃ init c, s.toList = init ++ [c] ∧ c ≠ '\n'

theorem EndsInLine.of_isOneLine {s : String} (h : IsOneLine s) (hne : s ≠ "") : EndsInLine s := by
  obtain ⟨init, c, hs⟩ := List.eq_nil_or_concat s.toList |>.resolve_left fun hnil => hne (String.toList_eq_nil_iff.1 hnil)
  rw [List.concat_eq_append] at hs
  refine ⟨init, c, hs, ?_⟩
  rintro rfl
  exact h (by simp [hs])

theorem EndsInLine.append {t : String} (h : EndsInLine t) (s : String) : EndsInLine (s ++ t) := by
  obtain ⟨init, c, ht, hc⟩ := h
  exact ⟨s.toList ++ init, c, by simp [ht], hc⟩

theorem suffix_intercalate {α : Type} (separator : List α) (ls : List (List α)) (l : List α) :
    l <:+ separator.intercalate (ls ++ [l]) := by
  induction ls with
  | nil => simp
  | cons l' ls ih =>
    obtain ⟨next, more, hmore⟩ := List.exists_cons_of_ne_nil (List.append_ne_nil_of_right_ne_nil ls (List.cons_ne_nil l []))
    rw [List.cons_append, hmore, List.intercalate_cons_cons, ← hmore]
    exact ih.trans (List.suffix_append ..)

/-- Texts with line feeds between them take a line each, and one more for each line feed in them. -/
theorem length_lines_intercalate {ss : List String} (h : ∀ s ∈ ss, EndsInLine s) :
    (lines ("\n".intercalate ss).toList).length = ss.length + (ss.flatMap String.toList).count '\n' := by
  rcases List.eq_nil_or_concat ss with rfl | ⟨ss, s, rfl⟩
  · rfl
  · rw [List.concat_eq_append] at h ⊢
    obtain ⟨init, c, hs, hc⟩ := h s (by simp)
    have hne : ss ++ [s] ≠ [] := by simp
    have hsegments := congrArg List.length (segments_intercalate hne)
    rw [length_segments, length_flatMap_segments] at hsegments
    obtain ⟨before, hbefore⟩ : ∃ before, ("\n".intercalate (ss ++ [s])).toList = before ++ [c] := by
      obtain ⟨before, hbefore⟩ := suffix_intercalate "\n".toList (ss.map String.toList) s.toList
      refine ⟨before ++ init, ?_⟩
      rw [String.toList_intercalate, List.map_append, List.map_singleton, ← hbefore, hs, List.append_assoc]
    rw [hbefore] at hsegments ⊢
    rw [length_lines_append hc, ← hsegments]
    simp [hc]

/-! ## Numbers and quoted texts -/

@[simp] theorem isOneLine_decimal (n : Nat) : IsOneLine (decimal n) := newline_not_mem_of_isDecimal (isDecimal_decimal n)

@[simp] theorem isOneLine_signed (i : Int) : IsOneLine (signed i) := by
  unfold signed
  split
  · exact isOneLine_decimal _
  · exact isOneLine_append.2 ⟨by decide, isOneLine_decimal _⟩

/-- A line feed is written as an escape between quotes. -/
theorem newline_not_mem_escapeChar (c : Char) : '\n' ∉ escapeChar c := by
  unfold escapeChar
  split
  all_goals try decide
  rename_i hnewline _ _
  split
  · have hdigits : '\n' ∉ Nat.toDigits 16 c.toNat :=
      fun hmem => absurd (isHexDigit_of_mem_toDigits (by decide) (by decide) _ hmem) (by decide)
    simpa using hdigits
  · simpa using fun heq => hnewline heq.symm

@[simp] theorem isOneLine_quoted (s : String) : IsOneLine (quoted s) := by
  simp [IsOneLine, quoted, newline_not_mem_escapeChar]

theorem isOneLine_padLeft {fill : Char} (hfill : fill ≠ '\n') (width : Nat) {s : String} (h : IsOneLine s) :
    IsOneLine (padLeft width fill s) := by
  refine isOneLine_append.2 ⟨?_, h⟩
  simpa [IsOneLine] using fun _ => hfill.symm

theorem isOneLine_padRight {fill : Char} (hfill : fill ≠ '\n') (width : Nat) {s : String} (h : IsOneLine s) :
    IsOneLine (padRight width fill s) := by
  refine isOneLine_append.2 ⟨h, ?_⟩
  simpa [IsOneLine] using fun _ => hfill.symm

end Text

@[simp] theorem Store.isOneLine_name (s : Store) : Text.IsOneLine s.name := by cases s <;> decide

@[simp] theorem Condition.isOneLine_mnemonic (c : Condition) : Text.IsOneLine c.mnemonic := by cases c <;> decide

@[simp] theorem Place.isOneLine_text (p : Place) : Text.IsOneLine p.text := by
  simp only [text, Text.isOneLine_append, Store.isOneLine_name, Text.isOneLine_decimal, true_and, and_true]
  decide

/-- A location is written on one line if the name of its file is. -/
theorem Location.isOneLine_text {l : Location} (h : Text.IsOneLine l.file) : Text.IsOneLine l.text := by
  simp only [text, Text.isOneLine_append, h, Text.isOneLine_decimal, true_and, and_true]
  decide

/-! ## Tokens -/

theorem newline_not_mem_of_isName {s : List Char} (h : isName s) : '\n' ∉ s := by
  obtain ⟨c, name, rfl, -, hname⟩ := isName_iff.1 h
  intro hmem
  exact absurd (hname _ hmem) (by decide)

theorem newline_not_mem_of_isLargeHex {s : List Char} (h : isLargeHex s) : '\n' ∉ s := by
  unfold isLargeHex at h
  split at h
  · rename_i digits
    simp only [Bool.and_eq_true, List.all_eq_true] at h
    intro hmem
    have hdigit : '\n' ∈ digits := by simpa using hmem
    exact absurd (h.1 _ hdigit) (by decide)
  · cases h

theorem newline_not_mem_of_isStray {s : List Char} (h : isStray s) : '\n' ∉ s := by
  unfold isStray at h
  split at h
  · rintro hmem
    obtain rfl := List.mem_singleton.1 hmem
    cases h
  · cases h

namespace Token

@[simp] theorem Kind.isOneLine_name (kind : Kind) : Text.IsOneLine kind.name := by cases kind <;> decide

variable {t : Token}

/-- What a token says is one line, unless it is of a kind that may have line feeds. -/
theorem isOneLine_value (h : t.IsLegible) (hkind : t.kind ∉ [.string, .interpolation, .newline]) : Text.IsOneLine t.value := by
  obtain ⟨kind, value, location⟩ := t
  rcases h with hwell | hnegative
  · cases kind with
    | string | interpolation | newline => simp at hkind
    | identifier | directive | label => exact newline_not_mem_of_isName hwell
    | register | localSlot => exact newline_not_mem_of_isDecimal hwell
    | integer =>
      rcases Bool.or_eq_true_iff.1 hwell with hdecimal | hlarge
      · exact newline_not_mem_of_isDecimal hdecimal
      · exact newline_not_mem_of_isLargeHex hlarge
    | unknown => exact newline_not_mem_of_isStray hwell
    | openBrace | closeBrace | openParen | closeParen | openBracket | closeBracket | comma =>
      have hvalue : value = Kind.name _ := String.toList_inj.1 (of_decide_eq_true hwell)
      exact hvalue ▸ Kind.isOneLine_name _
  · unfold isNegative at hnegative
    split at hnegative
    · rename_i digits _ hvalue
      have hdigits := newline_not_mem_of_isDecimal hnegative
      simpa [Text.IsOneLine, hvalue] using hdigits
    · cases hnegative

/-- Such a token is written on one line. -/
theorem isOneLine_repr (h : t.IsLegible) (hkind : t.kind ∉ [.string, .interpolation, .newline]) : Text.IsOneLine t.repr := by
  have hvalue := isOneLine_value h hkind
  obtain ⟨kind, value, location⟩ := t
  cases kind with
  | string | interpolation | newline => simp at hkind
  | identifier | integer | unknown => exact hvalue
  | directive | register | localSlot => exact Text.isOneLine_append.2 ⟨by decide, hvalue⟩
  | label => exact Text.isOneLine_append.2 ⟨hvalue, by decide⟩
  | openBrace | closeBrace | openParen | closeParen | openBracket | closeBracket | comma =>
    exact Kind.isOneLine_name _

end Token

end Assembler
