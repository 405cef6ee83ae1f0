import Mathlib.Data.Nat.Digits.Defs
import Mathlib.Data.List.TakeWhile
import Assembler.Command.Excerpt
/-!
# Excerpts point at a character

A place in a text is a line, counted by the line feeds before it, and a column, counted by the characters after the last
of them. The line of any character but a carriage return is shown with that character in its column, and the line of a
line feed ends before it (`Text.exists_line`). An excerpt has that line in a row of its own, and directly below it a row
with a mark under the column (`Excerpt.points_render`).
-/

namespace Assembler

namespace Text

/-! ## Segments -/

theorem segments_append_newline (a b : List Char) : segments (a ++ '\n' :: b) = segments a ++ segments b := by
  induction a with
  | nil => simp [segments]
  | cons c a ih =>
    by_cases hc : c = '\n'
    · simp [segments, hc, ih]
    · obtain ⟨part, parts, hparts⟩ := List.exists_cons_of_ne_nil (segments_ne_nil a)
      simp [segments, hc, ih, hparts]

theorem length_segments (s : List Char) : (segments s).length = s.count '\n' + 1 := by
  induction s with
  | nil => rfl
  | cons c s ih =>
    by_cases hc : c = '\n'
    · simp [segments, hc, ih]
    · obtain ⟨part, parts, hparts⟩ := List.exists_cons_of_ne_nil (segments_ne_nil s)
      rw [hparts] at ih
      simp [segments, hc, hparts, ← ih]

/-- A text begins with all that comes before its first line feed. -/
theorem head?_segments (s : List Char) : (segments s).head? = some (s.takeWhile (· ≠ '\n')) := by
  induction s with
  | nil => rfl
  | cons c s ih =>
    by_cases hc : c = '\n'
    · simp [segments, hc]
    · obtain ⟨part, parts, hparts⟩ := List.exists_cons_of_ne_nil (segments_ne_nil s)
      rw [hparts] at ih
      have hpart : part = s.takeWhile (· ≠ '\n') := Option.some.inj ih
      simp [segments, hc, hparts, hpart]

/-- What stands after the last line feed of a text. -/
def lastLine (s : List Char) : List Char := (s.reverse.takeWhile (· ≠ '\n')).reverse

theorem length_lastLine (s : List Char) : (lastLine s).length = (s.reverse.takeWhile (· ≠ '\n')).length :=
  List.length_reverse

/-- A text is its last line, or has that after a line feed. -/
theorem eq_lastLine_or (s : List Char) :
    s.count '\n' = 0 ∧ s = lastLine s ∨ ∃ a, s = a ++ '\n' :: lastLine s ∧ s.count '\n' = a.count '\n' + 1 := by
  have hsplit := congrArg List.reverse (List.takeWhile_append_dropWhile (p := (· ≠ '\n')) (l := s.reverse))
  rw [List.reverse_append, List.reverse_reverse] at hsplit
  have hnone : (lastLine s).count '\n' = 0 := by
    refine List.count_eq_zero.2 fun hmem => ?_
    simpa using List.mem_takeWhile_imp (List.mem_reverse.1 hmem)
  cases hrest : s.reverse.dropWhile (· ≠ '\n') with
  | nil =>
    rw [hrest] at hsplit
    have hs : s = lastLine s := hsplit.symm
    exact .inl ⟨hs ▸ hnone, hs⟩
  | cons c rest =>
    have hc : c = '\n' := by
      have hhead := List.head?_dropWhile_not (· ≠ '\n') s.reverse
      rw [hrest] at hhead
      simpa using hhead
    rw [hrest, hc, List.reverse_cons, List.append_assoc] at hsplit
    have hs : s = rest.reverse ++ '\n' :: lastLine s := hsplit.symm
    refine .inr ⟨rest.reverse, hs, ?_⟩
    conv_lhs => rw [hs]
    rw [List.count_append, List.count_cons_self, hnone]

/-- The segment that a place is in goes from the line feed before it to the one after it. -/
theorem getElem?_segments (before after : List Char) :
    (segments (before ++ after))[before.count '\n']? = some (lastLine before ++ after.takeWhile (· ≠ '\n')) := by
  have hfirst {line : List Char} (hline : line.count '\n' = 0) :
      (segments (line ++ after))[0]? = some (line ++ after.takeWhile (· ≠ '\n')) := by
    rw [← List.head?_eq_getElem?, head?_segments, List.takeWhile_append_of_pos]
    intro c hc
    simpa using ne_of_mem_of_not_mem hc (List.count_eq_zero.1 hline)
  rcases eq_lastLine_or before with ⟨hcount, hbefore⟩ | ⟨a, hbefore, hcount⟩
  · rw [hcount, ← hbefore]
    exact hfirst hcount
  · have hline : (lastLine before).count '\n' = 0 := by
      have htotal := congrArg (List.count '\n') hbefore
      rw [List.count_append, List.count_cons_self] at htotal
      omega
    have hsegments : segments (before ++ after) = segments a ++ segments (lastLine before ++ after) := by
      conv_lhs => rw [hbefore]
      rw [List.append_assoc, List.cons_append, segments_append_newline]
    rw [hsegments, hcount, ← length_segments, List.getElem?_append_right (Nat.le_refl _), Nat.sub_self]
    exact hfirst hline

/-! ## Lines -/

theorem getElem?_lines_of_lt {s part : List Char} {k : Nat} (hpart : (segments s)[k]? = some part) (hk : k < s.count '\n') :
    (lines s)[k]? = some (trimCarriageReturn part) := by
  have hlength : k < ((segments s).dropLast.map trimCarriageReturn).length := by
    rw [List.length_map, List.length_dropLast, length_segments]
    omega
  rw [lines, List.getElem?_append_left hlength, List.getElem?_map, List.getElem?_dropLast, if_pos, hpart]
  · rfl
  · rw [length_segments]
    omega

theorem getElem?_lines_of_eq {s part : List Char} {k : Nat} (hpart : (segments s)[k]? = some part) (hk : k = s.count '\n')
    (hne : part ≠ []) : (lines s)[k]? = some part := by
  have hlength : ((segments s).dropLast.map trimCarriageReturn).length = k := by
    rw [List.length_map, List.length_dropLast, length_segments, hk, Nat.add_sub_cancel]
  have hlast : (segments s).getLast? = some part := by
    rw [List.getLast?_eq_getElem?, length_segments, Nat.add_sub_cancel, ← hk, hpart]
  rw [lines, List.getElem?_append_right (Nat.le_of_eq hlength), hlength, Nat.sub_self, hlast]
  simp [hne]

/-- A character that is no carriage return is not trimmed. -/
theorem getElem?_trimCarriageReturn {line more : List Char} {c : Char} (hc : c ≠ '\r') :
    (trimCarriageReturn (line ++ c :: more))[line.length]? = some c := by
  have hself : (line ++ c :: more)[line.length]? = some c := by simp
  unfold trimCarriageReturn
  split
  · rename_i hlast
    rw [List.getElem?_dropLast, if_pos, hself]
    have hmore : more ≠ [] := by
      rintro rfl
      rw [List.getLast?_append, List.getLast?_singleton] at hlast
      exact hc (Option.some.inj hlast)
    have := List.length_pos_iff.2 hmore
    rw [List.length_append, List.length_cons]
    omega
  · exact hself

theorem length_trimCarriageReturn_le (line : List Char) : (trimCarriageReturn line).length ≤ line.length := by
  unfold trimCarriageReturn
  split
  · rw [List.length_dropLast]
    omega
  · exact Nat.le_refl _

/-- The line of a character has it in its column; the line of a line feed ends before it. -/
theorem exists_line (before after : List Char) {c : Char} (hc : c ≠ '\r') :
    ∃ row, (lines (before ++ c :: after))[before.count '\n']? = some row ∧
      row[(lastLine before).length]? = if c = '\n' then none else some c := by
  have hpart := getElem?_segments before (c :: after)
  have hcount : (before ++ c :: after).count '\n' = before.count '\n' + (c :: after).count '\n' := List.count_append
  by_cases hnewline : c = '\n'
  · subst hnewline
    rw [List.takeWhile_cons_of_neg (by simp), List.append_nil] at hpart
    rw [List.count_cons_self] at hcount
    refine ⟨_, getElem?_lines_of_lt hpart (by omega), ?_⟩
    rw [if_pos rfl]
    exact List.getElem?_eq_none (length_trimCarriageReturn_le _)
  · rw [List.takeWhile_cons_of_pos (by simpa using hnewline)] at hpart
    rw [if_neg hnewline]
    by_cases hlast : before.count '\n' < (before ++ c :: after).count '\n'
    · exact ⟨_, getElem?_lines_of_lt hpart hlast, getElem?_trimCarriageReturn hc⟩
    · exact ⟨_, getElem?_lines_of_eq hpart (by omega) (by simp), by simp⟩

end Text

/-! ## Excerpts -/

namespace Excerpt

/-- What stands between the number of a line and the line. -/
def bar : List Char := [' ', '|', ' ']

/-- An excerpt has a line in a row of its own, with its number, and directly below it a row with nothing but a mark,
above which stands a character of the upper row, or none. -/
def Points (excerpt : String) (number : Nat) (line : List Char) (above : Option Char) : Prop :=
  ∃ head label margin indent tail : List Char,
    excerpt.toList = head ++ (label ++ bar ++ line) ++ '\n' :: (margin ++ bar ++ indent) ++ '^' :: '\n' :: tail ∧
      (∀ c ∈ head.getLast?, c = '\n') ∧ (∀ c ∈ margin ++ indent, c = ' ') ∧
      label.length = margin.length ∧ (∃ blanks, label = blanks ++ (Text.decimal number).toList ∧ ∀ c ∈ blanks, c = ' ') ∧
      (label ++ bar ++ line)[(margin ++ bar ++ indent).length]? = above

theorem Points.ne_empty {excerpt : String} {number : Nat} {line : List Char} {above : Option Char}
    (h : Points excerpt number line above) : excerpt ≠ "" := by
  rintro rfl
  obtain ⟨head, label, margin, indent, tail, htext, -⟩ := h
  simp at htext

theorem length_decimal_le {m n : Nat} (h : m ≤ n) : (Text.decimal m).length ≤ (Text.decimal n).length := by
  have hpos : 0 < (Nat.toDigits 10 n).length := Nat.length_toDigits_pos
  rw [Text.decimal, Text.decimal, String.length_ofList, String.length_ofList]
  rw [Nat.length_toDigits_le_iff (by decide) hpos]
  exact Nat.lt_of_le_of_lt h ((Nat.length_toDigits_le_iff (by decide) hpos).1 (Nat.le_refl _))

/-! ### Rows -/

/-- The row above the first line and below the last. -/
def rule (width : Nat) : String := String.ofList (List.replicate (width + 1) '-') ++ "|--\n"

/-- The row of a line with its number. -/
def numbered (lines : List (List Char)) (width n : Nat) : String :=
  Text.padLeft width ' ' (Text.decimal n) ++ " | " ++ String.ofList (lines.getD (n - 1) []) ++ "\n"

/-- The row of the mark. -/
def mark (width column : Nat) : String := Text.padLeft width ' ' "" ++ " | " ++ Text.padLeft (column - 1) ' ' "" ++ "^\n"

/-- A text that ends where a row does. -/
def EndsRow (s : List Char) : Prop := ∀ c ∈ s.getLast?, c = '\n'

theorem endsRow_newline (s : String) : EndsRow (s ++ "\n").toList := by simp [EndsRow]

theorem EndsRow.append {a b : List Char} (ha : EndsRow a) (hb : EndsRow b) : EndsRow (a ++ b) := by
  intro c hc
  rw [List.getLast?_append] at hc
  cases hlast : b.getLast? with
  | none =>
    rw [hlast, Option.none_or] at hc
    exact ha c hc
  | some d =>
    rw [hlast, Option.some_or] at hc
    exact hb c (hlast ▸ hc)

theorem endsRow_rule (width : Nat) : EndsRow (rule width).toList := by simp [EndsRow, rule]

theorem endsRow_numbered (lines : List (List Char)) (width : Nat) (ns : List Nat) :
    EndsRow (ns.flatMap fun n => (numbered lines width n).toList) := by
  induction ns with
  | nil => simp [EndsRow]
  | cons n ns ih =>
    rw [List.flatMap_cons]
    exact (endsRow_newline _).append ih

theorem toList_padLeft (width : Nat) (s : String) :
    (Text.padLeft width ' ' s).toList = List.replicate (width - s.length) ' ' ++ s.toList := by
  simp [Text.padLeft]

/-- The rows of an excerpt: some lines, the line in question with the mark below it, and some more lines. -/
theorem exists_render_eq {text : List Char} {number : Nat} (column : Nat) (hpos : 0 < number)
    (hle : number ≤ (Text.lines text).length) :
    ∃ width head tail, (Text.decimal number).length ≤ width ∧ EndsRow head ∧ (render text number column).toList =
      head ++ ((numbered (Text.lines text) width number).toList ++ (mark width column).toList) ++ tail := by
  set lines := Text.lines text
  set first := max (number - around) 1 with hfirst
  set last := min (number + around) lines.length with hlast
  have hfirst_le : first ≤ number := by omega
  have hle_last : number ≤ last := by
    have : around = 2 := rfl
    omega
  set width := (Text.decimal last).length
  let rows (ns : List Nat) : List Char := ns.flatMap fun n => (numbered lines width n).toList
  refine ⟨width, (rule width).toList ++ rows (List.range' first (number - first)),
    rows (List.range' (number + 1) (last - number)) ++ (rule width).toList, length_decimal_le hle_last,
    (endsRow_rule width).append (endsRow_numbered lines width _), ?_⟩
  have hrender : render text number column = rule width ++ String.join ((List.range' first (last + 1 - first)).map fun n =>
      if n = number then numbered lines width n ++ mark width column else numbered lines width n) ++ rule width :=
    if_neg (not_or.2 ⟨Nat.ne_of_gt hpos, Nat.not_lt.2 hle⟩)
  have hrange : List.range' first (last + 1 - first) =
      List.range' first (number - first) ++ number :: List.range' (number + 1) (last - number) := by
    have hlength : last + 1 - first = (number - first) + (last - number + 1) := by omega
    rw [hlength, ← List.range'_append, List.range'_succ, Nat.one_mul, Nat.add_sub_cancel' hfirst_le]
  have hothers (ns : List Nat) (hns : number ∉ ns) : (ns.flatMap fun n =>
      (if n = number then numbered lines width n ++ mark width column else numbered lines width n).toList) =
      rows ns := by
    rw [List.flatMap_def]
    exact congrArg List.flatten (List.map_congr_left fun n hn => by rw [if_neg (ne_of_mem_of_not_mem hn hns)])
  rw [hrender, String.toList_append, String.toList_append, String.toList_join, List.flatMap_map, hrange, List.flatMap_append,
    List.flatMap_cons, hothers _ (by simp [List.mem_range']; omega), hothers _ (by simp [List.mem_range']; omega), if_pos rfl,
    String.toList_append]
  simp only [List.append_assoc]

/-- A line that there is, is shown with a mark under the column. -/
theorem points_render {text row : List Char} {number : Nat} (column : Nat) (hpos : 0 < number)
    (hrow : (Text.lines text)[number - 1]? = some row) :
    Points (render text number column) number row row[column - 1]? := by
  obtain ⟨hlt, -⟩ := List.getElem?_eq_some_iff.1 hrow
  have hle : number ≤ (Text.lines text).length := by omega
  obtain ⟨width, head, tail, hwidth, hhead, hrender⟩ := exists_render_eq column hpos hle
  let blanks := List.replicate (width - (Text.decimal number).length) ' '
  have hnumbered : (numbered (Text.lines text) width number).toList =
      (blanks ++ (Text.decimal number).toList) ++ bar ++ row ++ ['\n'] := by
    simp [numbered, toList_padLeft, hrow, bar, blanks]
  have hmark : (mark width column).toList =
      List.replicate width ' ' ++ bar ++ List.replicate (column - 1) ' ' ++ ['^', '\n'] := by
    simp [mark, toList_padLeft, bar]
  have hlabel : (blanks ++ (Text.decimal number).toList).length = width := by
    simp only [blanks, List.length_append, List.length_replicate, String.length_toList]
    omega
  refine ⟨head, blanks ++ (Text.decimal number).toList, List.replicate width ' ', List.replicate (column - 1) ' ', tail,
    ?_, hhead, ?_, by rw [hlabel, List.length_replicate], ⟨blanks, rfl, fun c => List.eq_of_mem_replicate⟩, ?_⟩
  · rw [hrender, hnumbered, hmark]
    simp
  · intro c hc
    rw [List.replicate_append_replicate] at hc
    exact List.eq_of_mem_replicate hc
  -- The row and the mark have the same width before the line and the column begin.
  · have hbar : (blanks ++ (Text.decimal number).toList ++ bar).length = (List.replicate width ' ' ++ bar).length := by
      rw [List.length_append, hlabel, List.length_append, List.length_replicate]
    rw [List.length_append, ← hbar, List.length_replicate, List.getElem?_append_right (Nat.le_add_right ..),
      Nat.add_sub_cancel_left]

end Excerpt

end Assembler
