import Mathlib.Data.List.Basic
import Mathlib.Data.List.TakeWhile
import Assembler.Program.Parser
import Assembler.Token.Stream
/-!
# Streams

Lexer and parser are given what is left of a text or of its tokens. Nothing but the steps of a stream lies between one of
these and the next: a token is located where a cursor stands once it has read the trivia (`Lexer.exists_reads_of_next`),
a run of characters of one kind is read while they are of that kind (`Cursor.exists_readsWhile`), and a line is read from a
stream of tokens (`Draft.exists_reads_readLine`). A line that is no statement is left through `TokenStream.synchronize`,
which makes sure that the stream moves on, and does not go beyond the end of a line that was read. Neither comes up: such a
line has read its first token, and no end of a line.
-/

namespace Assembler

/-! ## Characters -/

namespace Cursor

/-- Some characters are read one after the other. -/
inductive Reads : Cursor → List Char → Cursor → Prop
  | nil (c : Cursor) : Reads c [] c
  | cons {c c' c'' : Cursor} {x : Char} {text : List Char} (h : c.next? = some (x, c')) (hrest : Reads c' text c'') :
      Reads c (x :: text) c''

/-- Characters are read as long as they pass a test. -/
inductive ReadsWhile (test : Char → Bool) : Cursor → List Char → Cursor → Prop
  | nil {c : Cursor} (h : c.nextIf? test = none) : ReadsWhile test c [] c
  | cons {c c' c'' : Cursor} {x : Char} {text : List Char} (h : c.nextIf? test = some (x, c'))
      (hrest : ReadsWhile test c' text c'') : ReadsWhile test c (x :: text) c''

variable {c c' : Cursor} {text : List Char}

/-- Reading takes characters off the text, and counts them. -/
theorem reads_iff : c.Reads text c' ↔
    c.file = c'.file ∧ c.rest = text ++ c'.rest ∧ c'.position = c.position.after text := by
  constructor
  · intro h
    induction h with
    | nil c => exact ⟨rfl, rfl, rfl⟩
    | @cons c c' c'' x text hnext _ ih =>
      obtain ⟨file, rest, position⟩ := c
      cases rest with
      | nil => cases hnext
      | cons y rest =>
        cases hnext
        obtain ⟨hfile, hrest, hposition⟩ := ih
        exact ⟨hfile, congrArg (x :: ·) hrest, hposition⟩
  · rintro ⟨hfile, hrest, hposition⟩
    induction text generalizing c with
    | nil =>
      obtain ⟨file, rest, position⟩ := c
      obtain ⟨file', rest', position'⟩ := c'
      cases hfile
      cases hrest
      cases hposition
      exact .nil _
    | cons x text ih =>
      obtain ⟨file, rest, position⟩ := c
      cases hrest
      exact .cons rfl (ih hfile rfl hposition)

/-- Reading while a test is passed takes up the longest run of characters that pass it. -/
theorem readsWhile_iff {test : Char → Bool} : c.ReadsWhile test text c' ↔ text = c.rest.takeWhile test ∧ c.Reads text c' := by
  constructor
  · intro h
    induction h with
    | @nil c h =>
      refine ⟨?_, .nil c⟩
      obtain ⟨file, rest, position⟩ := c
      cases rest with
      | nil => rfl
      | cons x rest =>
        have hx : ¬ test x := by simpa [nextIf?, next?] using h
        exact (List.takeWhile_cons_of_neg hx).symm
    | @cons c c' c'' x text hnext _ ih =>
      obtain ⟨file, rest, position⟩ := c
      cases rest with
      | nil => cases hnext
      | cons y rest =>
        obtain ⟨hnext, hx⟩ := Option.filter_eq_some_iff.1 hnext
        cases hnext
        have hx : test x := hx
        exact ⟨by rw [List.takeWhile_cons_of_pos hx, ih.1], .cons rfl ih.2⟩
  · rintro ⟨htext, hreads⟩
    induction hreads with
    | nil c =>
      refine .nil ?_
      obtain ⟨file, rest, position⟩ := c
      cases rest with
      | nil => rfl
      | cons x rest =>
        by_cases hx : test x
        · rw [List.takeWhile_cons_of_pos hx] at htext
          cases htext
        · simpa [nextIf?, next?] using hx
    | @cons c c' c'' x text hnext _ ih =>
      obtain ⟨file, rest, position⟩ := c
      cases rest with
      | nil => cases hnext
      | cons y rest =>
        cases hnext
        by_cases hx : test x
        · rw [List.takeWhile_cons_of_pos hx] at htext
          exact .cons (Option.filter_eq_some_iff.2 ⟨rfl, hx⟩) (ih (List.cons.inj htext).2)
        · rw [List.takeWhile_cons_of_neg hx] at htext
          cases htext

/-- A run of characters of one kind, which a reader of lexemes takes up at once, is read while the test is passed. -/
theorem exists_readsWhile (c : Cursor) (test : Char → Bool) :
    ∃ c', c.ReadsWhile test (c.rest.takeWhile test) c' ∧ c'.rest = c.rest.dropWhile test :=
  ⟨⟨c.file, c.rest.dropWhile test, c.position.after (c.rest.takeWhile test)⟩,
    readsWhile_iff.2 ⟨rfl, reads_iff.2 ⟨rfl, List.takeWhile_append_dropWhile.symm, rfl⟩⟩, rfl⟩

end Cursor

namespace Lexer

def cursor (l : Lexer) : Cursor := ⟨l.file, l.rest, l.position⟩

/-- A lexer reads trivia and then a lexeme, and locates the token between the two. -/
theorem exists_reads_of_next {l l' : Lexer} {t : Token} (h : l.next.1 = some (t, l')) : ∃ blank text c,
    l.cursor.Reads blank c ∧ c.Reads text l'.cursor ∧ text ≠ [] ∧ t.location = c.location := by
  unfold next at h
  dsimp only at h
  split at h
  · cases h
  · rename_i c rest hrest
    cases h
    have htrivia := Trivia.text_append_rest l.rest
    rw [hrest] at htrivia
    have hlexeme := Lexeme.text_append_rest c rest
    let between : Cursor := ⟨l.file, c :: rest, l.position.after (Trivia.read l.rest).text⟩
    exact ⟨_, _, between, Cursor.reads_iff.2 ⟨rfl, htrivia.symm, rfl⟩, Cursor.reads_iff.2 ⟨rfl, hlexeme.symm, rfl⟩,
      Lexeme.text_ne_nil c rest, rfl⟩

end Lexer

/-! ## Tokens -/

namespace TokenStream

/-- Some tokens are read one after the other. -/
inductive Reads : TokenStream → List Token → TokenStream → Prop
  | nil (s : TokenStream) : Reads s [] s
  | cons {s s' s'' : TokenStream} {t : Token} {ts : List Token} (h : s.next? = some (t, s')) (hrest : Reads s' ts s'') :
      Reads s (t :: ts) s''

/-- The stream once all tokens before the next end of a line have been read. -/
def skipLine (s : TokenStream) : TokenStream :=
  { s with before := (s.after.takeWhile (!·.isNewline)).reverse ++ s.before, after := s.after.dropWhile (!·.isNewline) }

/-- The stream once a line that began at some position is left: a token further at least, and at the end of the line unless
that was read last. -/
def synchronize (start : Nat) (s : TokenStream) : TokenStream :=
  let s := if s.position = start then (s.next?.map (·.2)).getD s else s
  if s.before.head?.any Token.isNewline then s else s.skipLine

variable {s s' : TokenStream} {ts : List Token} {t : Token}

/-- Reading moves tokens from what is still to be read to what has been. -/
theorem reads_iff : s.Reads ts s' ↔ s.file = s'.file ∧ s.after = ts ++ s'.after ∧ s'.before = ts.reverse ++ s.before := by
  constructor
  · intro h
    induction h with
    | nil s => exact ⟨rfl, rfl, rfl⟩
    | @cons s s' s'' t ts hnext _ ih =>
      obtain ⟨file, before, after⟩ := s
      cases after with
      | nil => cases hnext
      | cons u after =>
        cases hnext
        obtain ⟨hfile, hafter, hbefore⟩ := ih
        exact ⟨hfile, congrArg (t :: ·) hafter, by simp [hbefore]⟩
  · rintro ⟨hfile, hafter, hbefore⟩
    induction ts generalizing s with
    | nil =>
      obtain ⟨file, before, after⟩ := s
      obtain ⟨file', before', after'⟩ := s'
      cases hfile
      cases hafter
      cases hbefore
      exact .nil _
    | cons t ts ih =>
      obtain ⟨file, before, after⟩ := s
      cases hafter
      refine .cons rfl (ih hfile rfl ?_)
      rw [hbefore, List.reverse_cons, List.append_assoc]
      rfl

theorem exists_reads (h : ts <:+ s.after) : ∃ used s', s.Reads used s' ∧ s'.after = ts := by
  obtain ⟨used, hused⟩ := h
  exact ⟨used, { s with before := used.reverse ++ s.before, after := ts }, reads_iff.2 ⟨rfl, hused.symm, rfl⟩, rfl⟩

theorem Reads.position_eq (h : s.Reads ts s') : s'.position = s.position + ts.length := by
  obtain ⟨-, -, hbefore⟩ := reads_iff.1 h
  rw [position, hbefore, List.length_append, List.length_reverse, Nat.add_comm]
  rfl

/-- Reading can be taken back. -/
theorem Reads.rewind_eq (h : s.Reads ts s') : s'.rewind ts.length = s := by
  obtain ⟨hfile, hafter, hbefore⟩ := reads_iff.1 h
  have hlength : ts.reverse.length = ts.length := List.length_reverse
  rw [rewind, hbefore, List.drop_left' hlength, List.take_left' hlength, List.reverse_reverse, ← hafter, ← hfile]

/-- The stream has the tokens that it had. -/
theorem Reads.tokens_eq (h : s.Reads ts s') : s'.tokens = s.tokens := by
  rw [← h.rewind_eq, tokens_rewind]

/-- The last token of the stream, where the end of the text is reported, is the last of what was left before any reading
that began with a token. -/
theorem Reads.lastLocation_tokens (h : s.Reads ts s') (hne : s.after ≠ []) :
    Workspace.lastLocation s'.tokens = Workspace.lastLocation s.after := by
  rw [h.tokens_eq, Workspace.lastLocation, tokens, List.getLast?_append_of_ne_nil _ hne, Workspace.lastLocation]

/-- Where a token has been read and no end of a line, the rest of the line is all that is skipped. -/
theorem after_synchronize {start : TokenStream} (h : start.Reads ts s) (hne : ts ≠ []) (hline : ∀ t ∈ ts, ¬ t.isNewline) :
    (s.synchronize start.position).after = Workspace.toNewline s.after := by
  obtain ⟨-, -, hbefore⟩ := reads_iff.1 h
  have hmoved : s.position ≠ start.position := by
    have hlength := List.length_pos_iff.2 hne
    rw [h.position_eq]
    omega
  have hlast : ¬ s.before.head?.any Token.isNewline := by
    obtain ⟨t, hlast⟩ := Option.isSome_iff_exists.1 (List.getLast?_isSome.2 hne)
    rw [hbefore, List.head?_append, List.head?_reverse, hlast]
    exact hline t (List.mem_of_getLast? hlast)
  rw [synchronize, if_neg hmoved, if_neg hlast]
  rfl

end TokenStream

/-! ## Lines -/

namespace Workspace

/-- What a statement has used, beginning with its first token, goes over no end of a line. -/
structure Uses (tokens left : List Token) : Prop where
  exists_used : ∃ used, tokens = used ++ left ∧ ∀ t ∈ used, ¬ t.isNewline

theorem Uses.refl (tokens : List Token) : Uses tokens tokens := ⟨[], rfl, fun _ h => nomatch h⟩

theorem Uses.cons {t : Token} {tokens left : List Token} (ht : ¬ t.isNewline) (h : Uses tokens left) :
    Uses (t :: tokens) left := by
  obtain ⟨used, rfl, hused⟩ := h
  exact ⟨t :: used, rfl, List.forall_mem_cons.2 ⟨ht, hused⟩⟩

theorem Uses.trans {tokens more left : List Token} (h : Uses tokens more) (h' : Uses more left) : Uses tokens left := by
  obtain ⟨used, rfl, hused⟩ := h
  obtain ⟨used', rfl, hused'⟩ := h'
  exact ⟨used ++ used', (List.append_assoc ..).symm, List.forall_mem_append.2 ⟨hused, hused'⟩⟩

/-- An operand is a token of its line, or is missing. -/
theorem uses_operand (statement rest : List Token) (w : Workspace) : Uses rest (operand statement rest w).rest := by
  unfold operand
  split
  · exact .refl []
  · rename_i t after
    split
    · exact .refl _
    · rename_i ht
      exact .cons (by simpa [Token.isNewline] using ht) (.refl after)

theorem uses_command (t : Token) (rest : List Token) (w : Workspace) : Uses rest (command t rest w).rest := by
  unfold command
  dsimp only
  split
  · split <;> exact uses_operand ..
  · split
    · split <;> exact (uses_operand ..).trans (uses_operand ..)
    · exact .refl rest

/-- What is no statement has been read as far as its line at most: a directive, which may go on, is always one. -/
theorem uses_statement {t : Token} {rest : List Token} {w : Workspace} (h : (statement t rest w).value = none) :
    Uses rest (statement t rest w).rest := by
  unfold statement at h ⊢
  split at h
  · cases h
  · cases h
  · exact uses_command ..
  · exact .refl rest

end Workspace

namespace Draft

open Workspace

/-- The line that begins with the next token of a stream is read from it: first what there is of a statement, and then, if
that is none, what is skipped up to the end of the line. -/
theorem exists_reads_readLine {s : TokenStream} {t : Token} {rest : List Token} (hafter : s.after = t :: rest)
    (ht : ¬ t.isNewline) (d : Draft) :
    (∃ used s', s.Reads used s' ∧ s'.after = (readLine t rest d).1) ∧
    ((Workspace.statement t rest d.toWorkspace).value = none → ∃ used s', s.Reads used s' ∧
      s'.after = (Workspace.statement t rest d.toWorkspace).rest ∧
      (s'.synchronize s.position).after = (readLine t rest d).1) := by
  constructor
  · exact TokenStream.exists_reads (hafter ▸ (readLine_suffix t rest d).trans (List.suffix_cons ..))
  · intro hnone
    obtain ⟨used, hused, hline⟩ := uses_statement hnone
    let s' : TokenStream :=
      ⟨s.file, (t :: used).reverse ++ s.before, (Workspace.statement t rest d.toWorkspace).rest⟩
    have hreads : s.Reads (t :: used) s' := TokenStream.reads_iff.2 ⟨rfl, hafter.trans (congrArg (t :: ·) hused), rfl⟩
    refine ⟨t :: used, s', hreads, rfl, ?_⟩
    rw [TokenStream.after_synchronize hreads (List.cons_ne_nil t used) (List.forall_mem_cons.2 ⟨ht, hline⟩), readLine]
    simp only [hnone]
    rfl

end Draft

end Assembler
