import Assembler.Proofs.Complaints
import Assembler.Proofs.Parsed
/-!
# Rounds of reading

Reading goes round by round: newlines are skipped, and then the line that begins there is read. Every round moves on by
a token or more and stays within the tokens (`Draft.Round.Advances`), so no tokens can be read for ever, and a program
has at most as many rounds as tokens. A round that gives no statement says why (`Draft.Round.Explains`). Main
statement: `Workspace.parse_rounds`, for all tokens, whether or not a text has them.
-/

namespace Assembler

namespace Draft

open Workspace

/-! ## Rounds -/

/-- A round of reading. -/
structure Round where
  /-- The position of the first token of the line. -/
  first : Nat
  /-- The position of the token after those that were read. -/
  next : Nat
  /-- The tokens that were not read. -/
  left : List Token
  /-- The statement that the line was read as. -/
  statement : Option NodeId
  before : Draft
  after : Draft

/-- The position of the next token that is no newline. -/
def skipNewlines (tokens : List Token) (position : Nat) : Nat :=
  position + ((tokens.drop position).takeWhile Token.isNewline).length

/-- The round that begins at a position, unless only newlines are left. -/
def round? (tokens : List Token) (position : Nat) (d : Draft) : Option Round :=
  let first := skipNewlines tokens position
  match tokens.drop first with
  | [] => none
  | t :: rest =>
    let (left, after) := readLine t rest d
    some {
      first, left, after
      next := first + ((t :: rest).length - left.length)
      statement := (Workspace.statement t rest d.toWorkspace).value
      before := d }

/-- The rounds from a position on, with the position and the draft that they end in. -/
inductive Rounds (tokens : List Token) : Nat → Draft → List Round → Nat → Draft → Prop
  | stop {position : Nat} {d : Draft} (h : round? tokens position d = none) :
      Rounds tokens position d [] (skipNewlines tokens position) d
  | round {position last : Nat} {d e : Draft} {r : Round} {rs : List Round} (h : round? tokens position d = some r)
      (hrest : Rounds tokens r.next r.after rs last e) : Rounds tokens position d (r :: rs) last e

/-- A round leads from one position and draft to another. -/
def Follows (tokens : List Token) (later earlier : Nat × Draft) : Prop :=
  ∃ r, round? tokens earlier.1 earlier.2 = some r ∧ later = (r.next, r.after)

/-- A round reads its first token at least, and no more than there is. -/
structure Round.Advances (tokens : List Token) (r : Round) : Prop where
  first_lt_next : r.first < r.next
  next_le : r.next ≤ tokens.length
  drop_next : tokens.drop r.next = r.left

/-- A round without a statement adds an error to the diagnostics. -/
def Round.Explains (r : Round) : Prop :=
  r.statement = none → ∃ added, r.after.diagnostics = r.before.diagnostics ++ added ∧ ∃ d ∈ added, d.severity = .error

variable {tokens : List Token} {position last : Nat} {d e : Draft} {r : Round} {rs : List Round}

/-! ## What one round does -/

theorem drop_skipNewlines (tokens : List Token) (position : Nat) :
    tokens.drop (skipNewlines tokens position) = (tokens.drop position).dropWhile Token.isNewline := by
  have hsplit := List.takeWhile_append_dropWhile (p := Token.isNewline) (l := tokens.drop position)
  rw [skipNewlines, ← List.drop_drop]
  exact (congrArg (List.drop _) hsplit.symm).trans List.drop_left

theorem skipNewlines_le {position : Nat} (h : position ≤ tokens.length) : skipNewlines tokens position ≤ tokens.length := by
  have hle := (List.takeWhile_sublist (p := Token.isNewline) (l := tokens.drop position)).length_le
  rw [List.length_drop] at hle
  rw [skipNewlines]
  omega

/-- A round reads the line after the newlines. -/
theorem exists_of_round?_eq_some (h : round? tokens position d = some r) :
    ∃ t rest, tokens.drop r.first = t :: rest ∧ r.first = skipNewlines tokens position ∧ r.before = d ∧
      r.left = (readLine t rest d).1 ∧ r.after = (readLine t rest d).2 ∧
      r.next = r.first + ((t :: rest).length - r.left.length) ∧
      r.statement = (Workspace.statement t rest d.toWorkspace).value := by
  unfold round? at h
  dsimp only at h
  split at h
  · cases h
  · rename_i t rest hdrop
    cases h
    exact ⟨t, rest, hdrop, rfl, rfl, rfl, rfl, rfl, rfl⟩

theorem advances_of_round? (h : round? tokens position d = some r) : r.Advances tokens := by
  obtain ⟨t, rest, hdrop, -, -, hleft, -, hnext, -⟩ := exists_of_round?_eq_some h
  obtain ⟨used, hused⟩ := readLine_suffix t rest d
  rw [← hleft] at hused
  have hlength : tokens.length - r.first = rest.length + 1 := by
    rw [← List.length_drop, hdrop, List.length_cons]
  have hrest : rest.length = used.length + r.left.length := by
    rw [← List.length_append, hused]
  have hused' : r.next = r.first + (1 + used.length) := by
    rw [hnext, List.length_cons]
    omega
  refine ⟨by omega, by omega, ?_⟩
  rw [hused', ← List.drop_drop, hdrop, Nat.add_comm, List.drop_succ_cons, ← hused, List.drop_left]

theorem explains_of_round? (h : round? tokens position d = some r) : r.Explains := by
  obtain ⟨t, rest, -, -, hbefore, -, hafter, -, hstatement⟩ := exists_of_round?_eq_some h
  intro hnone
  obtain ⟨added, hadded, hcomplaint⟩ := complains_readLine t rest d
  rw [← hafter, ← hbefore] at hadded
  refine ⟨added, hadded, ?_⟩
  -- Had nothing been reported, the line would have been read as a sentence.
  have hne : added ≠ [] := by
    rintro rfl
    have hquiet : (Workspace.statement t rest d.toWorkspace).workspace.diagnostics = d.diagnostics := by
      rw [hbefore, hafter, readLine, ← hstatement, hnone, List.append_nil] at hadded
      exact hadded
    obtain ⟨-, id, -, -, hid, -⟩ := statement_quiet hquiet
    rw [← hstatement, hnone] at hid
    cases hid
  obtain ⟨x, hx⟩ := List.exists_mem_of_ne_nil added hne
  exact ⟨x, hx, (hcomplaint x hx).severity_eq⟩

/-- No tokens are read for ever, from whatever position and after whatever was read before. -/
theorem wellFounded_follows (tokens : List Token) : WellFounded (Follows tokens) := by
  refine Subrelation.wf ?_ (measure fun state : Nat × Draft => tokens.length - state.1).wf
  rintro _ ⟨position, d⟩ ⟨r, hr, rfl⟩
  obtain ⟨-, -, -, hfirst, -⟩ := exists_of_round?_eq_some hr
  obtain ⟨hlt, hle, -⟩ := advances_of_round? hr
  have hskip : position ≤ r.first := hfirst ▸ Nat.le_add_right ..
  change tokens.length - r.next < tokens.length - position
  omega

/-! ## All rounds -/

theorem read_dropWhile_isNewline (tokens : List Token) (d : Draft) :
    read (tokens.dropWhile Token.isNewline) d = read tokens d := by
  induction tokens with
  | nil => rfl
  | cons t rest ih =>
    by_cases ht : t.isNewline
    · rw [List.dropWhile_cons_of_pos ht, ih, read, if_pos ht]
    · rw [List.dropWhile_cons_of_neg ht]

/-- Where no round begins all tokens are read. -/
theorem of_round?_eq_none (hposition : position ≤ tokens.length) (h : round? tokens position d = none) :
    skipNewlines tokens position = tokens.length ∧ read (tokens.drop position) d = d := by
  have hdrop : tokens.drop (skipNewlines tokens position) = [] := by
    unfold round? at h
    dsimp only at h
    split at h
    · assumption
    · cases h
  refine ⟨Nat.le_antisymm (skipNewlines_le hposition) (List.drop_eq_nil_iff.1 hdrop), ?_⟩
  rw [← read_dropWhile_isNewline, ← drop_skipNewlines, hdrop, read]

/-- Reading goes on after a round with what the round left. -/
theorem read_of_round? (h : round? tokens position d = some r) :
    read (tokens.drop r.next) r.after = read (tokens.drop position) d := by
  obtain ⟨t, rest, hdrop, hfirst, -, hleft, hafter, -⟩ := exists_of_round?_eq_some h
  rw [hfirst, drop_skipNewlines] at hdrop
  have ht : ¬ t.isNewline := fun ht => by
    have hhead := List.head?_dropWhile_not Token.isNewline (tokens.drop position)
    rw [hdrop] at hhead
    simp [ht] at hhead
  rw [(advances_of_round? h).drop_next, hleft, hafter, ← read_dropWhile_isNewline (tokens.drop position), hdrop]
  conv_rhs => rw [read, if_neg ht]

/-- From every position the rounds lead to the end of the tokens, and come to what reading comes to. -/
theorem exists_rounds (hposition : position ≤ tokens.length) (d : Draft) :
    ∃ rs, Rounds tokens position d rs tokens.length (read (tokens.drop position) d) := by
  induction hsize : tokens.length - position using Nat.strong_induction_on generalizing position d with
  | _ size ih =>
    cases hround : round? tokens position d with
    | none =>
      obtain ⟨hlast, hread⟩ := of_round?_eq_none hposition hround
      rw [hread]
      exact ⟨[], hlast ▸ .stop hround⟩
    | some r =>
      obtain ⟨-, -, -, hfirst, -⟩ := exists_of_round?_eq_some hround
      obtain ⟨hlt, hle, -⟩ := advances_of_round? hround
      have hskip : position ≤ r.first := hfirst ▸ Nat.le_add_right ..
      obtain ⟨rs, hrs⟩ := ih (tokens.length - r.next) (by omega) hle r.after rfl
      rw [read_of_round? hround] at hrs
      exact ⟨r :: rs, .round hround hrs⟩

namespace Rounds

theorem length_le (h : Rounds tokens position d rs last e) : position + rs.length ≤ last := by
  induction h with
  | stop => exact Nat.le_add_right ..
  | @round position last d e r rs hround _ ih =>
    obtain ⟨-, -, -, hfirst, -⟩ := exists_of_round?_eq_some hround
    have hskip : position ≤ r.first := hfirst ▸ Nat.le_add_right ..
    have hlt := (advances_of_round? hround).first_lt_next
    rw [List.length_cons]
    omega

theorem forall_mem (h : Rounds tokens position d rs last e) : ∀ r ∈ rs, r.Advances tokens ∧ r.Explains := by
  induction h with
  | stop => simp
  | round hround _ ih => exact List.forall_mem_cons.2 ⟨⟨advances_of_round? hround, explains_of_round? hround⟩, ih⟩

end Rounds

end Draft

/-- Reading comes to an end on any tokens: no rounds go on for ever, those from the start are no more than there are
tokens and end where all tokens are read, and each of them advances within the tokens and explains why it gives no
statement. -/
theorem Workspace.parse_rounds (file : String) (tokens : List Token) :
    WellFounded (Draft.Follows tokens) ∧
    ∃ log rounds e, Draft.Rounds tokens 0 { toWorkspace := { log } } rounds tokens.length e ∧ parse file tokens = e.finish ∧
      rounds.length ≤ tokens.length ∧ ∀ r ∈ rounds, r.Advances tokens ∧ r.Explains := by
  let start : Workspace := ({} : Workspace).tell ⟨.debug, .phase .parser, "Parsing started",
    [("file", .plain file), ("tokens", .nat tokens.length)]⟩
  obtain ⟨rounds, hrounds⟩ := Draft.exists_rounds (Nat.zero_le tokens.length) { toWorkspace := start }
  have hlength := hrounds.length_le
  rw [Nat.zero_add] at hlength
  exact ⟨Draft.wellFounded_follows tokens, start.log, rounds, _, hrounds, rfl, hlength, hrounds.forall_mem⟩

end Assembler
