import Mathlib.Data.List.Induction
import Assembler.Proofs.Bindings
import Assembler.Proofs.Parsed
/-!
# Names in interpolations

An interpolation stands for the label that was declared last before it under the name inside. So nothing is reported of
tokens that are laid out in sentences just if the names in their interpolations are known where these stand, and then
the program tells what the sentences say: `Workspace.tells_parse`.
-/

namespace Assembler

open Stage (Steps)

/-! ## Labels among sentences -/

/-- The name of the label that a sentence declares. -/
def Sentence.label? : Sentence → Option String
  | label name => some name.value
  | _ => none

/-- The place of the last of some sentences that declares a label of some name. -/
def Sentence.lastLabel? (name : String) (ss : List Sentence) : Option Nat :=
  (ss.reverse.findIdx? (·.label? = some name)).map (ss.length - 1 - ·)

namespace Sentence

variable {name : String}

@[simp] theorem lastLabel?_nil : lastLabel? name [] = none := rfl

theorem lastLabel?_concat (ss : List Sentence) (s : Sentence) :
    lastLabel? name (ss ++ [s]) = if s.label? = some name then some ss.length else lastLabel? name ss := by
  rw [lastLabel?, List.reverse_concat, List.findIdx?_cons]
  split
  · rename_i h
    simp_all
  · rename_i h
    have hname : s.label? ≠ some name := by simpa using h
    rw [if_neg hname, lastLabel?, Option.map_map, List.length_append]
    congr 1
    funext i
    simp
    omega

theorem lastLabel?_append (ss ss' : List Sentence) :
    lastLabel? name (ss ++ ss') = ((lastLabel? name ss').map (ss.length + ·)).or (lastLabel? name ss) := by
  induction ss' using List.reverseRecOn with
  | nil => rw [List.append_nil, lastLabel?_nil, Option.map_none, Option.none_or]
  | append_singleton ss' s ih =>
    rw [← List.append_assoc, lastLabel?_concat, lastLabel?_concat, ih]
    split
    · rw [Option.map_some, Option.some_or, List.length_append]
    · rfl

/-- Which label is last hangs on the labels alone. -/
theorem lastLabel?_congr {ss ss' : List Sentence} (h : ss.map label? = ss'.map label?) (name : String) :
    lastLabel? name ss = lastLabel? name ss' := by
  have hlength : ss.length = ss'.length := by simpa using congrArg List.length h
  have hfind (ss : List Sentence) : ss.reverse.findIdx? (·.label? = some name) =
      (ss.map label?).reverse.findIdx? (· = some name) := by
    rw [← List.map_reverse, List.findIdx?_map]
    rfl
  rw [lastLabel?, lastLabel?, hfind, hfind, h, hlength]

theorem lastLabel?_eq_none {ss : List Sentence} (h : ∀ s ∈ ss, s.label? ≠ some name) : lastLabel? name ss = none := by
  rw [lastLabel?, Option.map_eq_none_iff, List.findIdx?_eq_none_iff]
  simpa using h

theorem isSome_lastLabel? {ss : List Sentence} {s : Sentence} (hs : s ∈ ss) (hname : s.label? = some name) :
    (lastLabel? name ss).isSome := by
  rw [lastLabel?, Option.isSome_map, List.findIdx?_isSome, List.any_eq_true]
  exact ⟨s, by simpa using hs, by simpa using hname⟩

end Sentence

/-! ## Known names -/

namespace Token

/-- The name that an interpolation is read for: the first token inside, if that is a name. -/
def nameInside? (t : Token) : Option String :=
  match (Workspace.tokensInside t).1 with
  | u :: _ => if u.kind = .identifier then some u.value else none
  | [] => none

/-- A term that says what it is, or an interpolation of a name that stands for something. -/
def IsKnown (find? : String → Option Nat) (t : Token) : Prop :=
  t.IsLeaf ∨ t.kind = .interpolation ∧ (t.nameInside?.bind find?).isSome

/-- If a term is an interpolation, the name inside stands for a node. -/
def StandsFor (find? : String → Option NodeId) (t : Token) (id : NodeId) : Prop :=
  t.kind = .interpolation → t.nameInside?.bind find? = some id

end Token

namespace Workspace

variable {w : Workspace}

/-- Looking for a name reports something unless the first token is one that stands for a node. -/
theorem firstBound_cons (shared : Shared) (u : Token) (rest : List Token) (s : Session) :
    (u.kind = .identifier ∧ ∃ id, s.find? shared u.value = some id ∧ firstBound shared (u :: rest) s = (some id, s)) ∨
      (u.kind = .identifier → s.find? shared u.value = none) ∧ (firstBound shared (u :: rest) s).2.diagnostics ≠ [] := by
  have hreported (d : Diagnostic) : (firstBound shared rest (s.report d)).2.diagnostics ≠ [] := by
    obtain ⟨ds, -, heq, -⟩ := firstBound_eq shared rest (s.report d)
    rw [heq]
    simp [Session.report]
  by_cases hu : u.kind = .identifier
  · cases hfind : s.find? shared u.value with
    | some id => exact .inl ⟨hu, id, rfl, by simp [firstBound, hu, hfind]⟩
    | none =>
      refine .inr ⟨fun _ => rfl, ?_⟩
      simpa [firstBound, hu, hfind] using hreported _
  · refine .inr ⟨fun h => absurd h hu, ?_⟩
    simpa [firstBound, hu] using hreported _

/-- An interpolation is the node that the name inside stands for, or something is reported of it. -/
theorem Rooted.interpolation (h : w.Rooted) (t : Token) :
    (∃ id, t.nameInside?.bind w.find? = some id ∧ (interpolation t w).1 = some id ∧
        (interpolation t w).2.diagnostics = w.diagnostics) ∨
      t.nameInside?.bind w.find? = none ∧ (interpolation t w).2.diagnostics ≠ w.diagnostics := by
  set child := (w.session.child w.shared).1 with hchild
  set shared := (w.session.child w.shared).2 with hshared
  set start : Session :=
    if (tokensInside t).1.isEmpty then child.report { cause := .expectedIdentifier, location := t.location }
    else child with hstart
  have hquiet : (Workspace.interpolation t w).2.diagnostics = w.diagnostics ↔
      (firstBound shared (tokensInside t).1 start).2.diagnostics = [] :=
    List.append_right_eq_self
  have hvalue : (Workspace.interpolation t w).1 = (firstBound shared (tokensInside t).1 start).1 := rfl
  rw [hvalue, Ne, hquiet, Token.nameInside?]
  cases htokens : (tokensInside t).1 with
  | nil =>
    right
    simp [hstart, htokens, firstBound, Session.report]
  | cons u rest =>
    have hstart' : start = child := by simp [hstart, htokens]
    have hfind : child.find? shared u.value = w.find? u.value := h.findInside? u.value
    rw [hstart']
    rcases firstBound_cons shared u rest child with ⟨hu, id, hid, heq⟩ | ⟨hnone, hne⟩
    · exact .inl ⟨id, by simpa [hu] using hfind.symm.trans hid, by rw [heq], by rw [heq]; rfl⟩
    · refine .inr ⟨?_, hne⟩
      by_cases hu : u.kind = .identifier
      · simpa [hu] using hfind.symm.trans (hnone hu)
      · simp [hu]

/-- A term leaves the names as they are. -/
theorem Rooted.term (h : w.Rooted) (t : Token) : (term t w).2.Rooted ∧ (term t w).2.find? = w.find? := by
  rcases term_cases t w with ⟨-, hterm⟩ | ⟨k, -, hterm⟩ | ⟨-, cause, context, hterm⟩
  · obtain ⟨ds, log, -, hw, -⟩ := interpolation_eq w t
    rw [hterm, hw, h.inside]
    exact ⟨⟨h.scope, h.only⟩, rfl⟩
  · rw [hterm]
    exact ⟨⟨h.scope, h.only⟩, rfl⟩
  · rw [hterm]
    exact ⟨⟨h.scope, h.only⟩, rfl⟩

/-- A workspace with no scope but the root, and what names stand for in it. -/
structure Sees (find? : String → Option NodeId) (w : Workspace) : Prop extends w.Rooted where
  sees : w.find? = find?

variable {find? : String → Option NodeId}

theorem isKept_sees (find? : String → Option NodeId) : IsKept (Sees find?) where
  log _ _ hw := ⟨⟨hw.scope, hw.only⟩, hw.sees⟩
  term t _ hw :=
    have h := hw.toRooted.term t
    ⟨h.1, h.2.trans hw.sees⟩

theorem understands_of_isKnown {t : Token} (ht : t.IsKnown find?) : Understands (Sees find?) (Token.StandsFor find?) t := by
  intro w hw
  rcases ht with hleaf | ⟨hkind, hname⟩
  · refine ⟨term_of_isLeaf hleaf w, fun id _ hkind => ?_⟩
    simp [Token.IsLeaf, Token.leaf?, hkind] at hleaf
  · have hterm : term t w = interpolation t w := by simp only [term, hkind]
    rw [hterm]
    rcases hw.toRooted.interpolation t with ⟨id, hid, hfound, hquiet⟩ | ⟨hnone, -⟩
    · refine ⟨hquiet, fun id' hid' _ => ?_⟩
      obtain rfl := Option.some.inj (hfound.symm.trans hid')
      rw [← hw.sees, hid]
    · rw [← hw.sees, hnone] at hname
      cases hname

theorem isKnown_of_quiet {t : Token} (hw : w.Sees find?) (hq : (term t w).2.diagnostics = w.diagnostics) : t.IsKnown find? := by
  obtain ⟨hleaf | hkind, -⟩ := term_quiet hq
  · exact .inl hleaf
  · have hterm : term t w = interpolation t w := by simp only [term, hkind]
    rw [hterm] at hq
    rcases hw.toRooted.interpolation t with ⟨id, hid, -⟩ | ⟨-, hne⟩
    · exact .inr ⟨hkind, by rw [← hw.sees, hid]; rfl⟩
    · exact absurd hq hne

end Workspace

/-! ## Programs that tell sentences -/

theorem rel_imp {α β : Type} {R S : α → β → Prop} (h : ∀ a b, R a b → S a b) {a : Option α} {b : Option β}
    (hab : Option.Rel R a b) : Option.Rel S a b := by
  cases hab with
  | none => exact .none
  | some hab => exact .some (h _ _ hab)

theorem isSome_eq_of_rel {α β : Type} {R : α → β → Prop} {a : Option α} {b : Option β} (hab : Option.Rel R a b) :
    a.isSome = b.isSome := by
  cases hab <;> rfl

namespace Program

/-- A statement says what a sentence says, and an interpolation in it stands for the label declared last before. -/
structure SaysAfter (p : Program) (before : List NodeId) (s : Sentence) (id : NodeId) : Prop where
  legal : s.IsLegal Token.IsTerm
  said : p.Says s id
  inside : p.Relates (Token.StandsFor (p.lastDeclared? · before)) s id

/-- Statements that say what some sentences say, one after the other. -/
inductive Tells (p : Program) : List Sentence → List NodeId → Prop
  | nil : Tells p [] []
  | concat {ss : List Sentence} {ids : List NodeId} {s : Sentence} {id : NodeId} (h : Tells p ss ids)
      (hs : p.SaysAfter ids s id) : Tells p (ss ++ [s]) (ids ++ [id])

/-- A declaration comes right after its label, which has the same name. -/
def Labelled (p : Program) : Prop :=
  ∀ name id label, p.kind? id = some (.labelDecl name label) → label + 1 = id ∧ p.kind? label = some (.label name)

variable {p q : Program} {ss : List Sentence} {ids : List NodeId}

theorem Tells.extends (h : p.Tells ss ids) (hext : p.Extends q) (hids : ∀ id ∈ ids, id < p.size) : q.Tells ss ids := by
  induction h with
  | nil => exact .nil
  | @concat ss ids s id _ hs ih =>
    obtain ⟨hids, -⟩ := List.forall_mem_append.1 hids
    have hlast : (q.lastDeclared? · ids) = (p.lastDeclared? · ids) := funext fun name => hext.lastDeclared?_eq hids
    exact .concat (ih hids) ⟨hs.legal, hs.said.extends hext, hlast ▸ hs.inside.extends hext⟩

/-- A term by itself is an operand. -/
theorem SaysAfter.isOperand {before : List NodeId} {t : Token} {id : NodeId} (h : p.SaysAfter before (.bare t) id)
    (hp : p.Labelled) : p.IsOperand id := by
  rcases h.legal.1 with hleaf | hinterpolation
  · exact IsTerm.isOperand h.said hleaf
  · obtain ⟨name, -, hid⟩ := Option.bind_eq_some_iff.1 (h.inside hinterpolation)
    obtain ⟨d, -, hd⟩ := exists_of_lastDeclared? hid
    exact ⟨_, (hp _ _ _ hd).2, rfl⟩

/-- A statement declares a label just if the sentence does. -/
theorem SaysAfter.cases_declared? {before : List NodeId} {s : Sentence} {id : NodeId} (h : p.SaysAfter before s id)
    (hp : p.Labelled) (name : String) :
    (s.label? = some name ∧ ∃ label, p.declared? name id = some label ∧ label + 1 = id) ∨
      s.label? ≠ some name ∧ p.declared? name id = none := by
  have hkind {n : Node} (hn : p.node? id = some n) : p.kind? id = some n.kind := kind?_eq_some.2 ⟨n, hn, rfl⟩
  have hother {k : Node.Kind} (hk : p.kind? id = some k) (hnot : ∀ label, k ≠ .labelDecl name label) :
      p.declared? name id = none := by
    rw [Option.eq_none_iff_forall_ne_some]
    intro label hlabel
    exact hnot label (Option.some.inj (hk.symm.trans (declared?_eq_some.1 hlabel)))
  have hsay := h.said
  cases s with
  | label t =>
    obtain ⟨label, -, hid⟩ := hsay
    by_cases hname : t.value = name
    · subst hname
      exact .inl ⟨rfl, label, declared?_eq_some.2 (hkind hid), (hp _ _ _ (hkind hid)).1⟩
    · exact .inr ⟨fun h => hname (Option.some.inj h), hother (hkind hid) (by simp [hname])⟩
  | directive t terms body =>
    obtain ⟨arguments, -, hid⟩ := hsay
    exact .inr ⟨nofun, hother (hkind hid) (by simp)⟩
  | jump condition mnemonic target =>
    obtain ⟨a, -, hid⟩ := hsay
    exact .inr ⟨nofun, hother (hkind hid) (by simp)⟩
  | compare mnemonic left right =>
    obtain ⟨a, b, -, -, hid⟩ := hsay
    exact .inr ⟨nofun, hother (hkind hid) (by simp)⟩
  | bare t => exact .inr ⟨nofun, Stage.declared?_of_isOperand (h.isOperand hp) name⟩

/-- The declaration of a label stands where the sentence does. -/
structure DeclaredAt (p : Program) (ss : List Sentence) (ids : List NodeId) (place label : Nat) : Prop where
  statement : ids[place]? = some (label + 1)
  declares : ∃ s name, ss[place]? = some s ∧ s.label? = some name ∧ p.kind? (label + 1) = some (.labelDecl name label)

theorem DeclaredAt.append {place label : Nat} (h : p.DeclaredAt ss ids place label) (ss' : List Sentence) (ids' : List NodeId) :
    p.DeclaredAt (ss ++ ss') (ids ++ ids') place label := by
  obtain ⟨hid, s, name, hs, hname, hk⟩ := h
  have hlt : place < ids.length := (List.getElem?_eq_some_iff.1 hid).1
  have hlt' : place < ss.length := (List.getElem?_eq_some_iff.1 hs).1
  exact ⟨by rw [List.getElem?_append_left hlt, hid], s, name, by rw [List.getElem?_append_left hlt', hs], hname, hk⟩

theorem Tells.length_eq (h : p.Tells ss ids) : ss.length = ids.length := by
  induction h with
  | nil => rfl
  | concat _ _ ih => rw [List.length_append, List.length_append, ih]; rfl

/-- The label that is declared last among the statements is the one that is among the sentences. -/
theorem Tells.rel_lastLabel? (h : p.Tells ss ids) (hp : p.Labelled) (name : String) :
    Option.Rel (p.DeclaredAt ss ids) (Sentence.lastLabel? name ss) (p.lastDeclared? name ids) := by
  induction h with
  | nil => exact .none
  | @concat ss ids s id h hs ih =>
    rw [Sentence.lastLabel?_concat, lastDeclared?_append, lastDeclared?_cons, lastDeclared?_nil, Option.none_or]
    rcases hs.cases_declared? hp name with ⟨hname, label, hdeclared, rfl⟩ | ⟨hname, hnone⟩
    · rw [if_pos hname, hdeclared]
      refine .some ⟨?_, s, name, by simp, hname, declared?_eq_some.1 hdeclared⟩
      rw [h.length_eq, List.getElem?_concat_length]
    · rw [if_neg hname, hnone, Option.none_or]
      exact rel_imp (fun _ _ hat => hat.append [s] [id]) ih

/-- Of some sentences in a program the statements stand in the same place. -/
theorem Tells.exists_split {earlier later : List Sentence} {s : Sentence} (h : p.Tells (earlier ++ s :: later) ids) :
    ∃ before id after, ids = before ++ id :: after ∧ p.Tells earlier before ∧ p.SaysAfter before s id := by
  generalize hss : earlier ++ s :: later = ss at h
  induction h generalizing later with
  | nil => simp at hss
  | @concat ss ids s' id' h hs ih =>
    rcases List.eq_nil_or_concat later with rfl | ⟨later, last, rfl⟩
    · obtain ⟨rfl, heq⟩ := List.append_inj' hss rfl
      obtain rfl := List.singleton_inj.1 heq
      exact ⟨ids, id', [], rfl, h, hs⟩
    · rw [List.concat_eq_append, ← List.cons_append, ← List.append_assoc] at hss
      obtain ⟨hss, -⟩ := List.append_inj' hss rfl
      obtain ⟨before, id, after, rfl, hbefore, hsay⟩ := ih hss
      exact ⟨before, id, after ++ [id'], by simp, hbefore, hsay⟩

end Program

theorem Stage.Sound.labelled {s : Stage} (h : s.Sound) : s.workspace.program.Labelled := by
  intro name id label hk
  obtain ⟨n, hn, hnk⟩ := Program.kind?_eq_some.1 hk
  exact (h.formed.node id n hn).declares name label hnk

/-! ## Reading -/

/-- The terms of sentences that come after some others say what they are, or name a label declared before them. -/
def Sentence.AllKnown (before ss : List Sentence) : Prop :=
  ∀ (i : Nat) (s : Sentence), ss[i]? = some s → ∀ t ∈ s.terms, t.IsKnown (lastLabel? · (before ++ ss.take i))

theorem Sentence.allKnown_cons {before ss : List Sentence} {s : Sentence} :
    AllKnown before (s :: ss) ↔ (∀ t ∈ s.terms, t.IsKnown (lastLabel? · before)) ∧ AllKnown (before ++ [s]) ss := by
  constructor
  · intro h
    refine ⟨by simpa using h 0 s rfl, fun i s' hs' => ?_⟩
    simpa using h (i + 1) s' hs'
  · rintro ⟨hs, hss⟩ i s' hs'
    cases i with
    | zero =>
      obtain rfl := Option.some.inj hs'
      simpa using hs
    | succ i => simpa using hss i s' hs'

theorem Sentence.exists_head {s : Sentence} (hs : s.IsLegal Token.IsTerm) :
    ∃ t rest, s.tokens = t :: rest ∧ ¬ t.isNewline := by
  have hhead : ∃ t rest, s.tokens = t :: rest ∧ t ∈ s.ownTokens := by
    cases s with
    | directive name terms body => cases body <;> exact ⟨name, _, rfl, by simp [ownTokens, tokens]⟩
    | label | jump | compare | bare => exact ⟨_, _, rfl, by simp [ownTokens, tokens]⟩
  obtain ⟨t, rest, htokens, ht⟩ := hhead
  exact ⟨t, rest, htokens, by simp [s.not_isNewline_of_mem hs t ht]⟩

namespace Draft

open Workspace

/-- A draft that was read without a fault from some sentences, with the statements made of them. -/
structure Tells (d : Draft) (ss : List Sentence) (ids : List NodeId) : Prop where
  steps : Steps ⟨{}, [], []⟩ ⟨d.toWorkspace, [], ids.reverse⟩
  tells : d.program.Tells ss ids

variable {d : Draft} {before : List Sentence} {made : List NodeId}

/-- What names stand for is the label declared last. -/
theorem Tells.sees (h : d.Tells before made) :
    d.toWorkspace.Sees (d.program.lastDeclared? · made) ∧
      ∀ t : Token, t.IsKnown (d.program.lastDeclared? · made) ↔ t.IsKnown (Sentence.lastLabel? · before) := by
  have hsound := (Stage.sound_fresh #[]).steps h.steps
  have hlatest := (Stage.latest_fresh #[]).steps (Stage.sound_fresh #[]) h.steps
  refine ⟨⟨hsound.named.toRooted, funext fun name => ?_⟩, fun t => ?_⟩
  · have hname := hlatest name
    rwa [List.reverse_reverse] at hname
  · have hsome (name : String) : (d.program.lastDeclared? name made).isSome = (Sentence.lastLabel? name before).isSome :=
      (isSome_eq_of_rel (h.tells.rel_lastLabel? hsound.labelled name)).symm
    simp only [Token.IsKnown]
    cases t.nameInside? with
    | none => simp
    | some name => simp [hsome]

/-- Nothing is reported of a sentence just if its terms are known, and its statement then says the same. -/
theorem Tells.readLine (h : d.Tells before made) {s : Sentence} (hs : s.IsLegal Token.IsTerm) {t : Token} {rest more : List Token}
    (htokens : s.tokens ++ more = t :: rest) (hend : EndsLine more) :
    ((readLine t rest d).2.diagnostics = d.diagnostics ↔ ∀ u ∈ s.terms, u.IsKnown (Sentence.lastLabel? · before)) ∧
      ((readLine t rest d).2.diagnostics = d.diagnostics → (Draft.readLine t rest d).1 = more.drop 1 ∧
        ∃ id, (statement t rest d.toWorkspace).value = some id ∧
          (Draft.readLine t rest d).2.Tells (before ++ [s]) (made ++ [id])) := by
  obtain ⟨hsees, hknown⟩ := h.sees
  have hkept := isKept_sees (d.program.lastDeclared? · made)
  have hreads (hterms : ∀ u ∈ s.terms, u.IsKnown (Sentence.lastLabel? · before)) :
      Reads (Token.StandsFor (d.program.lastDeclared? · made)) s more d.toWorkspace (statement t rest d.toWorkspace) := by
    obtain ⟨t', rest', heq, -, hreads⟩ := reads_statement hkept hs
      (fun u hu => understands_of_isKnown ((hknown u).2 (hterms u hu))) hend hsees
    obtain ⟨rfl, rfl⟩ := List.cons.inj (heq.symm.trans htokens)
    exact hreads
  have hterms (hq : (Draft.readLine t rest d).2.diagnostics = d.diagnostics) :
      ∀ u ∈ s.terms, u.IsKnown (Sentence.lastLabel? · before) := by
    intro u hu
    obtain ⟨-, -, -, -, hquiet⟩ := readLine_quiet hq
    obtain ⟨w', hsees', hquiet'⟩ := exists_quiet_of_statement hkept hs htokens hsees hquiet u hu
    exact (hknown u).1 (isKnown_of_quiet hsees' hquiet')
  refine ⟨⟨hterms, fun hterms => (readLine_of_reads hend (hreads hterms)).2.1⟩, fun hq => ?_⟩
  obtain ⟨hrest, -, id, hid, hsaid, hinside⟩ := readLine_of_reads hend (hreads (hterms hq))
  have hsteps := steps_readLine t rest d [] made.reverse
  have hids : ∀ i ∈ made, i < d.program.size := fun i hi =>
    ((Stage.sound_fresh #[]).steps h.steps).formed.statement i (List.mem_reverse.2 hi)
  have hlast : ((Draft.readLine t rest d).2.program.lastDeclared? · made) = (d.program.lastDeclared? · made) :=
    funext fun name => hsteps.extends.lastDeclared?_eq hids
  refine ⟨hrest, id, hid, ?_, .concat (h.tells.extends hsteps.extends hids) ⟨hs, hsaid, hlast ▸ hinside⟩⟩
  rw [hid] at hsteps
  rw [List.reverse_append]
  exact h.steps.trans hsteps

/-- Nothing is reported of sentences just if their terms are known, and the statements then say the same. -/
theorem Tells.read {tokens : List Token} {ss : List Sentence} (hlayout : Layout Token.IsTerm tokens ss)
    (h : d.Tells before made) :
    ((read tokens d).diagnostics = d.diagnostics ↔ Sentence.AllKnown before ss) ∧
      ((Draft.read tokens d).diagnostics = d.diagnostics →
        (Draft.read tokens d).Tells (before ++ ss) (made ++ inOrder tokens d)) := by
  induction hlayout generalizing d before made with
  | nil =>
    rw [Draft.read, inOrder, List.append_nil, List.append_nil]
    exact ⟨by simp [Sentence.AllKnown], fun _ => h⟩
  | newline ht _ ih =>
    rw [Draft.read, if_pos ht, inOrder, if_pos ht]
    exact ih h
  | @sentence s more ss hs hend _ ih =>
    obtain ⟨t, tail, htail, ht⟩ := Sentence.exists_head hs
    have htokens : s.tokens ++ more = t :: (tail ++ more) := by rw [htail, List.cons_append]
    obtain ⟨hline, htells⟩ := h.readLine hs htokens hend
    have hlater := steps_read (Draft.readLine t (tail ++ more) d).1 (Draft.readLine t (tail ++ more) d).2 []
    have hfirst := quiet_between (steps_readLine t (tail ++ more) d [] []) hlater
    rw [htokens, Draft.read, if_neg ht, inOrder, if_neg ht, Sentence.allKnown_cons, ← hline]
    by_cases hq : (Draft.readLine t (tail ++ more) d).2.diagnostics = d.diagnostics
    · obtain ⟨hnext, id, hid, hd⟩ := htells hq
      obtain ⟨hread, horder⟩ := read_of_endsLine hend (Draft.readLine t (tail ++ more) d).2
      have hmore := ih hd
      rw [hread, horder, ← hnext, hq, List.append_assoc, List.append_assoc, List.singleton_append] at hmore
      rw [hid]
      exact ⟨hmore.1.trans (and_iff_right hq).symm, hmore.2⟩
    · exact ⟨⟨fun h => absurd (hfirst h).1 hq, fun h => absurd h.1 hq⟩, fun h => absurd (hfirst h).1 hq⟩

end Draft

namespace Workspace

/-- Nothing is reported of tokens that are laid out in sentences just if the terms of these are known, and the program
then tells the sentences. -/
theorem tells_parse (file : String) (log : Log) {tokens : List Token} {ss : List Sentence} (h : Layout Token.IsTerm tokens ss) :
    ((parse file tokens { log }).diagnostics = [] ↔ Sentence.AllKnown [] ss) ∧
      ((parse file tokens { log }).diagnostics = [] →
        (parse file tokens { log }).program.Tells ss (Draft.inOrder tokens {})) := by
  have hfresh : Draft.Tells {} [] [] := ⟨.refl, .nil⟩
  obtain ⟨hiff, htells⟩ := hfresh.read h
  obtain ⟨log', hparse⟩ := exists_parse_eq log file tokens
  rw [hparse]
  refine ⟨hiff, fun hq => ?_⟩
  have hids : ∀ id ∈ Draft.inOrder tokens {}, id < (Draft.read tokens {}).program.size := fun id hid =>
    (Draft.sound_read tokens).formed.statement id (List.mem_reverse.2 hid)
  exact (htells hq).tells.extends (Program.Extends.refl _) hids

end Workspace

end Assembler
