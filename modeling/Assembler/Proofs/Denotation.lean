import Assembler.Proofs.Known
import Assembler.Proofs.Reordering
/-!
# What sentences stand for

The line that a sentence stands for, told from the sentences alone, with labels as the places of their declarations
(`Sentence.lines?`). A program is assembled just if all of its sentences stand for lines, and it is made into the plain
code of these lines: `Workspace.assemble_of_layout`.
-/

namespace Assembler

/-! ## Lines of sentences -/

/-- What names stand for, outside of interpolations and inside. -/
structure Names where
  outside : String → Option NodeId
  inside : String → Option NodeId

/-- The operand that a term of some kind stands for. -/
def Node.Kind.operand? (names : String → Option NodeId) : Node.Kind → Option Operand
  | identifier name _ => (names name).map .label
  | integer value => some (.integer value)
  | string value => some (.string value)
  | slot store index => some (.written ⟨store, index⟩)
  | _ => none

/-- The operand that a token stands for. -/
def Token.operand? (names : Names) (t : Token) : Option Operand :=
  if t.kind = .interpolation then (t.nameInside?.bind names.inside).map .label
  else t.leaf?.bind (·.operand? names.outside)

namespace Sentence

/-- The line that a sentence in some place stands for; a jump to a string stands for none. -/
def line? (names : Names) (place : Nat) : Sentence → Option Line
  | label _ => some (.declaration place)
  | directive name terms body => (terms.mapM (Token.operand? names)).map (.directive name.value · (bodyText body))
  | jump condition _ target => if target.kind = .string then none else (target.operand? names).map (.jump condition)
  | compare _ left right => do return .compare (← left.operand? names) (← right.operand? names)
  | bare term => (term.operand? names).map .bare

/-- What names stand for in a sentence. Inside an interpolation that is the label declared last before the sentence;
elsewhere it is the label declared last of all, but in a directive one that was declared before goes first. -/
def names (ss : List Sentence) (s : Sentence) (place : Nat) : Names where
  outside name :=
    if s.isHoisted then (lastLabel? name (ss.take place)).or (lastLabel? name ss) else lastLabel? name ss
  inside name := lastLabel? name (ss.take place)

section Names
variable (earlier later : List Sentence) (s : Sentence) (name : String)

theorem names_inside : (names (earlier ++ later) s earlier.length).inside name = lastLabel? name earlier := by
  rw [names, List.take_left]

theorem names_outside : (names (earlier ++ later) s earlier.length).outside name =
    if s.isHoisted then (lastLabel? name earlier).or (lastLabel? name (earlier ++ later)) else lastLabel? name (earlier ++ later) := by
  rw [names, List.take_left]

/-- Outside of interpolations a name stands for something just if it is declared. -/
theorem isSome_names_outside :
    ((names (earlier ++ later) s earlier.length).outside name).isSome = (lastLabel? name (earlier ++ later)).isSome := by
  rw [names_outside]
  split
  · rw [lastLabel?_append]
    cases lastLabel? name earlier <;> simp
  · rfl

end Names

/-- The sentences with their places, in the order in which they take effect. -/
def inOrder (ss : List Sentence) : List (Sentence × Nat) :=
  ss.zipIdx.filter (·.1.isHoisted) ++ ss.zipIdx.filter (!·.1.isHoisted)

/-- The lines of a program, if all its sentences stand for lines. -/
def lines? (ss : List Sentence) : Option (List Line) := (inOrder ss).mapM fun x => x.1.line? (names ss x.1 x.2) x.2

/-- The name of the label that is declared in some place. -/
def labelName (ss : List Sentence) (place : Nat) : String := ((ss[place]?).bind label?).getD ""

end Sentence

/-! ## Two ways to tell one thing -/

/-- Something is told in two ways; the first tells it just if there is no fault, and then so does the second. -/
structure Agrees {α β : Type} (R : α → β → Prop) (faults : List Diagnostic) (a : Option α) (b : Option β) : Prop where
  quiet : faults = [] ↔ a.isSome
  related : ∀ x ∈ a, ∃ y ∈ b, R x y

namespace Agrees

variable {α β γ δ : Type} {R : α → β → Prop} {faults faults' : List Diagnostic} {a : Option α} {b : Option β}

theorem some {x : α} {y : β} (h : R x y) : Agrees R [] (some x) (some y) := ⟨by simp, by simpa using h⟩

theorem map (h : Agrees R faults a b) {S : γ → δ → Prop} {f : α → γ} {g : β → δ} (hfg : ∀ x y, R x y → S (f x) (g y)) :
    Agrees S faults (a.map f) (b.map g) := by
  refine ⟨by simpa using h.quiet, fun z hz => ?_⟩
  obtain ⟨x, hx, rfl⟩ := Option.map_eq_some_iff.1 hz
  obtain ⟨y, hy, hxy⟩ := h.related x hx
  exact ⟨g y, by simp [Option.mem_def.1 hy], hfg x y hxy⟩

theorem map₂ (h : Agrees R faults a b) {R' : γ → δ → Prop} {c : Option γ} {d : Option δ} (h' : Agrees R' faults' c d)
    {ε ζ : Type} {S : ε → ζ → Prop} {f : α → γ → ε} {g : β → δ → ζ}
    (hfg : ∀ x y, R x y → ∀ x' y', R' x' y' → S (f x x') (g y y')) :
    Agrees S (faults ++ faults') (do return f (← a) (← c)) (do return g (← b) (← d)) := by
  refine ⟨?_, fun z hz => ?_⟩
  · rw [List.append_eq_nil_iff, h.quiet, h'.quiet]
    cases a <;> cases c <;> simp
  · obtain ⟨x, hx, hz⟩ := Option.bind_eq_some_iff.1 hz
    obtain ⟨x', hx', hz⟩ := Option.bind_eq_some_iff.1 hz
    cases hz
    obtain ⟨y, hy, hxy⟩ := h.related x hx
    obtain ⟨y', hy', hxy'⟩ := h'.related x' hx'
    exact ⟨g y y', by simp [Option.mem_def.1 hy, Option.mem_def.1 hy'], hfg x y hxy x' y' hxy'⟩

theorem mapM {f : γ → Option α} {g : δ → Option β} {faults : δ → List Diagnostic} {xs : List γ} {ys : List δ}
    (h : List.Forall₂ (fun x y => Agrees R (faults y) (f x) (g y)) xs ys) :
    Agrees (List.Forall₂ R) (ys.flatMap faults) (xs.mapM f) (ys.mapM g) := by
  induction h with
  | nil => exact some .nil
  | cons hxy _ ih =>
    rw [List.flatMap_cons, List.mapM_cons, List.mapM_cons]
    exact hxy.map₂ ih fun _ _ hfirst _ _ hrest => .cons hfirst hrest

end Agrees

/-! ## Sentences and their statements -/

theorem Token.kind_eq_string_iff {t : Token} {k : Node.Kind} (h : t.leaf? = some k) :
    t.kind = .string ↔ ∃ value, k = .string value := by
  unfold leaf? at h
  split at h
  · rename_i hkind
    cases h
    simp [hkind]
  · rename_i hkind
    cases h
    simp [hkind]
  · obtain ⟨_, -, rfl⟩ := Option.map_eq_some_iff.1 h
    simp_all
  · obtain ⟨_, -, rfl⟩ := Option.map_eq_some_iff.1 h
    simp_all
  · obtain ⟨_, -, rfl⟩ := Option.map_eq_some_iff.1 h
    simp_all
  · cases h

namespace Program

variable {p : Program} {declared : String → Bool}

theorem faults_of_isOperand {id : NodeId} (h : p.IsOperand id) : p.faults declared id = p.nameFault declared id := by
  obtain ⟨k, hk, hexpression⟩ := h
  rw [faults, nameFault, hk]
  cases k with
  | identifier | label | integer | string | slot => rfl
  | directive | labelDecl | jump | compare => cases hexpression

end Program

namespace Workspace

/-- A statement of a program that was read, and what the sentence that it was read from hangs on. Labels are related to
the places of their declarations. -/
structure Renders (w : Workspace) (R : NodeId → NodeId → Prop) (n : Names) (before : List NodeId) (place : Nat) (s : Sentence)
    (st : NodeId) : Prop where
  labelled : w.program.Labelled
  later : w.Later w.resolve
  said : w.program.SaysAfter before s st
  declares : ∀ name label, w.program.kind? st = some (.labelDecl name label) → R place label
  inside : ∀ name, Option.Rel R (n.inside name) (w.program.lastDeclared? name before)
  outside : ∀ name id, id ∈ st :: w.program.children st → w.program.kind? id = some (.identifier name none) →
    ∃ b, w.resolve.program.kind? id = some (.identifier name b) ∧ Option.Rel R (n.outside name) b
  declared : ∀ name, w.declared name = (n.outside name).isSome

namespace Renders

variable {w : Workspace} {R : NodeId → NodeId → Prop} {n : Names} {before : List NodeId} {place : Nat} {s : Sentence}
  {st : NodeId}

/-- An interpolation is the label of the name inside. -/
theorem kind?_of_interpolation (h : w.Renders R n before place s st) {t : Token} (ht : t.kind = .interpolation) {id : NodeId}
    (hid : t.StandsFor (w.program.lastDeclared? · before) id) :
    ∃ name, w.program.kind? id = some (.label name) ∧ ∃ i, t.operand? n = some (.label i) ∧ R i id := by
  obtain ⟨name, hname, hlabel⟩ := Option.bind_eq_some_iff.1 (hid ht)
  obtain ⟨d, -, hd⟩ := Program.exists_of_lastDeclared? hlabel
  have hinside := h.inside name
  rw [hlabel] at hinside
  cases hi : n.inside name with
  | none =>
    rw [hi] at hinside
    cases hinside
  | some i =>
    rw [hi] at hinside
    cases hinside with
    | some hrel =>
      refine ⟨name, (h.labelled _ _ _ hd).2, i, ?_, hrel⟩
      rw [Token.operand?, if_pos ht, Option.mem_def.1 hname, Option.bind_some, hi]
      rfl

/-- A term and its node are one operand. -/
theorem operand (h : w.Renders R n before place s st) {t : Token} (ht : t.IsTerm) {id : NodeId}
    (hid : id ∈ st :: w.program.children st) (hterm : w.program.IsTerm t id) (hinside : t.StandsFor (w.program.lastDeclared? · before) id) :
    Agrees (Operand.Alike R) (w.program.nameFault w.declared id) (t.operand? n) (w.resolve.program.operand? id) := by
  rcases ht with hleaf | hinterpolation
  · obtain ⟨k, hk⟩ := Option.isSome_iff_exists.1 hleaf
    have hkind : w.program.kind? id = some k := Program.kind?_eq_some.2 ⟨_, hterm k hk, rfl⟩
    have hne : t.kind ≠ .interpolation := by
      intro ht
      simp [Token.leaf?, ht] at hk
    rw [Token.operand?, if_neg hne, hk, Option.bind_some]
    cases Token.isLeaf_of_leaf? hk with
    | identifier name =>
      obtain ⟨b, hb, hrel⟩ := h.outside name id hid hkind
      simp only [Program.nameFault, hkind, h.declared, Node.Kind.operand?, Program.operand?, hb]
      generalize n.outside name = i at hrel
      cases hrel with
      | none => exact ⟨by simp, by simp⟩
      | some hrel => exact .some (.label hrel)
    | integer value =>
      simp only [Program.nameFault, hkind, Node.Kind.operand?, Program.operand?, (h.later.kind?_iff (by simp)).2 hkind]
      exact .some (.integer value)
    | string value =>
      simp only [Program.nameFault, hkind, Node.Kind.operand?, Program.operand?, (h.later.kind?_iff (by simp)).2 hkind]
      exact .some (.string value)
    | register | localSlot =>
      simp only [Program.nameFault, hkind, Node.Kind.operand?, Program.operand?, (h.later.kind?_iff (by simp)).2 hkind]
      exact .some (.written _)
  · obtain ⟨name, hkind, i, hi, hrel⟩ := h.kind?_of_interpolation hinterpolation hinside
    rw [hi, Program.nameFault, hkind, Program.operand?, (h.later.kind?_iff (by simp)).2 hkind]
    exact .some (.label hrel)

/-- So are several terms and their nodes. -/
theorem operands (h : w.Renders R n before place s st) {terms : List Token} (hterms : ∀ t ∈ terms, t.IsTerm) {ids : List NodeId}
    (hids : ids ⊆ st :: w.program.children st) (hsay : List.Forall₂ w.program.IsTerm terms ids)
    (hinside : List.Forall₂ (Token.StandsFor (w.program.lastDeclared? · before)) terms ids) :
    Agrees (List.Forall₂ (Operand.Alike R)) (ids.flatMap (w.program.nameFault w.declared)) (terms.mapM (Token.operand? n))
      (ids.mapM w.resolve.program.operand?) := by
  refine .mapM ?_
  induction hsay with
  | nil => exact .nil
  | @cons t id terms ids hterm _ ih =>
    obtain ⟨ht, hterms⟩ := List.forall_mem_cons.1 hterms
    obtain ⟨hid, hids⟩ := List.cons_subset.1 hids
    cases hinside with
    | cons hfirst hrest => exact .cons (h.operand ht hid hterm hfirst) (ih hterms hids hrest)

/-- A term is the target of a jump without a fault just if it is no string. -/
theorem targetFault_eq_nil_iff (h : w.Renders R n before place s st) {t : Token} (ht : t.IsTerm) {id : NodeId}
    (hterm : w.program.IsTerm t id) (hinside : t.StandsFor (w.program.lastDeclared? · before) id) :
    w.program.targetFault id = [] ↔ t.kind ≠ .string := by
  rcases ht with hleaf | hinterpolation
  · obtain ⟨k, hk⟩ := Option.isSome_iff_exists.1 hleaf
    have hkind : w.program.kind? id = some k := Program.kind?_eq_some.2 ⟨_, hterm k hk, rfl⟩
    rw [Program.targetFault, hkind, Ne, Token.kind_eq_string_iff hk]
    cases Token.isLeaf_of_leaf? hk <;> simp
  · obtain ⟨name, hkind, -⟩ := h.kind?_of_interpolation hinterpolation hinside
    rw [Program.targetFault, hkind, hinterpolation]
    simp

/-- A sentence and its statement are one line, or something is reported of the statement. -/
theorem line (h : w.Renders R n before place s st) :
    Agrees (Line.Alike R) (w.program.faults w.declared st) (s.line? n place) (w.resolve.program.line? st) := by
  have ⟨hlegal, hsay, hinside⟩ := h.said
  have hpart {k : Node.Kind} (hk : w.program.kind? st = some k) : k.children ⊆ st :: w.program.children st :=
    Program.children_of_kind? hk ▸ List.subset_cons_self ..
  have hkind {n : Node} (hn : w.program.node? st = some n) : w.program.kind? st = some n.kind :=
    Program.kind?_eq_some.2 ⟨n, hn, rfl⟩
  cases s with
  | label name =>
    obtain ⟨label, -, hid⟩ := hsay
    have hk := hkind hid
    rw [Sentence.line?, Program.faults, hk, Program.line?, (h.later.kind?_iff (by simp)).2 hk]
    exact .some (.declaration (h.declares _ _ hk))
  | directive name terms body =>
    obtain ⟨arguments, hterms, hid⟩ := hsay
    obtain ⟨name', arguments', body', hk', hinside⟩ := hinside
    have hk := hkind hid
    cases hk.symm.trans hk'
    rw [Sentence.line?, Program.faults, hk, Program.line?, (h.later.kind?_iff (by simp)).2 hk]
    exact (h.operands hlegal.2.1 (hpart hk) hterms hinside).map fun _ _ halike => .directive halike _ _
  | jump condition mnemonic target =>
    obtain ⟨a, hterm, hid⟩ := hsay
    obtain ⟨condition', a', hk', hinside⟩ := hinside
    have hk := hkind hid
    cases hk.symm.trans hk'
    rw [Sentence.line?, Program.faults, hk, Program.line?, (h.later.kind?_iff (by simp)).2 hk]
    have hoperand := h.operand hlegal.2.2 (hpart hk List.mem_cons_self) hterm hinside
    have htarget := h.targetFault_eq_nil_iff hlegal.2.2 hterm hinside
    by_cases hstring : target.kind = .string
    · rw [if_pos hstring]
      have hfault : w.program.targetFault a ≠ [] := fun hnil => htarget.1 hnil hstring
      exact ⟨by simp [hfault], by simp⟩
    · simp only [if_neg hstring, htarget.2 hstring, List.append_nil]
      exact hoperand.map fun _ _ halike => .jump halike condition
  | compare mnemonic left right =>
    obtain ⟨a, b, hleft, hright, hid⟩ := hsay
    obtain ⟨a', b', hk', hinside, hinside'⟩ := hinside
    have hk := hkind hid
    cases hk.symm.trans hk'
    rw [Sentence.line?, Program.faults, hk, Program.line?, (h.later.kind?_iff (by simp)).2 hk]
    have hl := h.operand hlegal.2.2.1 (hpart hk (by simp [Node.Kind.children])) hleft hinside
    have hr := h.operand hlegal.2.2.2 (hpart hk (by simp [Node.Kind.children])) hright hinside'
    exact hl.map₂ hr fun _ _ hl _ _ hr => .compare hl hr
  | bare term =>
    have hst := h.said.isOperand h.labelled
    rw [Sentence.line?, Program.faults_of_isOperand hst, Program.line?_of_isOperand (h.later.isOperand hst)]
    exact (h.operand hlegal.1 List.mem_cons_self hsay hinside).map fun _ _ halike => .bare halike

end Renders

/-! ## Programs and their sentences -/

/-- A program that was read from some sentences, and its statements in the order in which these stand. -/
structure Recounts (w : Workspace) (ss : List Sentence) (ids : List NodeId) : Prop where
  isRead : w.IsRead
  tells : w.program.Tells ss ids
  order : w.program.statements = ids.filter (w.program.isHoisted ·) ++ ids.filter (!w.program.isHoisted ·)

namespace Recounts

variable {w : Workspace} {ss : List Sentence} {ids : List NodeId}

/-- A sentence of the program and the statement that stands in its place are one line. -/
theorem exists_renders (h : w.Recounts ss ids) {earlier later : List Sentence} {s : Sentence} (hss : ss = earlier ++ s :: later) :
    ∃ before st, ids[earlier.length]? = some st ∧ w.program.isHoisted st = s.isHoisted ∧
      w.Renders (w.program.DeclaredAt ss ids) (s.names ss earlier.length) before earlier.length s st := by
  subst hss
  have hp := h.isRead.sound.labelled
  obtain ⟨before, st, after, hids, hbefore, hsay⟩ := h.tells.exists_split
  have hplace : ids[earlier.length]? = some st := by rw [hids, hbefore.length_eq, List.getElem?_append_right le_rfl]; simp
  have hhoisted : w.program.isHoisted st = s.isHoisted := by
    refine hsay.said.isHoisted_eq ?_
    rintro t rfl
    exact hsay.isOperand hp
  have hall (name : String) := h.tells.rel_lastLabel? hp name
  have hfirst (name : String) : Option.Rel (w.program.DeclaredAt (earlier ++ s :: later) ids) (Sentence.lastLabel? name earlier)
      (w.program.lastDeclared? name before) := by
    rw [hids]
    exact rel_imp (fun _ _ hat => hat.append _ _) (hbefore.rel_lastLabel? hp name)
  refine ⟨before, st, hplace, hhoisted, {
    labelled := hp, later := h.isRead.bound.resolve.2, said := hsay, declares := fun name label hk => ?_
    inside := fun name => ?_, outside := fun name id hid hk => ?_, declared := fun name => ?_ }⟩
  · rcases hsay.cases_declared? hp name with ⟨hname, -⟩ | ⟨-, hnone⟩
    · obtain rfl := (hp _ _ _ hk).1
      exact ⟨hplace, s, name, by simp, hname, hk⟩
    · cases (Program.declared?_eq_some.2 hk).symm.trans hnone
  · rw [Sentence.names_inside]
    exact hfirst name
  · rw [Sentence.names_outside]
    cases hs : s.isHoisted with
    | true => exact ⟨_, h.isRead.kind?_of_isHoisted h.order hids (hhoisted.trans hs) hid hk, rel_or (hfirst name) (hall name)⟩
    | false => exact ⟨_, h.isRead.kind?_of_not_isHoisted h.order hids (hhoisted.trans hs) hid hk, hall name⟩
  · rw [declared, h.isRead.latest, IsRead.lastDeclared?_statements h.order, ← isSome_eq_of_rel (hall name),
      Sentence.isSome_names_outside]

theorem biUnique (h : w.Recounts ss ids) : Relator.BiUnique (w.program.DeclaredAt ss ids) := by
  constructor
  · intro a a' b hab hab'
    obtain ⟨-, name, -, -, hk⟩ := hab.declares
    have hcount : ids.count (b + 1) ≤ 1 := by
      have honce := h.isRead.count_declaration hk
      rwa [h.order, (List.filter_append_perm ..).count_eq] at honce
    have hzip {i : Nat} (hi : ids[i]? = some (b + 1)) : (b + 1, i) ∈ ids.zip (List.range' 0 ids.length) := by
      rw [← List.zipIdx_eq_zip_range']
      exact List.mk_mem_zipIdx_iff_getElem?.2 hi
    exact right_unique_zip hcount (hzip hab.statement) (hzip hab'.statement)
  · intro a b b' hab hab'
    exact Nat.succ.inj (Option.some.inj (hab.statement.symm.trans hab'.statement))

theorem labelName_eq (h : w.Recounts ss ids) {place label : Nat} (hat : w.program.DeclaredAt ss ids place label) :
    Sentence.labelName ss place = w.resolve.program.labelName label := by
  obtain ⟨s, name, hs, hname, hk⟩ := hat.declares
  have hlabel := (h.isRead.bound.resolve.2.kind?_iff (by simp)).2 (h.isRead.sound.labelled _ _ _ hk).2
  rw [Sentence.labelName, hs, Option.bind_some, hname, Program.labelName, hlabel]
  rfl

/-- The sentences and the statements of the program are the same lines, or something is reported of these. -/
theorem lines (h : w.Recounts ss ids) :
    Agrees (List.Forall₂ (Line.Alike (w.program.DeclaredAt ss ids))) (w.program.statements.flatMap (w.program.faults w.declared))
      (Sentence.lines? ss) w.resolve.program.lines? := by
  rw [Program.lines?, h.isRead.bound.resolve.2.statements, h.order]
  refine .mapM (forall₂_partition (List.forall₂_iff_get.2 ⟨by rw [List.length_zipIdx, h.tells.length_eq], fun i hi hi' => ?_⟩))
  have hlt : i < ss.length := by simpa using hi
  have hsplit : ss = ss.take i ++ ss[i] :: ss.drop (i + 1) := by simp
  obtain ⟨before, st, hplace, hhoisted, hrenders⟩ := h.exists_renders hsplit
  rw [List.length_take_of_le (Nat.le_of_lt hlt)] at hplace hrenders
  have hst : ids.get ⟨i, hi'⟩ = st := Option.some.inj ((List.getElem?_eq_getElem hi').symm.trans hplace)
  have hs : ss.zipIdx.get ⟨i, hi⟩ = (ss[i], i) := by simp
  rw [hs, hst]
  exact ⟨hhoisted.symm, hrenders.line⟩

end Recounts

end Workspace

/-! ## What becomes of sentences -/

theorem Token.isKnown_of_operand? {n : Names} {t : Token} (h : (t.operand? n).isSome) : t.IsKnown n.inside := by
  unfold operand? at h
  split at h
  · rename_i hkind
    exact .inr ⟨hkind, by rwa [Option.isSome_map] at h⟩
  · exact .inl (Option.isSome_of_isSome_bind h)

namespace Sentence

/-- The terms of a sentence that stands for a line are known. -/
theorem isKnown_of_line? {n : Names} {place : Nat} {s : Sentence} (h : (s.line? n place).isSome) :
    ∀ t ∈ s.terms, t.IsKnown n.inside := by
  cases s with
  | label name => simp [terms]
  | directive name terms body =>
    rw [line?, Option.isSome_map] at h
    exact fun t ht => Token.isKnown_of_operand? (isSome_of_mem_mapM h ht)
  | jump condition mnemonic target =>
    rw [line?] at h
    split at h
    · cases h
    · rw [Option.isSome_map] at h
      simpa [terms] using Token.isKnown_of_operand? h
  | compare mnemonic left right =>
    obtain ⟨l, hl⟩ := Option.isSome_iff_exists.1 h
    obtain ⟨o, ho, hl⟩ := Option.bind_eq_some_iff.1 hl
    obtain ⟨o', ho', -⟩ := Option.bind_eq_some_iff.1 hl
    have hleft : left.IsKnown n.inside := Token.isKnown_of_operand? (by rw [ho]; rfl)
    have hright : right.IsKnown n.inside := Token.isKnown_of_operand? (by rw [ho']; rfl)
    simp [terms, hleft, hright]
  | bare term =>
    rw [line?, Option.isSome_map] at h
    simpa [terms] using Token.isKnown_of_operand? h

theorem allKnown_of_lines? {ss : List Sentence} (h : (lines? ss).isSome) : AllKnown [] ss := by
  intro i s hs
  have hmem : (s, i) ∈ inOrder ss :=
    (List.filter_append_perm ..).mem_iff.2 (List.mk_mem_zipIdx_iff_getElem?.2 hs)
  exact isKnown_of_line? (isSome_of_mem_mapM h hmem)

end Sentence

namespace Workspace

theorem recounts_parse (file : String) (log : Log) {tokens : List Token} {ss : List Sentence}
    (h : Layout Token.IsTerm tokens ss) (hquiet : (parse file tokens { log }).diagnostics = []) :
    (parse file tokens { log }).Recounts ss (Draft.inOrder tokens {}) where
  isRead := isRead_parse file tokens log
  tells := (tells_parse file log h).2 hquiet
  order := statements_parse file tokens log

/-- Tokens that are laid out in sentences are assembled just if all of these stand for lines, and then into the plain
code of the lines. -/
theorem assemble_of_layout (file : String) (log : Log) {tokens : List Token} {ss : List Sentence}
    (h : Layout Token.IsTerm tokens ss) (settings : Settings) :
    let r := ((parse file tokens { log }).resolve.sortDiagnostics.assemble file settings).1
    (r.isOk ↔ (Sentence.lines? ss).isSome) ∧
      ∀ ls ∈ Sentence.lines? ss, ∃ a, r = .ok a ∧ a.chunk.code = (plainCode ls).flatMap Instruction.encode ∧
        a.statics.toList = plainStatics (Sentence.labelName ss) ls := by
  intro r
  have hread := isRead_parse file tokens log
  have hdiagnostics := hread.diagnostics_resolve
  have hquiet : (parse file tokens { log }).resolve.diagnostics = [] ↔ (Sentence.lines? ss).isSome := by
    rw [hdiagnostics, List.append_eq_nil_iff]
    constructor
    · rintro ⟨hparse, hfaults⟩
      exact (recounts_parse file log h hparse).lines.quiet.1 hfaults
    · intro hlines
      have hparse := (tells_parse file log h).1.2 (Sentence.allKnown_of_lines? hlines)
      exact ⟨hparse, (recounts_parse file log h hparse).lines.quiet.2 hlines⟩
  by_cases hd : (parse file tokens { log }).resolve.diagnostics = []
  · have hparse := (List.append_eq_nil_iff.1 (hdiagnostics.symm.trans hd)).1
    have hrecounts := recounts_parse file log h hparse
    obtain ⟨ls', a, hls', hok, hcode, hstatics⟩ := hread.assemble_of_quiet hd file settings
    refine ⟨⟨fun _ => hquiet.1 hd, fun _ => by rw [show r = .ok a from hok]; rfl⟩, fun ls hls => ?_⟩
    obtain ⟨_, hmem, halike⟩ := hrecounts.lines.related ls hls
    cases hls'.symm.trans hmem
    refine ⟨a, hok, ?_, ?_⟩
    · rw [hcode, plainCode_alike hrecounts.biUnique halike]
    · rw [hstatics, plainStatics_alike hrecounts.biUnique (fun _ _ => hrecounts.labelName_eq) halike]
  · obtain ⟨ds, herror, -⟩ := hread.assemble_of_reports hd file settings
    have hnone : ¬ (Sentence.lines? ss).isSome := mt hquiet.2 hd
    refine ⟨⟨fun hok => ?_, fun hlines => absurd hlines hnone⟩, fun ls hls => absurd ?_ hnone⟩
    · rw [show r = .error _ from herror] at hok
      cases hok
    · rw [Option.mem_def.1 hls]
      rfl

end Workspace

end Assembler
