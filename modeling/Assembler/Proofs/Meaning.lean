import Mathlib.Data.List.Zip
import Assembler.Proofs.Clauses
import Assembler.Proofs.Faults
import Assembler.Proofs.Relabelled
/-!
# Programs that hold the same clauses

The clauses of a program tell what resolving its names reports (`Workspace.IsRead.reports_resolve`), and, if
nothing is reported, what code it is made into: two programs with the same clauses have lines that are alike,
with labels paired that are declared in one place (`Workspace.IsRead.forall₂_alike`). So they come to the same
end (`Workspace.IsRead.same_outcome`).
-/

namespace Assembler

/-! ## What is reported -/

/-- What a diagnostic says, wherever it is. -/
def Diagnostic.said (d : Diagnostic) : Cause × Option String := (d.cause, d.context)

namespace Node.Kind

/-- What is reported of a term where some names are declared. -/
def reports (declared : String → Bool) : Kind → List (Cause × Option String)
  | identifier name _ => if declared name then [] else [(.undeclaredIdentifier, some name)]
  | _ => []

/-- What is reported of a term as the target of a jump. -/
def targetReports : Kind → List (Cause × Option String)
  | string value => [(.illegalExpression, some ("cannot jump to string literal " ++ Text.quoted value))]
  | _ => []

end Node.Kind

/-- What is reported of a clause where some names are declared. -/
def Clause.reports (declared : String → Bool) : Clause → List (Cause × Option String)
  | label _ => []
  | directive _ terms _ => terms.flatMap (·.reports declared)
  | jump _ target => target.reports declared ++ target.targetReports
  | compare left right => left.reports declared ++ right.reports declared
  | bare term => term.reports declared

/-- What is reported of the clauses of a program. -/
def Clause.reportsOf (cs : List Clause) : List (Cause × Option String) :=
  cs.flatMap (·.reports fun name => decide (.label name ∈ cs))

/-- What the diagnostics say. -/
def Workspace.reports (w : Workspace) : List (Cause × Option String) := w.diagnostics.map Diagnostic.said

namespace Program

variable {p : Program} {declared : String → Bool}

theorem said_nameFault {k : Node.Kind} {id : NodeId} (h : p.IsOf k id) :
    (p.nameFault declared id).map Diagnostic.said = k.reports declared := by
  cases h.isLeaf with
  | identifier name =>
    obtain ⟨b, hk⟩ := h.name
    rw [nameFault, hk, Node.Kind.reports, apply_ite (List.map Diagnostic.said)]
    rfl
  | integer | string | register | localSlot =>
    rw [nameFault, h.kind? (by simp)]
    rfl

theorem said_targetFault {k : Node.Kind} {id : NodeId} (h : p.IsOf k id) :
    (p.targetFault id).map Diagnostic.said = k.targetReports := by
  cases h.isLeaf with
  | identifier name =>
    obtain ⟨b, hk⟩ := h.name
    rw [targetFault, hk]
    rfl
  | integer | string | register | localSlot =>
    rw [targetFault, h.kind? (by simp)]
    rfl

/-- The faults of a statement are what its clause tells. -/
theorem said_faults {c : Clause} {id : NodeId} (h : p.Holds c id) : (p.faults declared id).map Diagnostic.said = c.reports declared := by
  cases c with
  | label name =>
    obtain ⟨label, hk⟩ := h
    rw [faults, hk]
    rfl
  | directive name terms body =>
    obtain ⟨arguments, hterms, hk⟩ := h
    rw [faults, hk, Clause.reports]
    clear hk
    induction hterms with
    | nil => rfl
    | cons hterm _ ih =>
      dsimp only at ih ⊢
      rw [List.flatMap_cons, List.map_append, said_nameFault hterm, ih, List.flatMap_cons]
  | jump condition target =>
    obtain ⟨a, ha, hk⟩ := h
    rw [faults, hk, Clause.reports, ← said_nameFault ha, ← said_targetFault ha, ← List.map_append]
  | compare left right =>
    obtain ⟨a, b, ha, hb, hk⟩ := h
    rw [faults, hk, Clause.reports, ← said_nameFault ha, ← said_nameFault hb, ← List.map_append]
  | bare term =>
    obtain ⟨k, hk, he⟩ := h.isOperand
    rw [Clause.reports, ← said_nameFault h, faults, nameFault, hk]
    cases k with
    | identifier => rfl
    | label | integer | string | slot => rfl
    | directive | labelDecl | jump | compare => cases he

end Program

/-! ## Labels that are declared -/

namespace Program

variable {p : Program} {name : String}

theorem Holds.label_iff {c : Clause} {id : NodeId} (h : p.Holds c id) :
    c = .label name ↔ ∃ label, p.kind? id = some (.labelDecl name label) := by
  constructor
  · rintro rfl
    exact h
  · rintro ⟨label, hk⟩
    cases c with
    | label other =>
      obtain ⟨_, hk'⟩ := h
      cases hk.symm.trans hk'
      rfl
    | directive other terms body =>
      obtain ⟨_, -, hk'⟩ := h
      cases hk.symm.trans hk'
    | jump condition target =>
      obtain ⟨_, -, hk'⟩ := h
      cases hk.symm.trans hk'
    | compare left right =>
      obtain ⟨_, _, -, -, hk'⟩ := h
      cases hk.symm.trans hk'
    | bare term =>
      obtain ⟨k, hk', hexpression⟩ := h.isOperand
      cases hk.symm.trans hk'
      cases hexpression

/-- A name is declared by some statements just if one of their clauses says so. -/
theorem isSome_lastDeclared?_iff_mem {cs : List Clause} {ids : List NodeId} (h : List.Forall₂ p.Holds cs ids) :
    (p.lastDeclared? name ids).isSome ↔ .label name ∈ cs := by
  induction h with
  | nil => simp
  | @cons c id cs ids hc _ ih =>
    have hfirst : (p.declared? name id).isSome ↔ .label name = c := by
      rw [Option.isSome_iff_exists, eq_comm (a := Clause.label name), hc.label_iff]
      exact exists_congr fun _ => declared?_eq_some
    rw [lastDeclared?_cons, Option.isSome_or, Bool.or_eq_true, ih, hfirst, List.mem_cons, or_comm]

end Program

namespace Workspace.IsRead

variable {w w' : Workspace} {cs : List Clause}

/-- What resolving a program reports is what its clauses tell. -/
theorem reports_resolve (h : w.IsRead) (hcs : List.Forall₂ w.program.Holds cs w.program.statements) :
    w.resolve.reports = w.reports ++ Clause.reportsOf cs := by
  have hdeclared : w.declared = fun name => decide (.label name ∈ cs) := by
    funext name
    rw [Bool.eq_iff_iff, decide_eq_true_iff, declared, h.latest]
    exact Program.isSome_lastDeclared?_iff_mem hcs
  have hsaid (ids : List NodeId) (cs' : List Clause) (h : List.Forall₂ w.program.Holds cs' ids) :
      (ids.flatMap (w.program.faults w.declared)).map Diagnostic.said = cs'.flatMap (·.reports w.declared) := by
    induction h with
    | nil => rfl
    | cons hc _ ih => rw [List.flatMap_cons, List.map_append, Program.said_faults hc, ih, List.flatMap_cons]
  rw [reports, h.diagnostics_resolve, List.map_append, hsaid _ _ hcs, Clause.reportsOf, ← hdeclared]
  rfl

end Workspace.IsRead

/-! ## Labels that are declared in one place -/

theorem rel_or {R : NodeId → NodeId → Prop} {a a' b b' : Option NodeId} (ha : Option.Rel R a a') (hb : Option.Rel R b b') :
    Option.Rel R (a.or b) (a'.or b') := by
  cases ha with
  | none => simpa using hb
  | some h => exact .some h

/-- What stands once in a list of nodes is paired with one node of another. -/
theorem right_unique_zip {xs ys : List NodeId} {x y y' : NodeId} (hx : xs.count x ≤ 1) (h : (x, y) ∈ xs.zip ys)
    (h' : (x, y') ∈ xs.zip ys) : y = y' := by
  induction xs generalizing ys with
  | nil => cases h
  | cons a xs ih =>
    cases ys with
    | nil => cases h
    | cons b ys =>
      rw [List.zip_cons_cons, List.mem_cons] at h h'
      by_cases ha : a = x
      · subst ha
        have hnot (z : NodeId) : (a, z) ∉ xs.zip ys := by
          intro hz
          have := List.count_pos_iff.2 (List.of_mem_zip hz).1
          rw [List.count_cons_self] at hx
          omega
        rw [Prod.mk.injEq] at h h'
        exact (h.resolve_right (hnot y)).2.trans (h'.resolve_right (hnot y')).2.symm
      · have hne (z : NodeId) : (x, z) ≠ (a, b) := fun he => ha (congrArg Prod.fst he).symm
        rw [List.count_cons_of_ne (by simpa using ha)] at hx
        exact ih hx (h.resolve_left (hne y)) (h'.resolve_left (hne y'))

theorem left_unique_zip {xs ys : List NodeId} {x x' y : NodeId} (hy : ys.count y ≤ 1) (h : (x, y) ∈ xs.zip ys)
    (h' : (x', y) ∈ xs.zip ys) : x = x' := by
  have hswap {z : NodeId} (hz : (z, y) ∈ xs.zip ys) : (y, z) ∈ ys.zip xs := by
    rw [← List.zip_swap]
    exact List.mem_map_of_mem (f := Prod.swap) hz
  exact right_unique_zip hy (hswap h) (hswap h')

namespace Program

/-- Labels of one name that are declared by statements in the same place. -/
structure Paired (p q : Program) (a b : NodeId) : Prop where
  declarations : (a + 1, b + 1) ∈ p.statements.zip q.statements
  declared : ∃ name, p.kind? (a + 1) = some (.labelDecl name a) ∧ q.kind? (b + 1) = some (.labelDecl name b)

end Program

namespace Workspace.IsRead

variable {w w' : Workspace}

/-- A declaration is a statement once. -/
theorem count_declaration (h : w.IsRead) {id label : NodeId} {name : String}
    (hk : w.program.kind? id = some (.labelDecl name label)) : w.program.statements.count id ≤ 1 := by
  have hlabel : ¬ w.program.IsLabel id := by
    rintro ⟨_, hl⟩
    cases hk.symm.trans hl
  have honce := h.sound.formed.once id hlabel
  have hle := (Program.sublist_parts w.program w.program.statements).count_le id
  rw [List.count_nil] at honce
  exact hle.trans honce

theorem biUnique_paired (h : w.IsRead) (h' : w'.IsRead) : Relator.BiUnique (w.program.Paired w'.program) := by
  constructor
  · intro a b c hac hbc
    obtain ⟨name, -, hk⟩ := hac.declared
    exact Nat.succ.inj (left_unique_zip (h'.count_declaration hk) hac.declarations hbc.declarations)
  · intro a b c hab hac
    obtain ⟨name, hk, -⟩ := hab.declared
    exact Nat.succ.inj (right_unique_zip (h.count_declaration hk) hab.declarations hac.declarations)

/-- Statements in the same place declare labels that are paired, or none. -/
theorem rel_declared? (h : w.IsRead) (h' : w'.IsRead) {c : Clause} {x y : NodeId}
    (hxy : (x, y) ∈ w.program.statements.zip w'.program.statements) (hx : w.program.Holds c x) (hy : w'.program.Holds c y)
    (name : String) :
    Option.Rel (w.program.Paired w'.program) (w.program.declared? name x) (w'.program.declared? name y) := by
  have hlabel {w : Workspace} (h : w.IsRead) {id label : NodeId} (hk : w.program.kind? id = some (.labelDecl name label)) :
      label + 1 = id := by
    obtain ⟨n, hn, hnk⟩ := Program.kind?_eq_some.1 hk
    exact ((h.sound.formed.node id n hn).declares name label hnk).1
  cases ha : w.program.declared? name x with
  | some a =>
    have hk := Program.declared?_eq_some.1 ha
    obtain ⟨b, hk'⟩ := hy.label_iff.1 (hx.label_iff.2 ⟨a, hk⟩)
    rw [Program.declared?_eq_some.2 hk']
    obtain rfl := hlabel h hk
    obtain rfl := hlabel h' hk'
    exact .some ⟨hxy, name, hk, hk'⟩
  | none =>
    have hb : w'.program.declared? name y = none := by
      rw [Option.eq_none_iff_forall_ne_some]
      intro b hb
      obtain ⟨a, hk⟩ := hx.label_iff.1 (hy.label_iff.2 ⟨b, Program.declared?_eq_some.1 hb⟩)
      rw [Program.declared?_eq_some.2 hk] at ha
      cases ha
    rw [hb]
    exact .none

/-- So do lists of statements in the same places. -/
theorem rel_lastDeclared? (h : w.IsRead) (h' : w'.IsRead) {cs : List Clause} {ids ids' : List NodeId}
    (hplace : ids.zip ids' ⊆ w.program.statements.zip w'.program.statements) (hcs : List.Forall₂ w.program.Holds cs ids)
    (hcs' : List.Forall₂ w'.program.Holds cs ids') (name : String) :
    Option.Rel (w.program.Paired w'.program) (w.program.lastDeclared? name ids) (w'.program.lastDeclared? name ids') := by
  induction hcs generalizing ids' with
  | nil =>
    cases hcs'
    exact .none
  | @cons c x cs ids hc _ ih =>
    cases hcs' with
    | @cons _ y _ ids' hc' hcs' =>
      rw [List.zip_cons_cons, List.cons_subset] at hplace
      rw [Program.lastDeclared?_cons, Program.lastDeclared?_cons]
      exact rel_or (ih hplace.2 hcs') (rel_declared? h h' hplace.1 hc hc' name)

end Workspace.IsRead

/-! ## Lines that are alike -/

theorem Program.line?_of_isOperand {p : Program} {id : NodeId} (h : p.IsOperand id) : p.line? id = (p.operand? id).map .bare := by
  obtain ⟨k, hk, hexpression⟩ := h
  unfold line?
  rw [hk]
  cases k <;> first | rfl | cases hexpression

namespace Workspace

/-- Statements in one place of two programs: what they declare and what their names are bound to is paired. -/
structure Matched (w w' : Workspace) (st st' : NodeId) : Prop where
  later : w.Later w.resolve
  later' : w'.Later w'.resolve
  labels : ∀ name a b, w.program.kind? st = some (.labelDecl name a) → w'.program.kind? st' = some (.labelDecl name b) →
    w.program.Paired w'.program a b
  names : ∀ name id id', id ∈ st :: w.program.children st → id' ∈ st' :: w'.program.children st' →
    w.program.IsOf (.identifier name none) id → w'.program.IsOf (.identifier name none) id' →
    ∃ b b', w.resolve.program.kind? id = some (.identifier name b) ∧ w'.resolve.program.kind? id' = some (.identifier name b') ∧
      Option.Rel (w.program.Paired w'.program) b b'

variable {w w' : Workspace}

theorem IsRead.matched (h : w.IsRead) (h' : w'.IsRead) {cs₁ cs₂ : List Clause} {c : Clause} {pre pre' post post' : List NodeId}
    {st st' : NodeId}
    (hstatements : w.program.statements = pre ++ st :: post) (hstatements' : w'.program.statements = pre' ++ st' :: post')
    (hpre : List.Forall₂ w.program.Holds cs₁ pre) (hpre' : List.Forall₂ w'.program.Holds cs₁ pre')
    (hst : w.program.Holds c st) (hst' : w'.program.Holds c st') (hpost : List.Forall₂ w.program.Holds cs₂ post)
    (hpost' : List.Forall₂ w'.program.Holds cs₂ post') : w.Matched w' st st' := by
  have hlength : pre.length = pre'.length := hpre.length_eq.symm.trans hpre'.length_eq
  have hzip : w.program.statements.zip w'.program.statements = pre.zip pre' ++ (st, st') :: post.zip post' := by
    rw [hstatements, hstatements', List.zip_append hlength, List.zip_cons_cons]
  have hplace : (st, st') ∈ w.program.statements.zip w'.program.statements := by simp [hzip]
  refine ⟨h.bound.resolve.2, h'.bound.resolve.2, fun name a b hk hk' => ?_, fun name id id' hid hid' hk hk' => ?_⟩
  · have hlabels := IsRead.rel_declared? h h' hplace hst hst' name
    rw [Program.declared?_eq_some.2 hk, Program.declared?_eq_some.2 hk'] at hlabels
    cases hlabels
    assumption
  obtain ⟨b, hb⟩ := hk.name
  obtain ⟨b', hb'⟩ := hk'.name
  have hbefore := IsRead.rel_lastDeclared? h h' (by simp [hzip]) hpre hpre' name
  have hcs : List.Forall₂ w.program.Holds (cs₁ ++ c :: cs₂) w.program.statements :=
    hstatements ▸ List.rel_append hpre (.cons hst hpost)
  have hcs' : List.Forall₂ w'.program.Holds (cs₁ ++ c :: cs₂) w'.program.statements :=
    hstatements' ▸ List.rel_append hpre' (.cons hst' hpost')
  have hall := IsRead.rel_lastDeclared? h h' (List.Subset.refl _) hcs hcs' name
  exact ⟨_, _, h.kind?_resolve hstatements hid (h.unbound hb), h'.kind?_resolve hstatements' hid' (h'.unbound hb'),
    rel_or hbefore hall⟩

namespace Matched

variable {st st' : NodeId}

theorem operand (hm : w.Matched w' st st') {k : Node.Kind} {id id' : NodeId}
    (hid : id ∈ st :: w.program.children st) (hid' : id' ∈ st' :: w'.program.children st') (hk : w.program.IsOf k id)
    (hk' : w'.program.IsOf k id') {o o' : Operand} (ho : w.resolve.program.operand? id = some o)
    (ho' : w'.resolve.program.operand? id' = some o') : o.Alike (w.program.Paired w'.program) o' := by
  cases hk.isLeaf with
  | identifier name =>
    obtain ⟨b, b', hb, hb', hlabels⟩ := hm.names name id id' hid hid' hk hk'
    simp only [Program.operand?, hb, hb'] at ho ho'
    cases hlabels with
    | none => cases ho
    | some hlabels =>
      cases ho
      cases ho'
      exact .label hlabels
  | integer value =>
    simp only [Program.operand?, (hm.later.isOf hk).kind? (by simp), (hm.later'.isOf hk').kind? (by simp)] at ho ho'
    cases ho
    cases ho'
    exact .integer value
  | string value =>
    simp only [Program.operand?, (hm.later.isOf hk).kind? (by simp), (hm.later'.isOf hk').kind? (by simp)] at ho ho'
    cases ho
    cases ho'
    exact .string value
  | register | localSlot =>
    simp only [Program.operand?, (hm.later.isOf hk).kind? (by simp), (hm.later'.isOf hk').kind? (by simp)] at ho ho'
    cases ho
    cases ho'
    exact .written _

theorem operands (hm : w.Matched w' st st') {terms : List Node.Kind}
    {ids ids' : List NodeId} (hids : ids ⊆ st :: w.program.children st) (hids' : ids' ⊆ st' :: w'.program.children st')
    (hterms : List.Forall₂ w.program.IsOf terms ids) (hterms' : List.Forall₂ w'.program.IsOf terms ids') {os os' : List Operand}
    (hos : ids.mapM w.resolve.program.operand? = some os) (hos' : ids'.mapM w'.resolve.program.operand? = some os') :
    List.Forall₂ (Operand.Alike (w.program.Paired w'.program)) os os' := by
  induction hterms generalizing ids' os os' with
  | nil =>
    cases hterms'
    cases hos
    cases hos'
    exact .nil
  | cons hk _ ih =>
    cases hterms' with
    | cons hk' hterms' =>
      rw [List.cons_subset] at hids hids'
      obtain ⟨o, ho, os, hrest, rfl⟩ := mapM_cons_eq_some.1 hos
      obtain ⟨o', ho', os', hrest', rfl⟩ := mapM_cons_eq_some.1 hos'
      exact .cons (hm.operand hids.1 hids'.1 hk hk' ho ho') (ih hids.2 hids'.2 hterms' hrest hrest')

/-- The lines of statements that hold one clause are alike. -/
theorem line (hm : w.Matched w' st st') {c : Clause}
    (hc : w.program.Holds c st) (hc' : w'.program.Holds c st') {l l' : Line} (hl : w.resolve.program.line? st = some l)
    (hl' : w'.resolve.program.line? st' = some l') : l.Alike (w.program.Paired w'.program) l' := by
  have hpart {k : Node.Kind} (hk : w.program.kind? st = some k) : k.children ⊆ st :: w.program.children st :=
    Program.children_of_kind? hk ▸ List.subset_cons_self ..
  have hpart' {k : Node.Kind} (hk : w'.program.kind? st' = some k) : k.children ⊆ st' :: w'.program.children st' :=
    Program.children_of_kind? hk ▸ List.subset_cons_self ..
  cases c with
  | label name =>
    obtain ⟨a, hk⟩ := hc
    obtain ⟨b, hk'⟩ := hc'
    simp only [Program.line?, (hm.later.kind?_iff (by simp)).2 hk, (hm.later'.kind?_iff (by simp)).2 hk'] at hl hl'
    cases hl
    cases hl'
    exact .declaration (hm.labels name a b hk hk')
  | directive name terms body =>
    obtain ⟨arguments, hterms, hk⟩ := hc
    obtain ⟨arguments', hterms', hk'⟩ := hc'
    simp only [Program.line?, (hm.later.kind?_iff (by simp)).2 hk, (hm.later'.kind?_iff (by simp)).2 hk'] at hl hl'
    obtain ⟨os, hos, rfl⟩ := Option.map_eq_some_iff.1 hl
    obtain ⟨os', hos', rfl⟩ := Option.map_eq_some_iff.1 hl'
    exact .directive (hm.operands (hpart hk) (hpart' hk') hterms hterms' hos hos') name body
  | jump condition target =>
    obtain ⟨a, ha, hk⟩ := hc
    obtain ⟨a', ha', hk'⟩ := hc'
    simp only [Program.line?, (hm.later.kind?_iff (by simp)).2 hk, (hm.later'.kind?_iff (by simp)).2 hk'] at hl hl'
    obtain ⟨o, ho, rfl⟩ := Option.map_eq_some_iff.1 hl
    obtain ⟨o', ho', rfl⟩ := Option.map_eq_some_iff.1 hl'
    exact .jump (hm.operand (hpart hk List.mem_cons_self) (hpart' hk' List.mem_cons_self) ha ha' ho ho') condition
  | compare left right =>
    obtain ⟨a, b, ha, hb, hk⟩ := hc
    obtain ⟨a', b', ha', hb', hk'⟩ := hc'
    simp only [Program.line?, (hm.later.kind?_iff (by simp)).2 hk, (hm.later'.kind?_iff (by simp)).2 hk'] at hl hl'
    obtain ⟨o, ho, hl⟩ := Option.bind_eq_some_iff.1 hl
    obtain ⟨u, hu, hl⟩ := Option.bind_eq_some_iff.1 hl
    obtain ⟨o', ho', hl'⟩ := Option.bind_eq_some_iff.1 hl'
    obtain ⟨u', hu', hl'⟩ := Option.bind_eq_some_iff.1 hl'
    cases hl
    cases hl'
    have hleft := hm.operand (hpart hk (by simp [Node.Kind.children])) (hpart' hk' (by simp [Node.Kind.children])) ha ha' ho ho'
    have hright := hm.operand (hpart hk (by simp [Node.Kind.children])) (hpart' hk' (by simp [Node.Kind.children])) hb hb' hu hu'
    exact .compare hleft hright
  | bare term =>
    rw [Program.line?_of_isOperand (hm.later.isOf hc).isOperand] at hl
    rw [Program.line?_of_isOperand (hm.later'.isOf hc').isOperand] at hl'
    obtain ⟨o, ho, rfl⟩ := Option.map_eq_some_iff.1 hl
    obtain ⟨o', ho', rfl⟩ := Option.map_eq_some_iff.1 hl'
    exact .bare (hm.operand List.mem_cons_self List.mem_cons_self hc hc' ho ho')

end Matched

/-- Resolved programs with the same clauses have lines that are alike. -/
theorem IsRead.forall₂_alike (h : w.IsRead) (h' : w'.IsRead) {cs : List Clause}
    (hcs : List.Forall₂ w.program.Holds cs w.program.statements) (hcs' : List.Forall₂ w'.program.Holds cs w'.program.statements)
    {ls ls' : List Line} (hls : w.resolve.program.lines? = some ls) (hls' : w'.resolve.program.lines? = some ls') :
    List.Forall₂ (Line.Alike (w.program.Paired w'.program)) ls ls' := by
  -- The statements before those that are looked at say which place it is.
  have hfrom : ∀ (cs₂ cs₁ : List Clause) (pre post pre' post' : List NodeId) (ls ls' : List Line),
      w.program.statements = pre ++ post → w'.program.statements = pre' ++ post' →
      List.Forall₂ w.program.Holds cs₁ pre → List.Forall₂ w'.program.Holds cs₁ pre' →
      List.Forall₂ w.program.Holds cs₂ post → List.Forall₂ w'.program.Holds cs₂ post' →
      post.mapM w.resolve.program.line? = some ls → post'.mapM w'.resolve.program.line? = some ls' →
      List.Forall₂ (Line.Alike (w.program.Paired w'.program)) ls ls' := by
    intro cs₂
    induction cs₂ with
    | nil =>
      rintro cs₁ pre post pre' post' ls ls' - - - - ⟨⟩ ⟨⟩ ⟨⟩ ⟨⟩
      exact .nil
    | cons c cs₂ ih =>
      intro cs₁ pre post pre' post' ls ls' hst hst' hpre hpre' hpost hpost' hls hls'
      obtain ⟨st, post, hc, hrest, rfl⟩ := List.forall₂_cons_left_iff.1 hpost
      obtain ⟨st', post', hc', hrest', rfl⟩ := List.forall₂_cons_left_iff.1 hpost'
      obtain ⟨l, hl, ls, hmore, rfl⟩ := mapM_cons_eq_some.1 hls
      obtain ⟨l', hl', ls', hmore', rfl⟩ := mapM_cons_eq_some.1 hls'
      have hm := h.matched h' hst hst' hpre hpre' hc hc' hrest hrest'
      refine .cons (hm.line hc hc' hl hl') ?_
      refine ih (cs₁ ++ [c]) (pre ++ [st]) post (pre' ++ [st']) post' ls ls' ?_ ?_ ?_ ?_ hrest hrest' hmore hmore'
      · rw [hst, List.append_assoc, List.singleton_append]
      · rw [hst', List.append_assoc, List.singleton_append]
      · exact List.rel_append hpre (.cons hc .nil)
      · exact List.rel_append hpre' (.cons hc' .nil)
  have hstatements := h.bound.resolve.2.statements
  have hstatements' := h'.bound.resolve.2.statements
  rw [Program.lines?, hstatements] at hls
  rw [Program.lines?, hstatements'] at hls'
  exact hfrom cs [] [] _ [] _ ls ls' rfl rfl .nil .nil hcs hcs' hls hls'

/-! ## What becomes of a program -/

/-- What an assembly comes to, but for locations: its code and static area, or what was reported, in any order. -/
def SameOutcome (r r' : Except Failure Assembly) : Prop :=
  (∃ a a', r = .ok a ∧ r' = .ok a' ∧ a.chunk.code = a'.chunk.code ∧ a.statics = a'.statics) ∨
    ∃ ds ds', r = .error (.diagnostics ds) ∧ r' = .error (.diagnostics ds') ∧
      (ds.map Diagnostic.said).Perm (ds'.map Diagnostic.said)

/-- Labels that are paired have one name. -/
theorem IsRead.labelName_eq (h : w.IsRead) (h' : w'.IsRead) {a b : NodeId} (hab : w.program.Paired w'.program a b) :
    w.resolve.program.labelName a = w'.resolve.program.labelName b := by
  obtain ⟨name, hk, hk'⟩ := hab.declared
  have ha := (h.bound.resolve.2.kind?_iff (by simp)).2 (h.bound.declares _ name a hk)
  have hb := (h'.bound.resolve.2.kind?_iff (by simp)).2 (h'.bound.declares _ name b hk')
  rw [Program.labelName, Program.labelName, ha, hb]

/-- A program of which nothing is reported is made into the code and the static area of its lines. -/
theorem IsRead.assemble_of_quiet (h : w.IsRead) (hd : w.resolve.diagnostics = []) (file : String) (settings : Settings) :
    ∃ ls a, w.resolve.program.lines? = some ls ∧ (w.resolve.sortDiagnostics.assemble file settings).1 = .ok a ∧
      a.chunk.code = (plainCode ls).flatMap Instruction.encode ∧
      a.statics.toList = plainStatics w.resolve.program.labelName ls := by
  have hsorted : w.resolve.sortDiagnostics.diagnostics = [] := by
    change Diagnostics.sorted w.resolve.diagnostics = []
    rw [hd]
    exact List.mergeSort_nil
  obtain ⟨ls, chunk, statics, hls, hok, hcode, hstatics, -⟩ :=
    assemble_of_ready (w := w.resolve.sortDiagnostics) (ready_resolve h.sound h.hoisted_first hd) hsorted
      (h.bound.resolve.2.statics.trans h.sound.statics) file settings
  exact ⟨ls, _, hls, hok, hcode, hstatics⟩

/-- A program of which something is reported is refused with all of that. -/
theorem IsRead.assemble_of_reports (h : w.IsRead) (hd : w.resolve.diagnostics ≠ []) (file : String) (settings : Settings) :
    ∃ ds, (w.resolve.sortDiagnostics.assemble file settings).1 = .error (.diagnostics ds) ∧
      (ds.map Diagnostic.said).Perm w.resolve.reports := by
  obtain ⟨added, hadded, herror⟩ := h.bound.resolve.2.diagnostics
  have hall : ∀ d ∈ w.resolve.diagnostics, d.severity = .error := by
    rw [hadded]
    exact List.forall_mem_append.2 ⟨h.sound.severity, herror⟩
  exact ⟨_, assemble_of_errors hd hall file settings,
    (Diagnostics.isStableSort_sorted w.resolve.diagnostics).perm.map _⟩

/-- Programs of which nothing was reported and that hold the same clauses come to the same end. -/
theorem IsRead.same_outcome (h : w.IsRead) (h' : w'.IsRead) (hquiet : w.diagnostics = []) (hquiet' : w'.diagnostics = [])
    {cs : List Clause} (hcs : List.Forall₂ w.program.Holds cs w.program.statements)
    (hcs' : List.Forall₂ w'.program.Holds cs w'.program.statements) (file file' : String) (settings settings' : Settings) :
    SameOutcome (w.resolve.sortDiagnostics.assemble file settings).1 (w'.resolve.sortDiagnostics.assemble file' settings').1 := by
  have hreports {w : Workspace} (h : w.IsRead) (hquiet : w.diagnostics = [])
      (hcs : List.Forall₂ w.program.Holds cs w.program.statements) : w.resolve.reports = Clause.reportsOf cs := by
    rw [h.reports_resolve hcs, reports, hquiet]
    rfl
  have hsame := (hreports h hquiet hcs).trans (hreports h' hquiet' hcs').symm
  have hnil : w.resolve.diagnostics = [] ↔ w'.resolve.diagnostics = [] := by
    rw [← List.map_eq_nil_iff (f := Diagnostic.said), ← List.map_eq_nil_iff (f := Diagnostic.said)]
    exact Eq.congr_left hsame
  by_cases hd : w.resolve.diagnostics = []
  · left
    obtain ⟨ls, a, hls, hok, hcode, hstatics⟩ := h.assemble_of_quiet hd file settings
    obtain ⟨ls', a', hls', hok', hcode', hstatics'⟩ := h'.assemble_of_quiet (hnil.1 hd) file' settings'
    have halike := h.forall₂_alike h' hcs hcs' hls hls'
    refine ⟨a, a', hok, hok', ?_, Array.toList_inj.1 ?_⟩
    · rw [hcode, hcode', plainCode_alike (h.biUnique_paired h') halike]
    · rw [hstatics, hstatics']
      exact plainStatics_alike (h.biUnique_paired h') (fun _ _ => h.labelName_eq h') halike
  · right
    obtain ⟨ds, herror, hperm⟩ := h.assemble_of_reports hd file settings
    obtain ⟨ds', herror', hperm'⟩ := h'.assemble_of_reports (mt hnil.2 hd) file' settings'
    exact ⟨ds, ds', herror, herror', hperm.trans ((List.Perm.of_eq hsame).trans hperm'.symm)⟩

end Workspace

end Assembler
