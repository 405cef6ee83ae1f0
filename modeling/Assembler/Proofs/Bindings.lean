import Assembler.Proofs.Assembled
/-!
# What names are bound to

While a program is read, a name stands for the label of its last declaration so far (`Stage.Latest`).
Resolution declares the labels again on its way, so a name in a directive is bound to the label of
the last declaration before the directive, if there is one, and otherwise like a name in any other
statement to that of the last one of all (`Source.binding_of_argument`, `Source.binding_of_other`).
So only names in directives between two declarations miss the last label (`Source.bound_to_last_iff`).
-/

namespace Assembler

open Relation (ReflTransGen)

/-! ## Declarations -/

namespace Program

/-- The label that a node declares by a name, if it does. -/
def declared? (p : Program) (name : String) (id : NodeId) : Option NodeId :=
  match p.kind? id with
  | some (.labelDecl other label) => if other = name then some label else none
  | _ => none

/-- The label of the last declaration of a name among some nodes. -/
def lastDeclared? (p : Program) (name : String) (ids : List NodeId) : Option NodeId :=
  ids.reverse.findSome? (p.declared? name)

variable {p q : Program} {name : String}

theorem declared?_eq_some {id label : NodeId} :
    p.declared? name id = some label ↔ p.kind? id = some (.labelDecl name label) := by
  unfold declared?
  split
  · rename_i other label' hk
    rw [hk]
    by_cases h : other = name
    · simp [h]
    · simp [h]
  · rename_i hk
    exact ⟨nofun, fun h => (hk name label h).elim⟩

theorem declared?_congr {id : NodeId} (h : ∀ name label, q.kind? id = some (.labelDecl name label) ↔
    p.kind? id = some (.labelDecl name label)) : q.declared? name id = p.declared? name id := by
  ext label
  rw [declared?_eq_some, declared?_eq_some, h]

@[simp] theorem lastDeclared?_nil : p.lastDeclared? name [] = none := rfl

theorem lastDeclared?_append (ids ids' : List NodeId) :
    p.lastDeclared? name (ids ++ ids') = (p.lastDeclared? name ids').or (p.lastDeclared? name ids) := by
  rw [lastDeclared?, List.reverse_append, List.findSome?_append]
  rfl

@[simp] theorem lastDeclared?_cons (id : NodeId) (ids : List NodeId) :
    p.lastDeclared? name (id :: ids) = (p.lastDeclared? name ids).or (p.declared? name id) := by
  simp [lastDeclared?, List.findSome?_append]

theorem lastDeclared?_congr {ids : List NodeId} (h : ∀ id ∈ ids, q.declared? name id = p.declared? name id) :
    q.lastDeclared? name ids = p.lastDeclared? name ids := by
  induction ids with
  | nil => rfl
  | cons id ids ih =>
    obtain ⟨hid, hids⟩ := List.forall_mem_cons.1 h
    rw [lastDeclared?_cons, lastDeclared?_cons, ih hids, hid]

theorem exists_of_lastDeclared? {ids : List NodeId} {label : NodeId} (h : p.lastDeclared? name ids = some label) :
    ∃ id ∈ ids, p.kind? id = some (.labelDecl name label) := by
  obtain ⟨id, hid, hlabel⟩ := List.exists_of_findSome?_eq_some h
  exact ⟨id, List.mem_reverse.1 hid, declared?_eq_some.1 hlabel⟩

/-- Something is the last declaration of a name just if something declares it. -/
theorem isSome_lastDeclared?_iff {ids : List NodeId} :
    (p.lastDeclared? name ids).isSome ↔ ∃ d ∈ ids, ∃ label, p.kind? d = some (.labelDecl name label) := by
  rw [lastDeclared?, List.findSome?_isSome_iff]
  simp only [List.mem_reverse, Option.isSome_iff_exists, declared?_eq_some]

/-- Nodes that declare nothing make no difference. -/
theorem lastDeclared?_filter (keep : NodeId → Bool) {ids : List NodeId}
    (h : ∀ id ∈ ids, keep id = false → p.declared? name id = none) :
    p.lastDeclared? name (ids.filter keep) = p.lastDeclared? name ids := by
  induction ids with
  | nil => rfl
  | cons id ids ih =>
    obtain ⟨hid, hids⟩ := List.forall_mem_cons.1 h
    cases hkeep : keep id with
    | true => rw [List.filter_cons_of_pos hkeep, lastDeclared?_cons, lastDeclared?_cons, ih hids]
    | false =>
      rw [List.filter_cons_of_neg (by simp [hkeep]), lastDeclared?_cons, hid hkeep, Option.or_none, ih hids]

theorem isHoisted_of_labelDecl {id label : NodeId} (h : p.kind? id = some (.labelDecl name label)) :
    p.isHoisted id = true := by
  simp [isHoisted, h, Node.Kind.isHoisted]

theorem lastDeclared?_filter_isHoisted (ids : List NodeId) :
    p.lastDeclared? name (ids.filter (p.isHoisted ·)) = p.lastDeclared? name ids := by
  refine lastDeclared?_filter _ fun id _ hid => ?_
  rw [Option.eq_none_iff_forall_ne_some]
  intro label hlabel
  rw [isHoisted_of_labelDecl (declared?_eq_some.1 hlabel)] at hid
  cases hid

/-- What is not hoisted declares nothing. -/
theorem lastDeclared?_filter_not_isHoisted (ids : List NodeId) :
    p.lastDeclared? name (ids.filter (!p.isHoisted ·)) = none := by
  rw [Option.eq_none_iff_forall_ne_some]
  intro label hlabel
  obtain ⟨id, hid, hdecl⟩ := exists_of_lastDeclared? hlabel
  have := (List.mem_filter.1 hid).2
  rw [isHoisted_of_labelDecl hdecl] at this
  cases this

theorem Extends.lastDeclared?_eq (h : p.Extends q) {ids : List NodeId} (hids : ∀ id ∈ ids, id < p.size) :
    q.lastDeclared? name ids = p.lastDeclared? name ids := by
  refine lastDeclared?_congr fun id hid => declared?_congr fun _ _ => ?_
  rw [h.kind?_eq (hids id hid)]

end Program

/-! ## While a program is read -/

/-- A name stands for the label of its last declaration among the statements made so far. -/
def Stage.Latest (s : Stage) : Prop :=
  ∀ name, s.workspace.find? name = s.workspace.program.lastDeclared? name s.statements.reverse

namespace Stage

/-- More nodes change nothing, and a new statement only that declares a label. -/
theorem Latest.grow {w w' : Workspace} {os os' ss ss' : List NodeId} (h : Latest ⟨w, os, ss⟩) (hs : Sound ⟨w, os, ss⟩)
    (hext : w.program.Extends w'.program) (hfind : ∀ name, w'.find? name = w.find? name)
    (hss : ss' = ss ∨ ∃ id, ss' = id :: ss ∧ ∀ name, w'.program.declared? name id = none) : Latest ⟨w', os', ss'⟩ := by
  intro name
  have hold : w'.program.lastDeclared? name ss.reverse = w.program.lastDeclared? name ss.reverse :=
    hext.lastDeclared?_eq fun id hid => hs.formed.statement id (List.mem_reverse.1 hid)
  have hfind' : w'.find? name = w'.program.lastDeclared? name ss.reverse := (hfind name).trans ((h name).trans hold.symm)
  rcases hss with rfl | ⟨id, rfl, hid⟩
  · exact hfind'
  · change w'.find? name = w'.program.lastDeclared? name (id :: ss).reverse
    rw [hfind', List.reverse_cons, Program.lastDeclared?_append, Program.lastDeclared?_cons, hid]
    rfl

theorem declared?_of_isOperand {p : Program} {id : NodeId} (h : p.IsOperand id) (name : String) :
    p.declared? name id = none := by
  obtain ⟨k, hk, hexpression⟩ := h
  unfold Program.declared?
  rw [hk]
  cases k <;> first | rfl | cases hexpression

theorem Latest.declare {w : Workspace} {os ss : List NodeId} (h : Latest ⟨w, os, ss⟩) (hs : Sound ⟨w, os, ss⟩)
    (name : String) (location : Location) :
    Latest ⟨(w.declare name location).2, os, (w.declare name location).1 :: ss⟩ := by
  set first := (w.push (.label name) location).2 with hfirst
  have hrooted : first.Rooted := ⟨hs.named.scope, hs.named.only⟩
  -- The scope binds the name to the label before the declaration becomes a node.
  have hfind : ∀ other, (w.declare name location).2.find? other = if other = name then some w.program.size else w.find? other :=
    (hrooted.bind name w.program.size).2
  have hkind : (w.declare name location).2.program.kind? (w.declare name location).1 =
      some (.labelDecl name w.program.size) :=
    (Program.kind?_push ..).trans (if_pos rfl)
  have hext : w.program.Extends (w.declare name location).2.program := (Step.declare w name location os ss).extends
  intro other
  change (w.declare name location).2.find? other =
    (w.declare name location).2.program.lastDeclared? other ((w.declare name location).1 :: ss).reverse
  have hold : (w.declare name location).2.program.lastDeclared? other ss.reverse = w.find? other :=
    (hext.lastDeclared?_eq fun id hid => hs.formed.statement id (List.mem_reverse.1 hid)).trans (h other).symm
  rw [hfind, List.reverse_cons, Program.lastDeclared?_append, hold, Program.lastDeclared?_cons]
  simp only [Program.declared?, hkind, Program.lastDeclared?_nil, Option.none_or]
  by_cases hother : other = name
  · simp [hother]
  · simp [hother, Ne.symm hother]

theorem Latest.step {s s' : Stage} (h : s.Latest) (hs : s.Sound) (hstep : Step s s') : s'.Latest := by
  have hext := hstep.extends
  cases hstep with
  | log | report | named | drop => exact h.grow hs hext (fun _ => rfl) (.inl rfl)
  | leaf => exact h.grow hs hext (fun _ => rfl) (.inl rfl)
  | inside w ds =>
    refine h.grow hs hext (fun name => ?_) (.inl rfl)
    rw [hs.named.inside]
    rfl
  | bare w o os ss =>
    have ho := hs.formed.operand o List.mem_cons_self
    exact h.grow hs hext (fun _ => rfl) (.inr ⟨o, rfl, declared?_of_isOperand ho⟩)
  | take w kind location os ss hkind =>
    refine h.grow hs hext (fun _ => rfl) (.inr ⟨_, rfl, fun name => ?_⟩)
    have hnew : (w.push kind location).2.program.kind? (w.push kind location).1 = some kind :=
      (Program.kind?_push ..).trans (if_pos rfl)
    simp only [Program.declared?, hnew]
    cases kind <;> first | rfl | cases hkind
  | declare w name location => exact h.declare hs name location

theorem Latest.steps {s s' : Stage} (h : s.Latest) (hs : s.Sound) (hsteps : Steps s s') : s'.Latest := by
  induction hsteps with
  | refl => exact h
  | tail hprev hstep ih => exact ih.step (hs.steps hprev) hstep

theorem latest_fresh (log : Log) : Latest ⟨{ log }, [], []⟩ := by
  intro name
  rw [Workspace.Rooted.find? ⟨rfl, {}, rfl⟩ rfl]
  rfl

end Stage

/-! ## When names are resolved -/

namespace Node.Kind

/-- A name that stands for what it is found to stand for, if it is found. -/
def rebound (find? : String → Option NodeId) : Kind → Kind
  | identifier name binding => identifier name ((find? name).or binding)
  | kind => kind

theorem rebound_rebound (find? : String → Option NodeId) (k : Kind) : (k.rebound find?).rebound find? = k.rebound find? := by
  cases k with
  | identifier name binding => simp [rebound, ← Option.or_assoc]
  | _ => rfl

theorem rebound_of_ne {find? : String → Option NodeId} {k : Kind} (h : ∀ name b, k ≠ .identifier name b) :
    k.rebound find? = k := by
  cases k with
  | identifier name b => exact absurd rfl (h name b)
  | _ => rfl

@[simp] theorem isExpression_rebound (find? : String → Option NodeId) (k : Kind) :
    (k.rebound find?).isExpression = k.isExpression := by
  cases k <;> rfl

end Node.Kind

namespace Workspace

/-- What becomes of a workspace in which some nodes were visited: the names among them were looked up. -/
structure Visits (ids : List NodeId) (w w' : Workspace) : Prop where
  find? : w'.find? = w.find?
  kind? : ∀ i, w'.program.kind? i = if i ∈ ids then (w.program.kind? i).map (·.rebound w.find?) else w.program.kind? i

namespace Visits

variable {w w' w'' : Workspace} {ids ids' : List NodeId}

theorem trans (h : Visits ids w w') (h' : Visits ids' w' w'') : Visits (ids ++ ids') w w'' := by
  refine ⟨h'.find?.trans h.find?, fun i => ?_⟩
  rw [h'.kind?, h.kind?, h.find?]
  by_cases hi : i ∈ ids
  · by_cases hi' : i ∈ ids'
    · simp [hi, hi', Node.Kind.rebound_rebound, Function.comp_def]
    · simp [hi, hi']
  · simp [hi]

/-- A node that is no name may be counted among those that were visited. -/
theorem cons {id : NodeId} (h : Visits ids w w') (hid : ∀ name b, w.program.kind? id ≠ some (.identifier name b)) :
    Visits (id :: ids) w w' := by
  refine ⟨h.find?, fun i => ?_⟩
  rw [h.kind?]
  by_cases hi : i = id
  · subst hi
    have hsame : (w.program.kind? i).map (·.rebound w.find?) = w.program.kind? i := by
      cases hk : w.program.kind? i with
      | none => rfl
      | some k => exact congrArg some (Node.Kind.rebound_of_ne fun name b he => hid name b (he ▸ hk))
    rw [hsame, ite_self, ite_self]
  · simp [hi]

theorem isOperand (h : Visits ids w w') {id : NodeId} (hid : w.program.IsOperand id) : w'.program.IsOperand id := by
  obtain ⟨k, hk, he⟩ := hid
  rw [Program.IsOperand, h.kind?, hk]
  split
  · exact ⟨_, rfl, by simpa using he⟩
  · exact ⟨k, rfl, he⟩

end Visits

variable {w : Workspace}

theorem visits_refl (w : Workspace) : Visits [] w w := ⟨rfl, fun i => by simp⟩

theorem visits_resolveIdentifier {id : NodeId} {name : String} {b : Option NodeId}
    (hid : w.program.kind? id = some (.identifier name b)) : Visits [id] w (w.resolveIdentifier id name) := by
  unfold resolveIdentifier
  split
  · rename_i target htarget
    refine ⟨rfl, fun i => ?_⟩
    change (w.program.setBinding id target).kind? i = _
    rw [Program.kind?_setBinding _ _ hid]
    by_cases hi : i = id
    · simp [hi, hid, Node.Kind.rebound, htarget]
    · simp [hi, Ne.symm hi]
  · rename_i hnone
    refine ⟨rfl, fun i => ?_⟩
    change w.program.kind? i = _
    by_cases hi : i = id
    · simp [hi, hid, Node.Kind.rebound, hnone]
    · simp [hi]

theorem visits_checkTarget (w : Workspace) (target : NodeId) : Visits [] w (w.checkTarget target) := by
  unfold checkTarget
  split
  · exact ⟨rfl, fun i => by simp [report]⟩
  · exact visits_refl w

theorem visits_operand {id depth : NodeId} (hdepth : id < depth) (h : w.program.IsOperand id) :
    Visits [id] w (resolveWithin depth id w) := by
  obtain ⟨depth, rfl⟩ := Nat.exists_eq_succ_of_ne_zero (Nat.ne_zero_of_lt hdepth)
  obtain ⟨k, hk, he⟩ := h
  rw [resolveWithin, hk]
  cases k with
  | identifier name b => exact visits_resolveIdentifier hk
  | label | integer | string | slot => exact (visits_refl w).cons (by simp [hk])
  | directive | labelDecl | jump | compare => cases he

theorem visits_arguments {ids : List NodeId} {depth : Nat} (h : ∀ id ∈ ids, id < depth ∧ w.program.IsOperand id) :
    Visits ids w (ids.foldl (fun w id => resolveWithin depth id w) w) := by
  induction ids generalizing w with
  | nil => exact visits_refl w
  | cons id ids ih =>
    obtain ⟨⟨hdepth, hid⟩, hids⟩ := List.forall_mem_cons.1 h
    have hfirst := visits_operand hdepth hid
    exact hfirst.trans (ih fun i hi => (hids i hi).imp_right hfirst.isOperand)

/-- A node whose parts come before it in the arena and are operands. -/
def IsStatement (w : Workspace) (id : NodeId) : Prop :=
  id < w.program.size ∧ ∀ c ∈ w.program.children id, c < id ∧ w.program.IsOperand c

/-- A statement that declares nothing is visited with what it is made of. -/
theorem visits_resolveStatement {id : NodeId} (h : w.IsStatement id)
    (hdecl : ∀ name label, w.program.kind? id ≠ some (.labelDecl name label)) :
    Visits (id :: w.program.children id) w (w.resolveStatement id) := by
  obtain ⟨hid, hchild⟩ := h
  obtain ⟨k, hk⟩ : ∃ k, w.program.kind? id = some k := by
    obtain ⟨n, hn⟩ := Program.node?_of_lt hid
    exact ⟨_, Program.kind?_eq_some.2 ⟨n, hn, rfl⟩⟩
  obtain ⟨depth, hdepth⟩ := Nat.exists_eq_succ_of_ne_zero (Nat.ne_zero_of_lt hid)
  rw [Program.children_of_kind? hk] at hchild ⊢
  rw [resolveStatement, hdepth]
  have hpart : ∀ c ∈ k.children, c < depth ∧ w.program.IsOperand c := by
    intro c hc
    obtain ⟨hlt, hoperand⟩ := hchild c hc
    exact ⟨Nat.lt_of_lt_of_le hlt (Nat.le_of_lt_succ (hdepth ▸ hid)), hoperand⟩
  simp only [resolveWithin, hk]
  cases k with
  | directive name arguments body => exact (visits_arguments hpart).cons (by simp [hk])
  | labelDecl name label => exact absurd hk (hdecl name label)
  | identifier name b => exact visits_resolveIdentifier hk
  | jump condition target =>
    obtain ⟨hlt, hoperand⟩ := hpart target (by simp [Node.Kind.children])
    exact ((visits_operand hlt hoperand).trans (visits_checkTarget ..)).cons (by simp [hk])
  | compare left right =>
    obtain ⟨hlt, hoperand⟩ := hpart left (by simp [Node.Kind.children])
    obtain ⟨hlt', hoperand'⟩ := hpart right (by simp [Node.Kind.children])
    have hfirst := visits_operand hlt hoperand
    exact (hfirst.trans (visits_operand hlt' (hfirst.isOperand hoperand'))).cons (by simp [hk])
  | label | integer | string | slot => exact (visits_refl w).cons (by simp [hk])

/-- A statement may declare a name, and looks up the names among its parts. -/
theorem resolveStatement_eq (hb : w.Bound) {id : NodeId} (h : w.IsStatement id) :
    (∀ name, (w.resolveStatement id).find? name = (w.program.declared? name id).or (w.find? name)) ∧
      ∀ i, (w.resolveStatement id).program.kind? i =
        if i ∈ id :: w.program.children id then (w.program.kind? i).map (·.rebound w.find?) else w.program.kind? i := by
  by_cases hdecl : ∃ name label, w.program.kind? id = some (.labelDecl name label)
  · obtain ⟨name, label, hk⟩ := hdecl
    obtain ⟨depth, hdepth⟩ := Nat.exists_eq_succ_of_ne_zero (Nat.ne_zero_of_lt h.1)
    have hbind : w.resolveStatement id = (w.bind name label).2 := by
      simp only [resolveStatement, hdepth, resolveWithin, hk]
    rw [hbind]
    constructor
    · intro other
      rw [(hb.toRooted.bind name label).2]
      by_cases hother : other = name
      · simp [Program.declared?, hk, hother]
      · simp [Program.declared?, hk, hother, Ne.symm hother]
    -- Neither the declaration nor its label is a name.
    · intro i
      have hlabel := hb.declares id name label hk
      change w.program.kind? i = _
      rw [Program.children_of_kind? hk]
      by_cases hi : i ∈ [id, label]
      · have hi' : i = id ∨ i = label := by simpa using hi
        rcases hi' with rfl | rfl
        · simp [Node.Kind.children, hk, Node.Kind.rebound]
        · simp [Node.Kind.children, hlabel, Node.Kind.rebound]
      · simp only [Node.Kind.children, hi, if_false]
  · have hnone : ∀ name label, w.program.kind? id ≠ some (.labelDecl name label) := fun name label hk => hdecl ⟨name, label, hk⟩
    obtain ⟨hfind, hkind⟩ := visits_resolveStatement h hnone
    refine ⟨fun name => ?_, hkind⟩
    have hdeclared : w.program.declared? name id = none := by
      rw [Option.eq_none_iff_forall_ne_some]
      exact fun label hlabel => hnone name label (Program.declared?_eq_some.1 hlabel)
    rw [hfind, hdeclared, Option.none_or]

/-! ## All statements -/

/-- A workspace in which some statements were resolved. -/
structure Resolved (w : Workspace) (ids : List NodeId) (w' : Workspace) : Prop where
  bound : w'.Bound
  later : w.Later w'
  find? : ∀ name, w'.find? name = (w.program.lastDeclared? name ids).or (w.find? name)
  kind? : ∀ i, i ∉ w.program.parts ids → w'.program.kind? i = w.program.kind? i

theorem Later.isStatement {w' : Workspace} (h : w.Later w') {id : NodeId} (hid : w.IsStatement id) : w'.IsStatement id := by
  refine ⟨h.size ▸ hid.1, fun c hc => ?_⟩
  rw [h.children_eq] at hc
  exact (hid.2 c hc).imp_right h.isOperand

theorem Later.declared?_eq {w' : Workspace} (h : w.Later w') (name : String) (id : NodeId) :
    w'.program.declared? name id = w.program.declared? name id :=
  Program.declared?_congr fun _ _ => h.kind?_iff (by simp)

theorem Resolved.refl (h : w.Bound) : Resolved w [] w := ⟨h, .refl w, fun _ => rfl, fun _ _ => rfl⟩

theorem Resolved.step {w' : Workspace} {ids : List NodeId} (h : Resolved w ids w') {id : NodeId} (hid : w.IsStatement id) :
    Resolved w (ids ++ [id]) (w'.resolveStatement id) := by
  obtain ⟨hfind, hkind⟩ := resolveStatement_eq h.bound (h.later.isStatement hid)
  obtain ⟨hbound, hlater⟩ := h.bound.resolveWithin w'.program.size id
  refine ⟨hbound, h.later.trans hlater, fun name => ?_, fun i hi => ?_⟩
  · rw [hfind, h.later.declared?_eq, h.find?, Program.lastDeclared?_append, Program.lastDeclared?_cons,
      Program.lastDeclared?_nil, Option.none_or, Option.or_assoc]
  · simp only [Program.parts_append, List.mem_append, not_or, Program.parts_cons] at hi
    obtain ⟨hi, hi'⟩ := hi
    rw [hkind, h.later.children_eq, if_neg, h.kind? i hi]
    simpa [Program.parts] using hi'

theorem Resolved.foldl {w' : Workspace} {ids ids' : List NodeId} (h : Resolved w ids w')
    (hids : ∀ id ∈ ids', w.IsStatement id) : Resolved w (ids ++ ids') (ids'.foldl resolveStatement w') := by
  induction ids' generalizing ids w' with
  | nil => simpa using h
  | cons id ids' ih =>
    obtain ⟨hid, hids⟩ := List.forall_mem_cons.1 hids
    simpa using ih (h.step hid) hids

/-- A name that is part of one statement only is bound to what it stands for when that is resolved. -/
theorem kind?_resolve {pre post : List NodeId} {st id : NodeId} {name : String} (hb : w.Bound)
    (hstatements : w.program.statements = pre ++ st :: post) (hst : ∀ id ∈ w.program.statements, w.IsStatement id)
    (hid : id ∈ st :: w.program.children st) (hk : w.program.kind? id = some (.identifier name none))
    (hpre : id ∉ w.program.parts pre) (hpost : id ∉ w.program.parts post) :
    w.resolve.program.kind? id =
      some (.identifier name ((w.program.lastDeclared? name pre).or (w.find? name))) := by
  have hids : ∀ i ∈ pre ++ st :: post, w.IsStatement i := hstatements ▸ hst
  have hbefore : Resolved w pre (pre.foldl resolveStatement w) :=
    (Resolved.refl hb).foldl fun i hi => hids i (List.mem_append_left _ hi)
  set before := pre.foldl resolveStatement w
  have hat := hbefore.step (hids st (by simp))
  set after := before.resolveStatement st
  have hafter : Resolved after post (post.foldl resolveStatement after) :=
    (Resolved.refl hat.bound).foldl fun i hi => hat.later.isStatement (hids i (by simp [hi]))
  have hresolve : w.resolve.program.kind? id = (post.foldl resolveStatement after).program.kind? id := by
    simp only [resolve, hstatements, List.foldl_append, List.foldl_cons]
    rfl
  have hparts : after.program.parts post = w.program.parts post :=
    Program.parts_congr fun i _ => hat.later.children_eq i
  obtain ⟨-, hkind⟩ := resolveStatement_eq hbefore.bound (hbefore.later.isStatement (hids st (by simp)))
  rw [hresolve, hafter.kind? id (hparts ▸ hpost), hkind, hbefore.later.children_eq, if_pos hid, hbefore.kind? id hpre, hk]
  simp [Node.Kind.rebound, hbefore.find?]

/-- A name that is part of no statement stays what it was. -/
theorem kind?_resolve_of_not_mem (hb : w.Bound) (hst : ∀ id ∈ w.program.statements, w.IsStatement id) {id : NodeId}
    (hid : id ∉ w.program.parts w.program.statements) : w.resolve.program.kind? id = w.program.kind? id :=
  ((Resolved.refl hb).foldl hst).kind? id hid

end Workspace

/-! ## What a bound name stands for -/

theorem Program.deepValueOf_of_valueOf {p : Program} {id : NodeId} (h : p.valueOf id = id) : p.deepValueOf id = some id := by
  simp [deepValueOf, valueWithin, h]

/-- A bound name stands for its label, and the label for itself. -/
theorem Workspace.Bound.deepValueOf_eq {w : Workspace} (h : w.Bound) {id t : NodeId} {name : String}
    (hk : w.program.kind? id = some (.identifier name (some t))) :
    w.program.valueOf id = t ∧ w.program.deepValueOf id = some t := by
  have hlabel : w.program.kind? t = some (.label name) := h.name_label id name t hk
  have hid : w.program.valueOf id = t := by simp [Program.valueOf, hk]
  have ht : w.program.valueOf t = t := by simp [Program.valueOf, hlabel]
  have hne : t ≠ id := by
    rintro rfl
    cases hk.symm.trans hlabel
  obtain ⟨size, hsize⟩ := Nat.exists_eq_succ_of_ne_zero (Nat.ne_zero_of_lt (Program.lt_of_kind? hk))
  refine ⟨hid, ?_⟩
  rw [Program.deepValueOf, hsize]
  simp [Program.valueWithin, hid, hne, ht]

/-! ## Programs -/

namespace Workspace

/-- A program that was read to its end: a name stands for the label declared last, and hoisted statements come first. -/
structure IsRead (w : Workspace) : Prop where
  sound : Stage.Sound ⟨w, [], w.program.statements⟩
  latest : ∀ name, w.find? name = w.program.lastDeclared? name w.program.statements
  hoisted_first : w.program.statements =
    w.program.statements.filter (w.program.isHoisted ·) ++ w.program.statements.filter (!w.program.isHoisted ·)

theorem latest_parse (file : String) (tokens : List Token) (log : Log) (name : String) :
    (parse file tokens { log }).find? name =
      (parse file tokens { log }).program.lastDeclared? name (Draft.inOrder tokens {}) := by
  obtain ⟨log', hread⟩ := exists_parse_eq log file tokens
  have hlatest := (Stage.latest_fresh #[]).steps (Stage.sound_fresh #[]) (Draft.steps_read tokens {} []) name
  rw [List.append_nil] at hlatest
  change _ = (Draft.read tokens {}).program.lastDeclared? name (Draft.inOrder tokens {}).reverse.reverse at hlatest
  rw [List.reverse_reverse] at hlatest
  rw [hread]
  exact hlatest

theorem isRead_parse (file : String) (tokens : List Token) (log : Log) : (parse file tokens { log }).IsRead := by
  have hstatements := statements_parse file tokens log
  refine ⟨sound_parse file tokens log, fun name => ?_, ?_⟩
  · rw [latest_parse, hstatements, Program.lastDeclared?_append, Program.lastDeclared?_filter_not_isHoisted,
      Program.lastDeclared?_filter_isHoisted, Option.none_or]
  · rw [hstatements]
    simp

namespace IsRead

variable {w : Workspace} (h : w.IsRead)
include h

theorem bound : w.Bound := bound_of_sound h.sound

theorem isStatement : ∀ id ∈ w.program.statements, w.IsStatement id :=
  fun id hid => ⟨h.sound.formed.statement id hid, fun _ hc => h.sound.formed.child hc⟩

/-- No name is bound before names are resolved. -/
theorem unbound {id : NodeId} {name : String} {b : Option NodeId}
    (hk : w.program.kind? id = some (.identifier name b)) : w.program.kind? id = some (.identifier name none) := by
  obtain ⟨n, hn, hnk⟩ := Program.kind?_eq_some.1 hk
  have hunbound := (h.sound.formed.node id n hn).unbound
  rw [hnk] at hunbound
  cases hunbound
  exact hk

/-- A name that is part of a statement is part of no other, and is looked up where this statement stands. -/
theorem kind?_resolve {pre post : List NodeId} {st id : NodeId} {name : String}
    (hstatements : w.program.statements = pre ++ st :: post) (hid : id ∈ st :: w.program.children st)
    (hk : w.program.kind? id = some (.identifier name none)) :
    w.resolve.program.kind? id = some (.identifier name
      ((w.program.lastDeclared? name pre).or (w.program.lastDeclared? name w.program.statements))) := by
  have hlabel : ¬ w.program.IsLabel id := by
    rintro ⟨_, hl⟩
    rw [hk] at hl
    cases hl
  have honce := h.sound.formed.once id hlabel
  have hcount := List.count_pos_iff.2 hid
  have hparts : w.program.parts (pre ++ st :: post) =
      w.program.parts pre ++ ((st :: w.program.children st) ++ w.program.parts post) :=
    Program.parts_append ..
  rw [hstatements, hparts, List.count_append, List.count_append] at honce
  rw [← h.latest]
  refine Workspace.kind?_resolve h.bound hstatements h.isStatement hid hk ?_ ?_
  · exact List.count_eq_zero.1 (by omega)
  · exact List.count_eq_zero.1 (by omega)

section Lines
variable {lines pre post : List NodeId} {st id : NodeId} {name : String}
  (horder : w.program.statements = lines.filter (w.program.isHoisted ·) ++ lines.filter (!w.program.isHoisted ·))
include horder

omit h in
/-- The order of the statements makes no difference to what is declared last. -/
theorem lastDeclared?_statements (name : String) :
    w.program.lastDeclared? name w.program.statements = w.program.lastDeclared? name lines := by
  rw [horder, Program.lastDeclared?_append, Program.lastDeclared?_filter_not_isHoisted,
    Program.lastDeclared?_filter_isHoisted, Option.none_or]

/-- A name in a hoisted line is bound to the last label of that name before the line, or else to the last one of all. -/
theorem kind?_of_isHoisted (hlines : lines = pre ++ st :: post) (hst : w.program.isHoisted st = true)
    (hid : id ∈ st :: w.program.children st) (hk : w.program.kind? id = some (.identifier name none)) :
    w.resolve.program.kind? id = some (.identifier name
      ((w.program.lastDeclared? name pre).or (w.program.lastDeclared? name lines))) := by
  have hsplit : lines.filter (w.program.isHoisted ·) =
      pre.filter (w.program.isHoisted ·) ++ st :: post.filter (w.program.isHoisted ·) := by
    rw [hlines, List.filter_append, List.filter_cons_of_pos hst]
  have hstatements := horder
  rw [hsplit, List.append_assoc, List.cons_append] at hstatements
  rw [h.kind?_resolve hstatements hid hk, lastDeclared?_statements horder, Program.lastDeclared?_filter_isHoisted]

/-- A name in any other line is bound to the last label of that name. -/
theorem kind?_of_not_isHoisted (hlines : lines = pre ++ st :: post) (hst : w.program.isHoisted st = false)
    (hid : id ∈ st :: w.program.children st) (hk : w.program.kind? id = some (.identifier name none)) :
    w.resolve.program.kind? id = some (.identifier name (w.program.lastDeclared? name lines)) := by
  have hsplit : lines.filter (!w.program.isHoisted ·) =
      pre.filter (!w.program.isHoisted ·) ++ st :: post.filter (!w.program.isHoisted ·) := by
    rw [hlines, List.filter_append, List.filter_cons_of_pos (by simp [hst])]
  have hstatements := horder
  rw [hsplit, ← List.append_assoc] at hstatements
  rw [h.kind?_resolve hstatements hid hk, lastDeclared?_statements horder, Program.lastDeclared?_append,
    Program.lastDeclared?_filter_not_isHoisted, Program.lastDeclared?_filter_isHoisted, Option.none_or, Option.or_self]

end Lines

end IsRead

end Workspace

/-! ## Sources -/

namespace Source

variable (s : Source)

/-- The statements of a source in the order in which they stand. -/
def lines : List NodeId := Draft.inOrder s.tokens {}

theorem isRead_parse : s.parse.IsRead := by
  obtain ⟨log, hparse⟩ := s.exists_parse_eq
  rw [hparse]
  exact Workspace.isRead_parse ..

theorem latest_parse (name : String) : s.parse.find? name = s.parse.program.lastDeclared? name s.lines := by
  obtain ⟨log, hparse⟩ := s.exists_parse_eq
  rw [hparse]
  exact Workspace.latest_parse ..

theorem isStatement_parse : ∀ id ∈ s.parse.program.statements, s.parse.IsStatement id := s.isRead_parse.isStatement

variable {s} {pre post : List NodeId} {st id : NodeId} {name : String}

/-- A name in a directive is bound to the last label of that name before it, or else to the last one of all. -/
theorem binding_of_argument (hlines : s.lines = pre ++ st :: post) {directive body : String} {arguments : List NodeId}
    (hst : s.parse.program.kind? st = some (.directive directive arguments body)) (hid : id ∈ arguments)
    (hk : s.parse.program.kind? id = some (.identifier name none)) :
    s.analyze.program.kind? id = some (.identifier name
      ((s.parse.program.lastDeclared? name pre).or (s.parse.program.lastDeclared? name s.lines))) := by
  have hhoisted : s.parse.program.isHoisted st = true := by simp [Program.isHoisted, hst, Node.Kind.isHoisted]
  have hpart : id ∈ st :: s.parse.program.children st := by
    rw [Program.children_of_kind? hst]
    exact List.mem_cons_of_mem st hid
  exact s.isRead_parse.kind?_of_isHoisted s.statements_parse hlines hhoisted hpart hk

/-- A name in a statement that is not hoisted is bound to the last label of that name. -/
theorem binding_of_other (hlines : s.lines = pre ++ st :: post) (hst : s.parse.program.isHoisted st = false)
    (hid : id ∈ st :: s.parse.program.children st) (hk : s.parse.program.kind? id = some (.identifier name none)) :
    s.analyze.program.kind? id = some (.identifier name (s.parse.program.lastDeclared? name s.lines)) :=
  s.isRead_parse.kind?_of_not_isHoisted s.statements_parse hlines hst hid hk

theorem perm_lines : s.lines.Perm s.parse.program.statements := by
  rw [statements_parse]
  exact (List.filter_append_perm ..).symm

/-- A name that is bound is part of a line, and was not bound before it was looked up there. -/
theorem exists_line_of_bound {t : NodeId} (h : s.analyze.program.kind? id = some (.identifier name (some t))) :
    s.parse.program.kind? id = some (.identifier name none) ∧
      ∃ pre st post, s.lines = pre ++ st :: post ∧ id ∈ st :: s.parse.program.children st := by
  obtain ⟨b, hb⟩ := s.bound_parse.resolve.2.name_iff.1 ⟨_, h⟩
  have hunbound := s.isRead_parse.unbound hb
  refine ⟨hunbound, ?_⟩
  have hpart : id ∈ s.parse.program.parts s.parse.program.statements := by
    refine Decidable.byContradiction fun hid => ?_
    have hsame := Workspace.kind?_resolve_of_not_mem s.bound_parse s.isStatement_parse hid
    rw [hunbound] at hsame
    cases hsame.symm.trans h
  obtain ⟨st, hst, hid⟩ := Program.mem_parts.1 hpart
  obtain ⟨pre, post, hlines⟩ := List.append_of_mem (s.perm_lines.mem_iff.2 hst)
  exact ⟨pre, st, post, hlines, List.mem_cons.2 hid⟩

/-- Of what is hoisted only directives have names among their parts. -/
theorem exists_directive_of_isHoisted (hst : s.parse.program.isHoisted st = true)
    (hid : id ∈ st :: s.parse.program.children st) (hk : s.parse.program.kind? id = some (.identifier name none)) :
    ∃ directive arguments body, s.parse.program.kind? st = some (.directive directive arguments body) ∧ id ∈ arguments := by
  obtain ⟨k, hkind, hhoisted⟩ : ∃ k, s.parse.program.kind? st = some k ∧ k.isHoisted := by
    simpa [Program.isHoisted, Option.any_eq_true] using hst
  rw [Program.children_of_kind? hkind] at hid
  rcases List.mem_cons.1 hid with rfl | hid
  · rw [hk] at hkind
    cases hkind
    cases hhoisted
  · cases k with
    | directive directive arguments body => exact ⟨directive, arguments, body, hkind, hid⟩
    | labelDecl other label =>
      obtain rfl : id = label := by simpa [Node.Kind.children] using hid
      have hlabel := s.bound_parse.declares st other id hkind
      rw [hk] at hlabel
      cases hlabel
    | label | identifier | integer | string | slot | jump | compare => cases hhoisted

/-- A name among the arguments of a directive that is declared both before and after the directive. -/
def IsBetween (s : Source) (name : String) (id : NodeId) : Prop :=
  ∃ pre st post directive arguments body, s.lines = pre ++ st :: post ∧
    s.parse.program.kind? st = some (.directive directive arguments body) ∧ id ∈ arguments ∧
    (s.parse.program.lastDeclared? name pre).isSome ∧ (s.parse.program.lastDeclared? name post).isSome

/-- No label is declared both before and after a line. -/
theorem label_ne_of_split {l l' : NodeId} (hlines : s.lines = pre ++ st :: post)
    (hl : s.parse.program.lastDeclared? name pre = some l) (hl' : s.parse.program.lastDeclared? name post = some l') :
    l ≠ l' := by
  rintro rfl
  obtain ⟨d, hd, hk⟩ := Program.exists_of_lastDeclared? hl
  obtain ⟨d', hd', hk'⟩ := Program.exists_of_lastDeclared? hl'
  have hdeclares {d : NodeId} (hk : s.parse.program.kind? d = some (.labelDecl name l)) : l + 1 = d := by
    obtain ⟨n, hn, hnk⟩ := Program.kind?_eq_some.1 hk
    exact ((s.sound_parse.formed.node d n hn).declares name l hnk).1
  obtain rfl := (hdeclares hk).symm.trans (hdeclares hk')
  -- The declaration would be a line twice, but is a part of the program once.
  have hlabel : ¬ s.parse.program.IsLabel d := by
    rintro ⟨_, hlabel⟩
    cases hk.symm.trans hlabel
  have honce : (s.parse.program.parts s.parse.program.statements).count d + 0 ≤ 1 := s.sound_parse.formed.once d hlabel
  have hle := (Program.sublist_parts s.parse.program s.parse.program.statements).count_le d
  rw [← s.perm_lines.count_eq, hlines, List.count_append, List.count_cons] at hle
  have hpos := List.count_pos_iff.2 hd
  have hpos' := List.count_pos_iff.2 hd'
  omega

/-- A name that is bound is bound to the last label of that name, unless it is in a directive between two declarations. -/
theorem bound_to_last_iff {t : NodeId} (h : s.analyze.program.kind? id = some (.identifier name (some t))) :
    s.parse.program.lastDeclared? name s.lines = some t ↔ ¬ s.IsBetween name id := by
  obtain ⟨hk, pre, st, post, hlines, hid⟩ := exists_line_of_bound h
  constructor
  · rintro hlast ⟨pre, st, post, directive, arguments, body, hlines, hst, hid, hpre, hpost⟩
    obtain ⟨l, hl⟩ := Option.isSome_iff_exists.1 hpre
    obtain ⟨l', hl'⟩ := Option.isSome_iff_exists.1 hpost
    have hbinding := binding_of_argument hlines hst hid hk
    rw [hl, h] at hbinding
    rw [hlines, Program.lastDeclared?_append, Program.lastDeclared?_cons, hl'] at hlast
    exact label_ne_of_split hlines hl hl' (by simp_all)
  · intro hbetween
    cases hhoisted : s.parse.program.isHoisted st with
    | false =>
      have hbinding := binding_of_other hlines hhoisted hid hk
      rw [h] at hbinding
      simpa using hbinding.symm
    | true =>
      obtain ⟨directive, arguments, body, hst, harg⟩ := s.exists_directive_of_isHoisted hhoisted hid hk
      have hbinding := binding_of_argument hlines hst harg hk
      rw [h] at hbinding
      cases hpre : s.parse.program.lastDeclared? name pre with
      | none =>
        rw [hpre] at hbinding
        simpa using hbinding.symm
      | some l =>
        have hpost : s.parse.program.lastDeclared? name post = none := by
          rw [← Option.not_isSome_iff_eq_none]
          intro hpost
          exact hbetween ⟨pre, st, post, directive, arguments, body, hlines, hst, harg, by simp [hpre], hpost⟩
        rw [hpre] at hbinding
        have hst' : s.parse.program.declared? name st = none := by simp [Program.declared?, hst]
        rw [hlines, Program.lastDeclared?_append, Program.lastDeclared?_cons, hpost, hst', hpre]
        simpa using hbinding.symm

/-- A name in a directive between two declarations is bound to the first of them. -/
theorem not_all_bound_to_last :
    let s := ofChars "a" "a:\n.d a\na:\njmp a\n".toList
    ¬ ∀ id name t, s.analyze.program.kind? id = some (.identifier name (some t)) →
      s.parse.program.lastDeclared? name s.lines = some t := by
  intro s h
  have hbound : s.analyze.program.kind? 2 = some (.identifier "a" (some 0)) := by decide +kernel
  have hlast : s.parse.find? "a" = some 4 := by decide +kernel
  rw [latest_parse, h 2 "a" 0 hbound] at hlast
  cases hlast

/-- A name in a jump is bound to the last label even if a directive stands between. -/
theorem bound_to_last_iff_of_jump :
    let s := ofChars "a" "a:\n.d a\na:\njmp a\n".toList
    s.analyze.program.kind? 6 = some (.identifier "a" (some 4)) ∧ ¬ s.IsBetween "a" 6 := by
  intro s
  have hbound : s.analyze.program.kind? 6 = some (.identifier "a" (some 4)) := by decide +kernel
  have hlast : s.parse.find? "a" = some 4 := by decide +kernel
  rw [latest_parse] at hlast
  exact ⟨hbound, (bound_to_last_iff hbound).1 hlast⟩

/-! ## The rule -/

theorem declared?_analyze (name : String) (id : NodeId) :
    s.analyze.program.declared? name id = s.parse.program.declared? name id :=
  s.bound_parse.resolve.2.declared?_eq name id

theorem lastDeclared?_analyze (name : String) (ids : List NodeId) :
    s.analyze.program.lastDeclared? name ids = s.parse.program.lastDeclared? name ids :=
  Program.lastDeclared?_congr fun id _ => s.declared?_analyze name id

/-- A name in a line is bound just if its label is declared by some line: if the line is a directive, to the nearest
label of that name before it, and in any other line, or if there is none before it, to the last label of that name
of all. What it is bound to is what it stands for. -/
theorem binding_rule (s : Source) :
    let p := s.analyze.program
    (∀ pre st post id name b, s.lines = pre ++ st :: post → id ∈ st :: p.children st →
      p.kind? id = some (.identifier name b) →
        (b.isSome ↔ ∃ d ∈ s.lines, ∃ label, p.kind? d = some (.labelDecl name label)) ∧
        ((∃ directive arguments body, p.kind? st = some (.directive directive arguments body)) →
          b = (p.lastDeclared? name pre).or (p.lastDeclared? name s.lines)) ∧
        ((∀ directive arguments body, p.kind? st ≠ some (.directive directive arguments body)) →
          b = p.lastDeclared? name s.lines)) ∧
    ∀ id name t, p.kind? id = some (.identifier name (some t)) →
      p.kind? t = some (.label name) ∧ p.valueOf id = t ∧ p.deepValueOf id = some t := by
  intro p
  obtain ⟨hbound, hlater⟩ := s.bound_parse.resolve
  refine ⟨fun pre st post id name b hlines hid hk => ?_, fun id name t hk => ?_⟩
  · have hunbound : s.parse.program.kind? id = some (.identifier name none) := by
      obtain ⟨b', hb'⟩ := hlater.name_iff.1 ⟨b, hk⟩
      exact s.isRead_parse.unbound hb'
    have hpart : id ∈ st :: s.parse.program.children st := by rwa [← hlater.children_eq]
    have hlast (ids : List NodeId) : p.lastDeclared? name ids = s.parse.program.lastDeclared? name ids :=
      s.lastDeclared?_analyze name ids
    rw [← Program.isSome_lastDeclared?_iff, hlast, hlast]
    cases hhoisted : s.parse.program.isHoisted st with
    | true =>
      obtain ⟨directive, arguments, body, hst, harg⟩ := s.exists_directive_of_isHoisted hhoisted hpart hunbound
      have hbinding := binding_of_argument hlines hst harg hunbound
      obtain rfl : b = _ := by simpa using hk.symm.trans hbinding
      refine ⟨?_, fun _ => rfl, fun hother => absurd ((hlater.kind?_iff (by simp)).2 hst) (hother directive arguments body)⟩
      -- Whatever is declared before the line is declared by some line.
      rw [hlines, Program.lastDeclared?_append]
      cases s.parse.program.lastDeclared? name pre <;> simp
    | false =>
      have hbinding := binding_of_other hlines hhoisted hpart hunbound
      obtain rfl : b = _ := by simpa using hk.symm.trans hbinding
      refine ⟨Iff.rfl, ?_, fun _ => rfl⟩
      rintro ⟨directive, arguments, body, hst⟩
      have hst' := (hlater.kind?_iff (by simp)).1 hst
      simp [Program.isHoisted, hst', Node.Kind.isHoisted] at hhoisted
  · exact ⟨hbound.name_label id name t hk, hbound.deepValueOf_eq hk⟩

/-- The directive names the label before it, the jump the one after the directive. -/
theorem binding_rule_of_redeclared :
    let s := ofChars "a" "a:\n.d a\na:\njmp a\n".toList
    let p := s.analyze.program
    (p.lastDeclared? "a" [1] = some 0 ∧ p.kind? 2 = some (.identifier "a" (some 0)) ∧ p.deepValueOf 2 = some 0) ∧
      p.lastDeclared? "a" s.lines = some 4 ∧ p.kind? 6 = some (.identifier "a" (some 4)) ∧ p.deepValueOf 6 = some 4 := by
  intro s p
  have hlines : s.lines = [1, 3, 5, 7] := by decide +kernel
  have hbound : p.kind? 2 = some (.identifier "a" (some 0)) := by decide +kernel
  have hbound' : p.kind? 6 = some (.identifier "a" (some 4)) := by decide +kernel
  have hunbound : s.parse.program.kind? 2 = some (.identifier "a" none) := by decide +kernel
  have hhoisted : s.parse.program.isHoisted 3 = true := by decide +kernel
  have hpart : 2 ∈ 3 :: s.parse.program.children 3 := by decide +kernel
  obtain ⟨directive, arguments, body, hst, -⟩ := s.exists_directive_of_isHoisted hhoisted hpart hunbound
  have hst' := (s.bound_parse.resolve.2.kind?_iff (by simp)).2 hst
  have hjump : p.kind? 7 = some (.jump .always 6) := by decide +kernel
  have hnone : p.lastDeclared? "a" [1] ≠ none := by decide +kernel
  obtain ⟨hrule, hvalue⟩ := s.binding_rule
  obtain ⟨-, hnear, -⟩ := hrule [1] 3 [5, 7] 2 "a" (some 0) hlines (by decide +kernel) hbound
  obtain ⟨-, -, hlast⟩ := hrule [1, 3, 5] 7 [] 6 "a" (some 4) hlines (by decide +kernel) hbound'
  obtain ⟨-, -, hdeep⟩ := hvalue 2 "a" 0 hbound
  obtain ⟨-, -, hdeep'⟩ := hvalue 6 "a" 4 hbound'
  refine ⟨⟨?_, hbound, hdeep⟩, (hlast fun _ _ _ hst => ?_).symm, hbound', hdeep'⟩
  · obtain ⟨label, hlabel⟩ := Option.ne_none_iff_exists'.1 hnone
    have hnear' := hnear ⟨directive, arguments, body, hst'⟩
    rw [hlabel] at hnear'
    rw [hlabel, hnear']
    rfl
  · cases hjump.symm.trans hst

end Source

end Assembler
