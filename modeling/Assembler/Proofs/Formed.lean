import Assembler.Proofs.Prior
import Assembler.Proofs.Stages
/-!
# Programs that were read

What every program that was read has. An operand is a node before the statement that takes it, every
node but a label is taken once, names stand for labels and labels are declared by statements, and
there is one scope, the root. `Stage.Sound` says this of a program half read, and `Workspace.sound_parse`
of one read to its end.
-/

namespace Assembler

/-! ## The root scope -/

namespace Workspace

/-- There is no scope but the root. -/
structure Rooted (w : Workspace) : Prop where
  scope : w.session.scope = SymbolTable.root
  only : ∃ s, w.shared.symbols.scopes = #[s]

theorem Rooted.find? {w : Workspace} (h : w.Rooted) {s : Scope} (hs : w.shared.symbols.scopes = #[s])
    (name : String) : w.find? name = s.find? name := by
  simp only [Workspace.find?, Session.find?, SymbolTable.find?, h.scope, hs, SymbolTable.root]
  simp only [List.size_toArray, List.length_singleton, SymbolTable.findWithin, hs]
  simp only [List.getElem?_toArray, List.getElem?_cons_zero]
  cases s.find? name <;> cases s.parent <;> rfl

/-- A session opened inside sees what the root scope binds. -/
theorem Rooted.findInside? {w : Workspace} (h : w.Rooted) (name : String) :
    w.findInside? name = w.find? name := by
  obtain ⟨s, hs⟩ := h.only
  rw [h.find? hs]
  simp only [Workspace.findInside?, Session.child, SymbolTable.openScope, Session.find?, SymbolTable.find?,
    h.scope, hs, SymbolTable.root]
  simp [SymbolTable.findWithin, Scope.find?]
  cases List.lookup name s.bindings <;> cases s.parent <;> rfl

/-- A session opened inside leaves its diagnostics and nothing else. -/
theorem Rooted.inside {w : Workspace} (h : w.Rooted) (ds : List Diagnostic) :
    w.inside ds = { w with session := { w.session with diagnostics := w.session.diagnostics ++ ds } } := by
  obtain ⟨s, hs⟩ := h.only
  simp [Workspace.inside, Session.child, Session.absorb, SymbolTable.openScope, SymbolTable.closeScope, hs,
    SymbolTable.root]
  rw [← hs]

theorem Rooted.bind {w : Workspace} (h : w.Rooted) (name : String) (node : NodeId) :
    (w.bind name node).2.Rooted ∧
      ∀ other, (w.bind name node).2.find? other = if other = name then some node else w.find? other := by
  obtain ⟨s, hs⟩ := h.only
  have hb : (w.bind name node).2.shared.symbols.scopes = #[s.bind name node] := by
    simp [Workspace.bind, Session.bind, SymbolTable.bind, h.scope, hs, SymbolTable.root, Array.modify, Array.modifyM]
  have hr : (w.bind name node).2.Rooted := ⟨h.scope, _, hb⟩
  refine ⟨hr, fun other => ?_⟩
  rw [hr.find? hb, h.find? hs]
  simp only [Scope.find?, Scope.bind, List.lookup_cons]
  by_cases ho : other = name
  · simp [ho]
  · simp [ho, beq_false_of_ne ho]

end Workspace

/-! ## Nodes -/

/-- A node made well at its place in the arena: it has no place in the store and stands for nothing yet. -/
structure Node.Formed (p : Program) (id : NodeId) (n : Node) : Prop where
  place : n.place = none
  unbound : n.kind.unbound = n.kind
  children : ∀ c ∈ n.kind.children, c < id ∧ p.IsOperand c
  declares : ∀ name label, n.kind = .labelDecl name label → label + 1 = id ∧ p.kind? label = some (.label name)
  written : ∀ store index, n.kind = .slot store index → store = .register ∨ store = .localSlot

theorem Node.Formed.extends {p q : Program} {id : NodeId} {n : Node} (h : n.Formed p id) (hq : p.Extends q) :
    n.Formed q id where
  place := h.place
  unbound := h.unbound
  children c hc := ⟨(h.children c hc).1, hq.isOperand (h.children c hc).2⟩
  declares name label hk := ⟨(h.declares name label hk).1, hq.kind? (h.declares name label hk).2⟩
  written := h.written

theorem Node.formed_of_isLeaf {kind : Node.Kind} (h : kind.IsLeaf) (p : Program) (id : NodeId)
    (location : Location) : Node.Formed p id { kind, location } := by
  cases h <;> constructor <;> simp [Node.Kind.unbound, Node.Kind.children]

/-- The nodes are made well, and every one but a label is a statement, an operand or taken, once. -/
structure Program.Formed (p : Program) (ds : List Diagnostic) (os ss : List NodeId) : Prop where
  node : ∀ id n, p.node? id = some n → n.Formed p id
  fits : ∀ id k, p.kind? id = some k → k.Fits ds
  operand : ∀ id ∈ os, p.IsOperand id
  statement : ∀ id ∈ ss, id < p.size
  once : ∀ id, ¬ p.IsLabel id → (p.parts ss).count id + os.count id ≤ 1

theorem Node.Kind.Fits.mono {k : Node.Kind} {ds ds' : List Diagnostic} (h : k.Fits ds) (hds : ds ≠ [] → ds' ≠ []) :
    k.Fits ds' := by
  cases k with
  | directive => exact h.imp_right hds
  | _ => trivial

namespace Program.Formed

variable {p : Program} {ds : List Diagnostic} {os ss : List NodeId}

theorem child (h : p.Formed ds os ss) {id c : NodeId} (hc : c ∈ p.children id) : c < id ∧ p.IsOperand c := by
  obtain ⟨k, hk, hc⟩ := mem_children.1 hc
  obtain ⟨n, hn, rfl⟩ := kind?_eq_some.1 hk
  exact (h.node id n hn).children c hc

theorem part_lt (h : p.Formed ds os ss) {c : NodeId} (hc : c ∈ p.parts ss) : c < p.size := by
  obtain ⟨id, hid, rfl | hc⟩ := mem_parts.1 hc
  · exact h.statement c hid
  · exact (h.child hc).2.lt

theorem parts_push (h : p.Formed ds os ss) (kind : Node.Kind) (location : Location) :
    (p.push kind location).2.parts ss = p.parts ss :=
  (extends_push ..).parts_eq h.statement

theorem more_diagnostics (h : p.Formed ds os ss) {ds' : List Diagnostic} (hds : ds ≠ [] → ds' ≠ []) :
    p.Formed ds' os ss :=
  { h with fits := fun id k hk => (h.fits id k hk).mono hds }

/-- A new node, taken from operands that were not taken before. -/
theorem push (h : p.Formed ds os ss) {kind : Node.Kind} {location : Location} {os' ss' : List NodeId}
    (hnode : Node.Formed p p.size { kind, location }) (hfits : kind.Fits ds)
    (hos : ∀ id ∈ os', id ∈ os ∨ id = p.size ∧ kind.isExpression)
    (hss : ∀ id ∈ ss', id ∈ ss ∨ id = p.size)
    (hcount : ∀ id, ¬ p.IsLabel id → ((p.push kind location).2.parts ss').count id + os'.count id ≤
      (p.parts ss).count id + os.count id + if p.size = id then 1 else 0) :
    (p.push kind location).2.Formed ds os' ss' where
  node id n hn := by
    rw [node?_push] at hn
    split at hn
    · subst_vars
      cases hn
      exact hnode.extends (extends_push ..)
    · exact (h.node id n hn).extends (extends_push ..)
  fits id k hk := by
    rw [kind?_push] at hk
    split at hk
    · cases hk; exact hfits
    · exact h.fits id k hk
  operand id hid := by
    rcases hos id hid with hid | ⟨rfl, he⟩
    · exact (extends_push ..).isOperand (h.operand id hid)
    · exact ⟨kind, by simp [kind?_push], he⟩
  statement id hid := by
    rw [size_push]
    rcases hss id hid with hid | rfl
    · exact Nat.lt_succ_of_lt (h.statement id hid)
    · exact Nat.lt_succ_self _
  once id hid := by
    have hold : ¬ p.IsLabel id := fun hl => hid ((extends_push ..).isLabel hl)
    have hc := hcount id hold
    by_cases hlt : id < p.size
    · have := h.once id hold
      rw [if_neg (Nat.ne_of_gt hlt)] at hc
      omega
    · -- A node past the end was neither taken nor named before.
      have h1 : (p.parts ss).count id = 0 := List.count_eq_zero.2 fun hm => hlt (h.part_lt hm)
      have h2 : os.count id = 0 := List.count_eq_zero.2 fun hm => hlt (h.operand id hm).lt
      split at hc <;> omega

/-- A new operand that is made of nothing. -/
theorem leaf (h : p.Formed ds os ss) {kind : Node.Kind} (hl : kind.IsLeaf) (location : Location) :
    (p.push kind location).2.Formed ds (p.size :: os) ss := by
  refine h.push (Node.formed_of_isLeaf hl ..) ?_ ?_ (fun id hid => .inl hid) fun id _ => ?_
  · cases hl <;> trivial
  · intro id hid
    rcases List.mem_cons.1 hid with rfl | hid
    · exact .inr ⟨rfl, by cases hl <;> rfl⟩
    · exact .inl hid
  · simp only [h.parts_push, List.count_cons, beq_iff_eq]
    omega

/-- A label that was declared before is an operand, once more. -/
theorem named (h : p.Formed ds os ss) {node : NodeId} (hl : p.IsLabel node) : p.Formed ds (node :: os) ss := by
  refine { h with operand := List.forall_mem_cons.2 ⟨hl.isOperand, h.operand⟩, once := fun id hid => ?_ }
  have hne : node ≠ id := fun he => hid (he ▸ hl)
  simpa [List.count_cons, hne] using h.once id hid

/-- An operand is lost. -/
theorem drop {o : NodeId} (h : p.Formed ds (o :: os) ss) : p.Formed ds os ss := by
  refine { h with operand := fun id hid => h.operand id (List.mem_cons_of_mem _ hid), once := fun id hid => ?_ }
  have := h.once id hid
  simp only [List.count_cons] at this
  omega

/-- An operand is a statement by itself. -/
theorem bare {o : NodeId} (h : p.Formed ds (o :: os) ss) : p.Formed ds os (o :: ss) := by
  have ho := h.operand o List.mem_cons_self
  refine
    { h with
      operand := fun id hid => h.operand id (List.mem_cons_of_mem _ hid)
      statement := List.forall_mem_cons.2 ⟨ho.lt, h.statement⟩
      once := fun id hid => ?_ }
  have hc := h.once id hid
  simp only [Program.parts_cons, ho.children, List.count_cons, List.nil_append] at hc ⊢
  omega

/-- A new statement takes the operands that it is made of. -/
theorem take {kind : Node.Kind} (h : p.Formed ds (kind.children.reverse ++ os) ss) (ht : kind.takesOperands)
    (hfits : kind.Fits ds) (location : Location) : (p.push kind location).2.Formed ds os (p.size :: ss) := by
  have hchild : ∀ c ∈ kind.children, p.IsOperand c := fun c hc =>
    h.operand c (List.mem_append_left _ (List.mem_reverse.2 hc))
  refine h.push ⟨rfl, ?_, fun c hc => ⟨(hchild c hc).lt, hchild c hc⟩, ?_, ?_⟩ hfits ?_ ?_ ?_
  · cases kind <;> first | rfl | cases ht
  · rintro name label rfl; cases ht
  · rintro store index rfl; cases ht
  · exact fun id hid => .inl (List.mem_append_right _ hid)
  · intro id hid
    rcases List.mem_cons.1 hid with rfl | hid
    · exact .inr rfl
    · exact .inl hid
  · intro id _
    simp only [Program.parts_cons, Program.children_push, h.parts_push, List.count_cons, List.count_append,
      List.count_reverse, beq_iff_eq]
    omega

/-- A new label is declared by the statement after it; it is not taken twice, as labels are not counted. -/
theorem declare {w : Workspace} (h : w.program.Formed ds os ss) (name : String) (location : Location) :
    (w.declare name location).2.program.Formed ds os ((w.declare name location).1 :: ss) := by
  have hlabel : ((w.program.push (.label name) location).2).kind? w.program.size = some (.label name) := by
    rw [kind?_push, if_pos rfl]
  have h₁ : (w.program.push (.label name) location).2.Formed ds os ss := by
    refine h.push ?_ trivial (fun id hid => .inl hid) (fun id hid => .inl hid) fun id _ => ?_
    · constructor <;> simp [Node.Kind.unbound, Node.Kind.children]
    · rw [h.parts_push]
      exact Nat.le_add_right ..
  have hdecl : (w.declare name location).1 = (w.program.push (.label name) location).2.size := rfl
  change ((w.program.push (.label name) location).2.push (.labelDecl name w.program.size) location).2.Formed ds os _
  refine h₁.push ?_ trivial (fun id hid => .inl hid) ?_ ?_
  · refine ⟨rfl, rfl, fun c hc => ?_, ?_, by simp⟩
    · obtain rfl := List.mem_singleton.1 hc
      exact ⟨Program.lt_of_kind? hlabel, _, hlabel, rfl⟩
    · rintro _ _ ⟨⟩
      exact ⟨(size_push ..).symm, hlabel⟩
  · intro id hid
    rcases List.mem_cons.1 hid with rfl | hid
    · exact .inr rfl
    · exact .inl hid
  · intro id hid
    have hne : w.program.size ≠ id := fun he => hid ⟨name, he ▸ hlabel⟩
    simp only [hdecl, parts_cons, h₁.parts_push, children_push, Node.Kind.children, List.count_cons, List.count_append,
      List.count_nil, beq_iff_eq, if_neg hne]
    omega

end Program.Formed

/-! ## Names -/

/-- Names stand for labels, and each label is followed by its declaration, which is a statement. -/
structure Workspace.Named (w : Workspace) (ss : List NodeId) : Prop extends w.Rooted where
  bound : ∀ name id, w.find? name = some id → w.program.kind? id = some (.label name)
  declared : ∀ name id, w.program.kind? id = some (.label name) →
    w.program.kind? (id + 1) = some (.labelDecl name id) ∧ id + 1 ∈ ss

theorem Workspace.Named.push {w : Workspace} {ss ss' : List NodeId} (h : w.Named ss) {kind : Node.Kind}
    (location : Location) (hkind : ∀ name, kind ≠ .label name) (hss : ss ⊆ ss') :
    (w.push kind location).2.Named ss' where
  toRooted := ⟨h.scope, h.only⟩
  bound name id hid := (Program.extends_push ..).kind? (h.bound name id hid)
  declared name id hid := by
    change (w.program.push kind location).2.kind? id = _ at hid
    rw [Program.kind?_push] at hid
    split at hid
    · exact absurd (Option.some.inj hid) (hkind name)
    · obtain ⟨hd, hm⟩ := h.declared name id hid
      exact ⟨(Program.extends_push ..).kind? hd, hss hm⟩

theorem Workspace.Named.declare {w : Workspace} {ss : List NodeId} (h : w.Named ss) (name : String)
    (location : Location) :
    (w.declare name location).2.Named ((w.declare name location).1 :: ss) := by
  set p := w.program with hp
  set w₁ := (w.push (.label name) location).2 with hw₁
  have hr₁ : w₁.Rooted := ⟨h.scope, h.only⟩
  obtain ⟨hr₂, hfind⟩ := hr₁.bind name p.size
  have hk : ∀ id, (w.declare name location).2.program.kind? id =
      if id = p.size + 1 then some (.labelDecl name p.size) else if id = p.size then some (.label name)
      else p.kind? id := fun id => by
    change (((p.push (.label name) location).2).push (.labelDecl name p.size) location).2.kind? id = _
    simp only [Program.kind?_push, Program.size_push]
  have hold {id : NodeId} {k : Node.Kind} (hid : p.kind? id = some k) :
      (w.declare name location).2.program.kind? id = some k := by
    have hlt := Program.lt_of_kind? hid
    rw [hk, if_neg (Nat.ne_of_lt (Nat.lt_succ_of_lt hlt)), if_neg (Nat.ne_of_lt hlt), hid]
  refine ⟨⟨hr₂.scope, hr₂.only⟩, fun other id hid => ?_, fun other id hid => ?_⟩
  -- The name of the label is bound to it from now on; other names stand for what they did.
  · have hid' : (w₁.bind name p.size).2.find? other = some id := hid
    rw [hfind] at hid'
    split at hid'
    · cases hid'
      rw [hk, if_neg (Nat.ne_of_lt (Nat.lt_succ_self _)), if_pos rfl]
      simp_all
    · exact hold (h.bound other id hid')
  · rw [hk] at hid
    split at hid
    · cases hid
    · split at hid
      · cases hid
        subst_vars
        refine ⟨by rw [hk, if_pos rfl], List.mem_cons.2 (.inl ?_)⟩
        exact (Program.size_push ..).symm
      · obtain ⟨hd, hm⟩ := h.declared other id hid
        exact ⟨hold hd, List.mem_cons_of_mem _ hm⟩

/-! ## Stages -/

/-- What every stage of reading has. -/
structure Stage.Sound (s : Stage) : Prop where
  formed : s.workspace.program.Formed s.workspace.diagnostics s.operands s.statements
  named : s.workspace.Named s.statements
  severity : ∀ d ∈ s.workspace.diagnostics, d.severity = .error
  statics : s.workspace.shared.statics = #[]

namespace Stage

theorem Sound.step {s s' : Stage} (h : s.Sound) (hs : Step s s') : s'.Sound := by
  obtain ⟨hf, hn, hd, hst⟩ := h
  cases hs with
  | log w log os ss => exact ⟨hf, ⟨⟨hn.scope, hn.only⟩, hn.bound, hn.declared⟩, hd, hst⟩
  | report w d os ss he =>
    refine ⟨hf.more_diagnostics ?_, ⟨⟨hn.scope, hn.only⟩, hn.bound, hn.declared⟩, ?_, hst⟩
    · simp [Workspace.diagnostics, Workspace.report, Session.report]
    · simpa [Workspace.diagnostics, Workspace.report, Session.report, or_imp, forall_and, he] using hd
  | inside w ds os ss he =>
    rw [hn.inside]
    refine ⟨hf.more_diagnostics ?_, ⟨⟨hn.scope, hn.only⟩, hn.bound, hn.declared⟩, ?_, hst⟩
    · simp +contextual [Workspace.diagnostics]
    · simpa [Workspace.diagnostics, or_imp, forall_and] using ⟨hd, he⟩
  | leaf w kind location os ss hl =>
    refine ⟨hf.leaf hl location, hn.push _ ?_ (List.Subset.refl _), hd, hst⟩
    rintro name rfl; cases hl
  | named w name node os ss hfound =>
    exact ⟨hf.named ⟨name, hn.bound name node (hn.findInside? name ▸ hfound)⟩, hn, hd, hst⟩
  | drop w o os ss => exact ⟨hf.drop, hn, hd, hst⟩
  | bare w o os ss =>
    refine ⟨hf.bare, { hn with declared := fun name id hid => ?_ }, hd, hst⟩
    exact (hn.declared name id hid).imp_right (List.mem_cons_of_mem _)
  | take w kind location os ss ht hfits =>
    refine ⟨hf.take ht hfits location, hn.push _ ?_ (List.subset_cons_self ..), hd, hst⟩
    rintro name rfl; cases ht
  | declare w name location os ss =>
    exact ⟨hf.declare name location, hn.declare name location, hd, hst⟩

theorem Sound.steps {s s' : Stage} (h : s.Sound) (hs : Steps s s') : s'.Sound := by
  induction hs with
  | refl => exact h
  | tail _ hstep ih => exact ih.step hstep

/-- Nothing is wrong with a workspace in which nothing was read. -/
theorem sound_fresh (log : Log) : Sound ⟨{ log }, [], []⟩ where
  formed := by constructor <;> simp [Program.node?, Program.kind?, Program.parts]
  named :=
    { scope := rfl
      only := ⟨{}, rfl⟩
      bound := fun name id h => by
        rw [Workspace.Rooted.find? ⟨rfl, {}, rfl⟩ rfl] at h
        cases h
      declared := by simp [Program.node?, Program.kind?] }
  severity := by simp [Workspace.diagnostics]
  statics := rfl

/-- Statements may be put in another order. -/
theorem Sound.perm {w : Workspace} {os ss ss' : List NodeId} (h : Sound ⟨w, os, ss⟩) (hp : ss.Perm ss') :
    Sound ⟨w, os, ss'⟩ where
  formed :=
    { h.formed with
      statement := fun id hid => h.formed.statement id (hp.mem_iff.2 hid)
      once := fun id hid => (Program.parts_perm hp).count_eq id ▸ h.formed.once id hid }
  named :=
    { h.named with
      declared := fun name id hid => (h.named.declared name id hid).imp_right hp.mem_iff.1 }
  severity := h.severity
  statics := h.statics

end Stage

/-! ## Programs -/

/-- Whether a node is a statement that comes before all others. -/
def Program.isHoisted (p : Program) (id : NodeId) : Bool := (p.kind? id).any (·.isHoisted)

theorem Program.IsOperand.isHoisted_eq {p : Program} {id : NodeId} (h : p.IsOperand id) : p.isHoisted id = false := by
  obtain ⟨k, hk, hexpression⟩ := h
  rw [isHoisted, hk]
  cases k <;> first | rfl | cases hexpression

theorem Program.Extends.isHoisted {p q : Program} (h : p.Extends q) {id : NodeId} (hid : id < p.size) :
    q.isHoisted id = p.isHoisted id := by
  simp only [Program.isHoisted, h.kind?_eq hid]

namespace Draft

open Stage

theorem program_endOfStatement (tokens : List Token) (w : Workspace) :
    (Workspace.endOfStatement tokens w).2.program = w.program := by
  unfold Workspace.endOfStatement
  split
  · rfl
  · split <;> rfl

theorem lists_readLine (t : Token) (rest : List Token) (d : Draft) :
    (readLine t rest d).2.hoisted.toList = d.hoisted.toList ++
        (Workspace.statement t rest d.toWorkspace).value.toList.filter ((readLine t rest d).2.program.isHoisted ·) ∧
      (readLine t rest d).2.others.toList = d.others.toList ++
        (Workspace.statement t rest d.toWorkspace).value.toList.filter (!(readLine t rest d).2.program.isHoisted ·) := by
  unfold readLine
  dsimp only
  cases (Workspace.statement t rest d.toWorkspace).value with
  | none => simp
  | some id =>
    simp only [program_endOfStatement, Program.isHoisted, add]
    by_cases hid : ((Workspace.statement t rest d.toWorkspace).workspace.program.kind? id).any (·.isHoisted) = true
    · simp [hid, Workspace.tell]
    · simp [hid, Workspace.tell]

/-- The statements are in their lists in the order in which they were read. -/
theorem lists_read (tokens : List Token) (d : Draft) (ss : List NodeId)
    (h : Stage.Sound ⟨d.toWorkspace, [], ss⟩) :
    (read tokens d).hoisted.toList =
        d.hoisted.toList ++ (inOrder tokens d).filter ((read tokens d).program.isHoisted ·) ∧
      (read tokens d).others.toList =
        d.others.toList ++ (inOrder tokens d).filter (!(read tokens d).program.isHoisted ·) := by
  fun_induction read tokens d generalizing ss with
  | case1 d => simp [inOrder]
  | case2 d t rest ht ih =>
    rw [inOrder, if_pos ht]
    exact ih ss h
  | case3 d t rest ht ih =>
    have hsteps := steps_readLine t rest d [] ss
    have hsound := h.steps hsteps
    have hext := (steps_read (readLine t rest d).1 (readLine t rest d).2 []).extends
    -- What was a statement of the line is hoisted then as it is in the end.
    have hsame : ∀ id ∈ (Workspace.statement t rest d.toWorkspace).value.toList,
        (read (readLine t rest d).1 (readLine t rest d).2).program.isHoisted id =
          (readLine t rest d).2.program.isHoisted id := fun id hid =>
      hext.isHoisted (hsound.formed.statement id (List.mem_append_left _ hid))
    obtain ⟨hh, ho⟩ := ih _ hsound
    obtain ⟨hh', ho'⟩ := lists_readLine t rest d
    rw [inOrder, if_neg ht, List.filter_append, List.filter_append, hh, ho, hh', ho', List.append_assoc,
      List.append_assoc]
    constructor
    · rw [List.filter_congr hsame]
    · rw [List.filter_congr fun id hid => congrArg (!·) (hsame id hid)]

theorem sound_read (tokens : List Token) :
    Stage.Sound ⟨(read tokens {}).toWorkspace, [], (inOrder tokens {}).reverse⟩ := by
  simpa using (sound_fresh #[]).steps (steps_read tokens {} [])

end Draft

namespace Workspace

variable (file : String) (tokens : List Token) (log : Log)

/-- The hoisted statements come first, and otherwise statements keep the order in which they stand. -/
theorem statements_parse :
    (parse file tokens { log }).program.statements =
      (Draft.inOrder tokens {}).filter ((parse file tokens { log }).program.isHoisted ·) ++
        (Draft.inOrder tokens {}).filter (!(parse file tokens { log }).program.isHoisted ·) := by
  obtain ⟨log', hparse⟩ := exists_parse_eq log file tokens
  obtain ⟨hh, ho⟩ := Draft.lists_read tokens {} [] (Stage.sound_fresh #[])
  rw [hparse]
  simp only [List.nil_append] at hh ho
  exact congrArg₂ (· ++ ·) hh ho

/-- What every program that is read to its end has. -/
theorem sound_parse :
    Stage.Sound ⟨parse file tokens { log }, [], (parse file tokens { log }).program.statements⟩ := by
  obtain ⟨log', hparse⟩ := exists_parse_eq log file tokens
  have hperm : (Draft.inOrder tokens {}).reverse.Perm (parse file tokens { log }).program.statements := by
    rw [statements_parse]
    exact (List.reverse_perm _).trans (List.filter_append_perm _ _).symm
  have h := (Draft.sound_read tokens).perm hperm
  rw [hparse] at h ⊢
  exact ⟨⟨fun id n hn => (h.formed.node id n hn).extends List.prefix_rfl, h.formed.fits, h.formed.operand, h.formed.statement, h.formed.once⟩,
    ⟨⟨h.named.scope, h.named.only⟩, h.named.bound, h.named.declared⟩, h.severity, h.statics⟩

end Workspace

end Assembler
