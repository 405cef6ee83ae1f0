import Assembler.Workspace
/-!
# The arena

What each change to a program does to what is read from it. Nodes are named by index, so a program
with more nodes at its end says the same of the old ones: `Program.Extends`.
-/

namespace Assembler

/-! ## Kinds -/

namespace Node.Kind

/-- A kind without what it stands for. -/
def unbound : Kind → Kind
  | identifier name _ => identifier name none
  | kind => kind

@[simp] theorem children_unbound (k : Kind) : k.unbound.children = k.children := by cases k <;> rfl

@[simp] theorem isExpression_unbound (k : Kind) : k.unbound.isExpression = k.isExpression := by
  cases k <;> rfl

@[simp] theorem isHoisted_unbound (k : Kind) : k.unbound.isHoisted = k.isHoisted := by cases k <;> rfl

theorem unbound_eq_iff {k k' : Kind} (h : ∀ name b, k' ≠ .identifier name b) : k.unbound = k' ↔ k = k' := by
  cases k with
  | identifier name b => exact ⟨fun he => absurd he.symm (h name none), fun he => absurd he.symm (h name b)⟩
  | _ => exact Iff.rfl

theorem unbound_eq_identifier_iff {k : Kind} {name : String} :
    k.unbound = .identifier name none ↔ ∃ b, k = .identifier name b := by
  cases k <;> simp [unbound]

end Node.Kind

namespace Program

/-! ## Reading nodes -/

theorem kind?_eq_some {p : Program} {id : NodeId} {k : Node.Kind} :
    p.kind? id = some k ↔ ∃ n, p.node? id = some n ∧ n.kind = k := by
  simp [kind?]

theorem lt_of_node? {p : Program} {id : NodeId} {n : Node} (h : p.node? id = some n) : id < p.size :=
  (Array.getElem?_eq_some_iff.1 h).1

theorem lt_of_kind? {p : Program} {id : NodeId} {k : Node.Kind} (h : p.kind? id = some k) : id < p.size := by
  obtain ⟨n, hn, -⟩ := kind?_eq_some.1 h
  exact lt_of_node? hn

theorem node?_of_lt {p : Program} {id : NodeId} (h : id < p.size) : ∃ n, p.node? id = some n :=
  ⟨_, Array.getElem?_eq_getElem h⟩

/-- A node that can be an operand. -/
def IsOperand (p : Program) (id : NodeId) : Prop := ∃ k, p.kind? id = some k ∧ k.isExpression

theorem IsOperand.lt {p : Program} {id : NodeId} (h : p.IsOperand id) : id < p.size := by
  obtain ⟨k, hk, -⟩ := h
  exact lt_of_kind? hk

/-- A label node. -/
def IsLabel (p : Program) (id : NodeId) : Prop := ∃ name, p.kind? id = some (.label name)

theorem IsLabel.isOperand {p : Program} {id : NodeId} (h : p.IsLabel id) : p.IsOperand id := by
  obtain ⟨name, h⟩ := h
  exact ⟨_, h, rfl⟩

/-- What a node is made of. -/
def children (p : Program) (id : NodeId) : List NodeId := ((p.kind? id).map (·.children)).getD []

theorem children_of_kind? {p : Program} {id : NodeId} {k : Node.Kind} (h : p.kind? id = some k) :
    p.children id = k.children := by
  simp [children, h]

theorem mem_children {p : Program} {id c : NodeId} :
    c ∈ p.children id ↔ ∃ k, p.kind? id = some k ∧ c ∈ k.children := by
  cases hk : p.kind? id <;> simp [children, hk]

theorem lt_of_mem_children {p : Program} {id c : NodeId} (h : c ∈ p.children id) : id < p.size := by
  obtain ⟨k, hk, -⟩ := mem_children.1 h
  exact lt_of_kind? hk

theorem IsOperand.children {p : Program} {id : NodeId} (h : p.IsOperand id) : p.children id = [] := by
  obtain ⟨k, hk, he⟩ := h
  rw [children_of_kind? hk]
  cases k <;> first | rfl | cases he

/-- Some nodes, each before the nodes it is made of. -/
def parts (p : Program) (ids : List NodeId) : List NodeId := ids.flatMap fun id => id :: p.children id

@[simp] theorem parts_cons (p : Program) (id : NodeId) (ids : List NodeId) :
    p.parts (id :: ids) = id :: (p.children id ++ p.parts ids) := rfl

theorem parts_append (p : Program) (ids ids' : List NodeId) : p.parts (ids ++ ids') = p.parts ids ++ p.parts ids' :=
  List.flatMap_append

theorem mem_parts {p : Program} {ids : List NodeId} {c : NodeId} :
    c ∈ p.parts ids ↔ ∃ id ∈ ids, c = id ∨ c ∈ p.children id := by
  simp [parts]

theorem sublist_parts (p : Program) (ids : List NodeId) : ids.Sublist (p.parts ids) := by
  induction ids with
  | nil => exact List.Sublist.refl _
  | cons id ids ih => exact (ih.trans (List.sublist_append_right _ _)).cons_cons id

theorem parts_perm {p : Program} {ids ids' : List NodeId} (h : ids.Perm ids') :
    (p.parts ids).Perm (p.parts ids') :=
  h.flatMap_right _

theorem parts_congr {p q : Program} {ids : List NodeId} (h : ∀ id ∈ ids, q.children id = p.children id) :
    q.parts ids = p.parts ids := by
  induction ids with
  | nil => rfl
  | cons id ids ih =>
    rw [parts_cons, parts_cons, h id List.mem_cons_self, ih fun i hi => h i (List.mem_cons_of_mem _ hi)]

/-! ## More nodes -/

/-- The nodes of one program are the first nodes of another. -/
def Extends (p q : Program) : Prop := p.nodes.toList <+: q.nodes.toList

theorem Extends.refl (p : Program) : p.Extends p := List.prefix_rfl

theorem Extends.trans {p q r : Program} (h : p.Extends q) (h' : q.Extends r) : p.Extends r :=
  List.IsPrefix.trans h h'

theorem Extends.node? {p q : Program} (h : p.Extends q) {id : NodeId} {n : Node}
    (hn : p.node? id = some n) : q.node? id = some n := by
  obtain ⟨new, h⟩ := h
  simp only [Program.node?, ← Array.getElem?_toList] at hn ⊢
  obtain ⟨hlt, -⟩ := List.getElem?_eq_some_iff.1 hn
  rw [← h, List.getElem?_append_left hlt, hn]

theorem Extends.kind? {p q : Program} (h : p.Extends q) {id : NodeId} {k : Node.Kind}
    (hk : p.kind? id = some k) : q.kind? id = some k := by
  obtain ⟨n, hn, rfl⟩ := kind?_eq_some.1 hk
  exact kind?_eq_some.2 ⟨n, h.node? hn, rfl⟩

theorem Extends.kind?_eq {p q : Program} (h : p.Extends q) {id : NodeId} (hid : id < p.size) :
    q.kind? id = p.kind? id := by
  obtain ⟨n, hn⟩ := node?_of_lt hid
  rw [kind?_eq_some.2 ⟨n, hn, rfl⟩, h.kind? (kind?_eq_some.2 ⟨n, hn, rfl⟩)]

theorem Extends.children_eq {p q : Program} (h : p.Extends q) {id : NodeId} (hid : id < p.size) :
    q.children id = p.children id := by
  rw [Program.children, Program.children, h.kind?_eq hid]

theorem Extends.parts_eq {p q : Program} (h : p.Extends q) {ids : List NodeId} (hids : ∀ id ∈ ids, id < p.size) :
    q.parts ids = p.parts ids :=
  parts_congr fun id hid => h.children_eq (hids id hid)

theorem Extends.isOperand {p q : Program} (h : p.Extends q) {id : NodeId} (hid : p.IsOperand id) :
    q.IsOperand id := by
  obtain ⟨k, hk, he⟩ := hid
  exact ⟨k, h.kind? hk, he⟩

theorem Extends.isLabel {p q : Program} (h : p.Extends q) {id : NodeId} (hid : p.IsLabel id) :
    q.IsLabel id := by
  obtain ⟨name, hk⟩ := hid
  exact ⟨name, h.kind? hk⟩

section Push
variable (p : Program) (kind : Node.Kind) (location : Location)

@[simp] theorem push_fst : (p.push kind location).1 = p.size := rfl

@[simp] theorem size_push : (p.push kind location).2.size = p.size + 1 := by simp [push, size]

theorem extends_push : p.Extends (p.push kind location).2 := by simp [Extends, push]

theorem node?_push (id : NodeId) :
    (p.push kind location).2.node? id = if id = p.size then some { kind, location } else p.node? id := by
  exact Array.getElem?_push

theorem kind?_push (id : NodeId) :
    (p.push kind location).2.kind? id = if id = p.size then some kind else p.kind? id := by
  simp only [kind?, node?_push]
  split <;> rfl

theorem children_push : (p.push kind location).2.children p.size = kind.children :=
  children_of_kind? (by rw [kind?_push, if_pos rfl])

end Push

/-! ## Changed nodes -/

section Modify
variable (p : Program) (id : NodeId)

@[simp] theorem size_modify (change : Node → Node) : (p.modify id change).size = p.size := by
  simp [modify, size]

theorem node?_modify (change : Node → Node) (i : NodeId) :
    (p.modify id change).node? i = if id = i then (p.node? i).map change else p.node? i := by
  simp [modify, node?, Array.getElem?_modify]

@[simp] theorem size_setPlace (place : Place) : (p.setPlace id place).size = p.size := size_modify ..

@[simp] theorem kind?_setPlace (place : Place) (i : NodeId) : (p.setPlace id place).kind? i = p.kind? i := by
  simp only [kind?, setPlace, node?_modify]
  split <;> simp [Function.comp_def]

theorem place?_setPlace (place : Place) (i : NodeId) (h : id < p.size) :
    (p.setPlace id place).place? i = if id = i then some place else p.place? i := by
  obtain ⟨n, hn⟩ := node?_of_lt h
  simp only [place?, setPlace, node?_modify]
  split
  · subst_vars; simp [hn]
  · rfl

@[simp] theorem size_setBinding (target : NodeId) : (p.setBinding id target).size = p.size := size_modify ..

theorem kind?_setBinding {name : String} {b : Option NodeId} (h : p.kind? id = some (.identifier name b))
    (target i : NodeId) :
    (p.setBinding id target).kind? i = if id = i then some (.identifier name (some target)) else p.kind? i := by
  obtain ⟨n, hn, hk⟩ := kind?_eq_some.1 h
  simp only [kind?, setBinding, node?_modify]
  split
  · subst_vars; simp [hn, hk]
  · rfl

@[simp] theorem place?_setBinding (target i : NodeId) : (p.setBinding id target).place? i = p.place? i := by
  simp only [place?, setBinding, node?_modify]
  split
  · cases p.node? i with
    | none => rfl
    | some n => simp only [Option.map_some, Option.bind_some]; split <;> rfl
  · rfl

end Modify

end Program

namespace Workspace

@[simp] theorem push_fst (w : Workspace) (kind : Node.Kind) (location : Location) :
    (w.push kind location).1 = w.program.size := rfl

@[simp] theorem program_push (w : Workspace) (kind : Node.Kind) (location : Location) :
    (w.push kind location).2.program = (w.program.push kind location).2 := rfl

end Workspace

end Assembler
