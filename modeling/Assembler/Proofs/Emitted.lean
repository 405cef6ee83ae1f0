import Mathlib.Data.List.Forall2
import Assembler.Bytecode.Emission
import Assembler.Proofs.PlainCode
import Assembler.Proofs.Resolved
/-!
# Emission makes the plain code

Emission walks a graph of nodes and keeps the places that it gave; the plain code of the lines knows
of no graph. `Emission.Agrees` says what the two have in common after any of their steps, and each
step of emission keeps it. So a ready program is emitted, and its instructions are the plain code
of its lines (`Emission.makes_all`).
-/

namespace Assembler

/-! ## Lines of a ready program -/

section Lists

variable {α β : Type} {f : α → Option β}

theorem mapM_cons_eq_some {a : α} {as : List α} {bs : List β} :
    (a :: as).mapM f = some bs ↔ ∃ b, f a = some b ∧ ∃ bs', as.mapM f = some bs' ∧ b :: bs' = bs := by
  simp [List.mapM_cons, Option.bind_eq_some_iff]

theorem mapM_eq_some_iff {as : List α} {bs : List β} : as.mapM f = some bs ↔ List.Forall₂ (fun a b => f a = some b) as bs := by
  induction as generalizing bs with
  | nil => simp [eq_comm]
  | cons a as ih => cases bs <;> simp [List.mapM_cons, Option.bind_eq_some_iff, ih]

theorem mapM_eq_of_forall₂ {γ : Type} {g : γ → Option β} {as : List α} {cs : List γ}
    (h : List.Forall₂ (fun a c => f a = g c) as cs) : as.mapM f = cs.mapM g := by
  induction h with
  | nil => rfl
  | cons hac _ ih => rw [List.mapM_cons, List.mapM_cons, hac, ih]

theorem length_mapM {as : List α} {bs : List β} (h : as.mapM f = some bs) : bs.length = as.length := by
  induction as generalizing bs with
  | nil =>
    obtain rfl : bs = [] := by simpa using h.symm
    rfl
  | cons a as ih =>
    obtain ⟨b, -, bs, hbs, rfl⟩ := mapM_cons_eq_some.1 h
    exact congrArg (· + 1) (ih hbs)

theorem mem_mapM_iff {as : List α} {bs : List β} (h : as.mapM f = some bs) {b : β} :
    b ∈ bs ↔ ∃ a ∈ as, f a = some b := by
  induction as generalizing bs with
  | nil =>
    obtain rfl : bs = [] := by simpa using h.symm
    simp
  | cons a as ih =>
    obtain ⟨b', hb', bs, hbs, rfl⟩ := mapM_cons_eq_some.1 h
    simp [ih hbs, hb', eq_comm]

theorem isSome_of_mem_mapM {as : List α} (h : (as.mapM f).isSome) {a : α} (ha : a ∈ as) : (f a).isSome := by
  induction as with
  | nil => cases ha
  | cons a' as ih =>
    obtain ⟨bs, hbs⟩ := Option.isSome_iff_exists.1 h
    obtain ⟨b, hb, bs', hbs', -⟩ := mapM_cons_eq_some.1 hbs
    rcases List.mem_cons.1 ha with rfl | ha
    · simp [hb]
    · exact ih (by simp [hbs']) ha

theorem exists_mapM_eq_some {as : List α} (h : ∀ a ∈ as, ∃ b, f a = some b) : ∃ bs, as.mapM f = some bs := by
  induction as with
  | nil => exact ⟨[], rfl⟩
  | cons a as ih =>
    obtain ⟨b, hb⟩ := h a List.mem_cons_self
    obtain ⟨bs, hbs⟩ := ih fun a ha => h a (List.mem_cons_of_mem _ ha)
    exact ⟨b :: bs, by simp [List.mapM_cons, hb, hbs]⟩

end Lists

namespace Program.Ready

variable {p : Program}

/-- What a statement is or is made of, and can be an operand, is one. -/
theorem exists_operand? (hp : p.Ready) {id : NodeId} (hid : id ∈ p.parts p.statements) (h : p.IsOperand id) :
    ∃ o, p.operand? id = some o := by
  obtain ⟨k, hk, he⟩ := h
  cases k with
  | identifier name b =>
    cases b with
    | none => exact absurd hk (hp.bound id hid name)
    | some t => rw [operand?, hk]; exact ⟨_, rfl⟩
  | label | integer | string | slot => rw [operand?, hk]; exact ⟨_, rfl⟩
  | directive | labelDecl | jump | compare => cases he

theorem exists_line? (hp : p.Ready) {id : NodeId} (hid : id ∈ p.statements) : ∃ l, p.line? id = some l := by
  obtain ⟨n, hn⟩ := node?_of_lt (hp.statement id hid)
  have hk : p.kind? id = some n.kind := kind?_eq_some.2 ⟨n, hn, rfl⟩
  have hchild : ∀ c ∈ n.kind.children, ∃ o, p.operand? c = some o := fun c hc => by
    rw [← children_of_kind? hk] at hc
    exact hp.exists_operand? (mem_parts.2 ⟨id, hid, .inr hc⟩) (hp.child id c hc).2
  by_cases he : n.kind.isExpression = true
  · obtain ⟨o, ho⟩ := hp.exists_operand? (mem_parts.2 ⟨id, hid, .inl rfl⟩) ⟨n.kind, hk, he⟩
    exact ⟨.bare o, by cases hkind : n.kind <;> simp_all [line?, Node.Kind.isExpression]⟩
  · cases hkind : n.kind with
    | directive name arguments body =>
      rw [hkind] at hk hchild
      obtain ⟨os, hos⟩ := exists_mapM_eq_some hchild
      have hos : arguments.mapM p.operand? = some os := hos
      exact ⟨.directive name os body, by simp [line?, hk, hos]⟩
    | labelDecl name label => exact ⟨.declaration label, by simp [line?, hk, hkind]⟩
    | jump condition target =>
      rw [hkind] at hk hchild
      obtain ⟨o, ho⟩ := hchild target List.mem_cons_self
      exact ⟨.jump condition o, by simp [line?, hk, ho]⟩
    | compare left right =>
      rw [hkind] at hk hchild
      obtain ⟨o, ho⟩ := hchild left List.mem_cons_self
      obtain ⟨o', ho'⟩ := hchild right (List.mem_cons_of_mem _ List.mem_cons_self)
      exact ⟨.compare o o', by simp [line?, hk, ho, ho']⟩
    | label | identifier | integer | string | slot => exact absurd (by rw [hkind]; rfl) he

theorem exists_lines? (hp : p.Ready) : ∃ ls, p.lines? = some ls :=
  exists_mapM_eq_some fun _ hid => hp.exists_line? hid

theorem isLabel_of_operand? (hp : p.Ready) {id node : NodeId} (h : p.operand? id = some (.label node)) :
    p.IsLabel node := by
  unfold operand? at h
  split at h
  · cases h
  · cases h
  · cases h; exact ⟨_, ‹_›⟩
  · cases h; exact ⟨_, hp.name_label _ _ _ ‹_›⟩
  · cases h
  · cases h

end Program.Ready

/-- Every label of a program has a slot. -/
def Slots.Covers (s : Slots) (p : Program) : Prop := ∀ id, p.IsLabel id → (s.labels.lookup id).isSome

theorem Slots.Covers.line {s : Slots} {p : Program} (h : s.Covers p) (l : Line) : (s.line l).2.Covers p := fun id hid => by
  obtain ⟨slot, hslot⟩ := Option.isSome_iff_exists.1 (h id hid)
  simp [lookup_line hslot l]

namespace Emission

/-- The instructions made so far, without their lines. -/
def instructions (e : Emission) : List Instruction := e.code.toList.map (·.1)

/-! ## Runs -/

/-- A step succeeds with a result and a state, and adds instructions to the code. -/
structure Makes {α : Type} (m : Emit α) (e : Emission) (a : α) (code : List Instruction) (e' : Emission) : Prop where
  run : m.run e = .ok a e'
  code : e'.instructions = e.instructions ++ code

namespace Makes

variable {α β : Type} {e e' e'' : Emission}

theorem pure (a : α) (e : Emission) : Makes (Pure.pure a) e a [] e := ⟨rfl, (List.append_nil _).symm⟩

theorem bind {m : Emit α} {f : α → Emit β} {a : α} {b : β} {code code' : List Instruction}
    (h : Makes m e a code e') (h' : Makes (f a) e' b code' e'') : Makes (m >>= f) e b (code ++ code') e'' := by
  refine ⟨?_, by rw [h'.code, h.code, List.append_assoc]⟩
  have hrun : m e = .ok a e' := h.run
  have hrun' : f a e' = .ok b e'' := h'.run
  simp only [EStateM.run, Bind.bind, EStateM.bind, hrun, hrun']

/-- The first step makes no code. -/
theorem silent_bind {m : Emit α} {f : α → Emit β} {a : α} {b : β} {code : List Instruction}
    (h : Makes m e a [] e') (h' : Makes (f a) e' b code e'') : Makes (m >>= f) e b code e'' :=
  h.bind h'

/-- The other steps make no code. -/
theorem bind_silent {m : Emit α} {f : α → Emit β} {a : α} {b : β} {code : List Instruction}
    (h : Makes m e a code e') (h' : Makes (f a) e' b [] e'') : Makes (m >>= f) e b code e'' := by
  simpa using h.bind h'

theorem discard {m : Emit α} {a : α} {code : List Instruction} (h : Makes m e a code e') :
    Makes (discard m) e () code e' := by
  refine ⟨?_, h.code⟩
  have hrun : m e = .ok a e' := h.run
  simp only [EStateM.run, Functor.discard, Functor.mapConst, Function.comp, EStateM.map, hrun]

end Makes

theorem makes_get (e : Emission) : Makes get e e [] e := ⟨rfl, (List.append_nil _).symm⟩

theorem makes_tell (event : Event) (e : Emission) : Makes (tell event) e () [] { e with log := e.log.push event } :=
  ⟨rfl, (List.append_nil _).symm⟩

theorem makes_place? (id : NodeId) (e : Emission) : Makes (place? id) e (e.program.place? id) [] e :=
  ⟨rfl, (List.append_nil _).symm⟩

theorem makes_emit (i : Instruction) (line : Nat) (e : Emission) :
    Makes (emit i line) e () [i] { e with code := e.code.push (i, line) } :=
  ⟨rfl, by simp [instructions]⟩

theorem makes_assign {id : NodeId} (place : Place) {e : Emission} (h : e.program.place? id = none) :
    Makes (assign id place) e () [] { e with program := e.program.setPlace id place } := by
  refine (makes_place? id e).silent_bind ?_
  simp only [h]
  exact ⟨rfl, (List.append_nil _).symm⟩

/-- A node is begun. -/
def begin (e : Emission) (id : NodeId) : Emission :=
  { e with
    line := (e.program.location id).line
    log := e.log.push ⟨.trace, .phase .compiler, "Building node",
      [("node", .plain (NodeId.text id)), ("source", .plain (e.program.text id))]⟩ }

theorem makes_start (id : NodeId) (e : Emission) :
    Makes (start id) e () [] (e.begin id) := ⟨rfl, (List.append_nil _).symm⟩

theorem makes_build {locate : NodeId → Emit Place} {e e' : Emission} {id : NodeId} {k : Node.Kind}
    {code : List Instruction} (hk : e.program.kind? id = some k)
    (h : Makes (buildKind locate id (e.program.location id) k) (e.begin id) () code e') :
    Makes (build locate id) e () code e' := by
  refine (makes_start id e).silent_bind ((makes_get _).silent_bind ?_)
  have hk' : (e.begin id).program.kind? id = some k := hk
  simp only [hk']
  exact h

/-- A node gets the next slot, and the instruction that defines it. -/
def defined (e : Emission) (id : NodeId) (entry : Static) (i : Place → Instruction) (line : Nat) : Emission :=
  { e with
    program := e.program.setPlace id (.static (.ofNat e.shared.statics.size))
    shared := { e.shared with statics := e.shared.statics.push entry }
    code := e.code.push (i (.static (.ofNat e.shared.statics.size)), line) }

theorem makes_define {id : NodeId} (entry : Static) (i : Place → Instruction) (line : Nat) {e : Emission}
    (h : e.program.place? id = none) :
    Makes (do let place ← allocate entry; assign id place; emit (i place) line) e ()
      [i (.static (.ofNat e.shared.statics.size))] (e.defined id entry i line) := by
  have hallocate : Makes (allocate entry) e (.static (.ofNat e.shared.statics.size)) []
      { e with shared := { e.shared with statics := e.shared.statics.push entry } } :=
    ⟨rfl, (List.append_nil _).symm⟩
  refine hallocate.silent_bind (Makes.silent_bind (makes_assign _ ?_) (makes_emit _ line _))
  exact h

/-! ## Locating -/

variable {e e' : Emission} {id : NodeId} {place : Place} {code : List Instruction}

theorem makes_locate_of_place (depth : Nat) (h : e.program.place? id = some place) :
    Makes (locate (depth + 1) id) e place [] e := by
  refine (makes_place? id e).silent_bind ?_
  rw [h]
  exact Makes.pure place e

theorem makes_locate_of_build (depth : Nat) (h : e.program.place? id = none)
    (hbuild : Makes (build (locate depth) id) e () code e') (hplace : e'.program.place? id = some place) :
    Makes (locate (depth + 1) id) e place code e' := by
  refine (makes_place? id e).silent_bind ?_
  rw [h]
  refine hbuild.bind_silent ((makes_place? id e').silent_bind ?_)
  rw [hplace]
  exact Makes.pure place e'

/-! ## Agreement -/

/-- An emission of a program and the slots of its plain code, with the nodes that will still be needed. -/
structure Agrees (p : Program) (todo : List NodeId) (s : Slots) (e : Emission) : Prop where
  size : e.program.size = p.size
  kind : ∀ id, e.program.kind? id = p.kind? id
  label : ∀ id, p.IsLabel id → e.program.place? id = (s.labels.lookup id).map fun slot => Place.static (.ofNat slot)
  /-- A node that is no label has no place before it is needed, and it is needed once. -/
  fresh : ∀ id ∈ todo, ¬ p.IsLabel id → e.program.place? id = none
  once : ∀ id, ¬ p.IsLabel id → todo.count id ≤ 1
  taken : e.shared.statics.size = s.taken
  entry : ∀ node slot, s.labels.lookup node = some slot → e.shared.statics[slot]? = some (.label (p.labelName node))
  defines : List.Forall₂ Instruction.Defines (e.instructions.filter (·.isDefinition)) e.shared.statics.toList

namespace Agrees

variable {p : Program} {todo todo' : List NodeId} {s : Slots} {e : Emission} {id : NodeId}

theorem sublist (h : Agrees p todo s e) (hsub : todo'.Sublist todo) : Agrees p todo' s e :=
  { h with
    fresh := fun id hid => h.fresh id (hsub.subset hid)
    once := fun id hid => Nat.le_trans (hsub.count_le id) (h.once id hid) }

theorem begin (h : Agrees p todo s e) (id : NodeId) : Agrees p todo s (e.begin id) :=
  ⟨h.size, h.kind, h.label, h.fresh, h.once, h.taken, h.entry, h.defines⟩

theorem not_mem (h : Agrees p (id :: todo) s e) (hid : ¬ p.IsLabel id) : id ∉ todo := by
  have := h.once id hid
  rw [List.count_cons_self] at this
  exact List.count_eq_zero.1 (by omega)

/-- An instruction that defines nothing. -/
theorem emit (h : Agrees p todo s e) {i : Instruction} (hi : i.isDefinition = false) (line : Nat) :
    Agrees p todo s { e with code := e.code.push (i, line) } :=
  { h with defines := by simpa [instructions, List.filter_append, hi] using h.defines }

/-- A node that is no label gets its place. -/
theorem setPlace (h : Agrees p (id :: todo) s e) (hid : ¬ p.IsLabel id) (place : Place) :
    Agrees p todo s { e with program := e.program.setPlace id place } := by
  have hother {i : NodeId} (hi : id ≠ i) : (e.program.setPlace id place).place? i = e.program.place? i := by
    simp only [Program.place?, Program.setPlace, Program.node?_modify, if_neg hi]
  have hsub := h.sublist (List.sublist_cons_self id todo)
  refine { hsub with size := ?_, kind := fun i => ?_, label := fun i hi => ?_, fresh := fun i hi hlabel => ?_ }
  · exact (Program.size_setPlace ..).trans h.size
  · exact (Program.kind?_setPlace ..).trans (h.kind i)
  · rw [← hsub.label i hi]
    exact hother fun he => hid (he ▸ hi)
  · rw [← hsub.fresh i hi hlabel]
    exact hother fun he => h.not_mem hid (he ▸ hi)

/-- An entry that is there stays where it is. -/
theorem entry_defined (h : Agrees p todo s e) (id : NodeId) (new : Static) (i : Place → Instruction) (line : Nat)
    {node : NodeId} {slot : Nat} (hslot : s.labels.lookup node = some slot) :
    (e.defined id new i line).shared.statics[slot]? = some (.label (p.labelName node)) := by
  have hold := h.entry node slot hslot
  obtain ⟨hlt, -⟩ := Array.getElem?_eq_some_iff.1 hold
  rw [defined, Array.getElem?_push_lt hlt, ← hold, Array.getElem?_eq_getElem hlt]

theorem defines_defined (h : Agrees p todo s e) (id : NodeId) {entry : Static} {i : Place → Instruction}
    (hi : ∀ place, (i place).Defines entry) (line : Nat) :
    List.Forall₂ Instruction.Defines ((e.defined id entry i line).instructions.filter (·.isDefinition))
      (e.defined id entry i line).shared.statics.toList := by
  have hnew := hi (.static (.ofNat e.shared.statics.size))
  simp only [instructions, defined, Array.toList_push, List.map_append, List.filter_append, List.map_cons, List.map_nil,
    List.filter_cons, hnew.isDefinition, if_true, List.filter_nil]
  exact List.rel_append h.defines (.cons hnew .nil)

/-- A literal gets the next slot. -/
theorem defined_literal (h : Agrees p (id :: todo) s e) (hid : ¬ p.IsLabel id) {entry : Static} {i : Place → Instruction}
    (hi : ∀ place, (i place).Defines entry) (line : Nat) : Agrees p todo s.take (e.defined id entry i line) := by
  have hplaced := h.setPlace hid (.static (.ofNat e.shared.statics.size))
  exact
    { size := hplaced.size
      kind := hplaced.kind
      label := hplaced.label
      fresh := hplaced.fresh
      once := hplaced.once
      taken := by simp [defined, Slots.take, h.taken]
      entry := fun _ _ hslot => h.entry_defined id entry i line hslot
      defines := h.defines_defined id hi line }

/-- A label gets the next slot. -/
theorem defined_label (h : Agrees p todo s e) {name : String} (hid : p.kind? id = some (.label name)) (line : Nat) :
    Agrees p todo { s.take with labels := (id, s.taken) :: s.labels }
      (e.defined id (.label name) .label line) := by
  have hlt : id < e.program.size := h.size ▸ Program.lt_of_kind? hid
  have hplace (i : NodeId) := Program.place?_setPlace e.program id (.static (.ofNat e.shared.statics.size)) i hlt
  exact
    { size := (Program.size_setPlace ..).trans h.size
      kind := fun i => (Program.kind?_setPlace ..).trans (h.kind i)
      label := fun i hi => by
        rw [defined, hplace, h.taken, List.lookup_cons]
        by_cases he : id = i
        · simp [he]
        · rw [if_neg he, beq_false_of_ne (Ne.symm he), h.label i hi]
      fresh := fun i hi hlabel => by
        have hne : id ≠ i := fun he => hlabel ⟨name, he ▸ hid⟩
        rw [defined, hplace, if_neg hne, h.fresh i hi hlabel]
      once := h.once
      taken := by simp [defined, Slots.take, h.taken]
      entry := fun node slot hslot => by
        rw [List.lookup_cons] at hslot
        by_cases he : node = id
        · subst he
          obtain rfl : s.taken = slot := by simpa using hslot
          simp [defined, ← h.taken, Program.labelName, hid]
        · rw [beq_false_of_ne he] at hslot
          exact h.entry_defined id (.label name) .label line hslot
      defines := h.defines_defined id (fun place => .label place name) line }

end Agrees

/-! ## Operands -/

section Operands

variable {p : Program} {todo : List NodeId} {s : Slots} {e : Emission} {id : NodeId}

/-- A node that is built by being defined has the next slot then. -/
theorem makes_build_defined {locate : NodeId → Emit Place} {k : Node.Kind} {entry : Static} {i : Place → Instruction}
    (h : Agrees p todo s e) (hk : p.kind? id = some k) (hplace : e.program.place? id = none)
    (hkind : ∀ location, buildKind locate id location k =
      (do let place ← allocate entry; assign id place; emit (i place) location.line)) :
    ∃ line, Makes (build locate id) e () [i s.next] ((e.begin id).defined id entry i line) ∧
      ((e.begin id).defined id entry i line).program.place? id = some s.next := by
  have hlt : id < (e.begin id).program.size := h.size ▸ Program.lt_of_kind? hk
  have hnext : Place.static (.ofNat (e.begin id).shared.statics.size) = s.next := by
    rw [Slots.next, ← (h.begin id).taken]
  refine ⟨(e.program.location id).line, makes_build ((h.kind id).trans hk) ?_, ?_⟩
  · rw [hkind, ← hnext]
    exact makes_define entry i _ hplace
  · rw [← hnext]
    exact (Program.place?_setPlace _ _ _ _ hlt).trans (if_pos rfl)

/-- A label is where it was defined, and is defined otherwise. -/
theorem makes_locate_label (h : Agrees p todo s e) {name : String} (hid : p.kind? id = some (.label name)) (depth : Nat) :
    ∃ e', Makes (locate (depth + 1) id) e (s.define (.label id)).1 (s.define (.label id)).2.1 e' ∧
      Agrees p todo (s.define (.label id)).2.2 e' := by
  have hplace := h.label id ⟨name, hid⟩
  cases hslot : s.labels.lookup id with
  | some slot =>
    rw [hslot] at hplace
    simp only [Slots.define, hslot]
    exact ⟨e, makes_locate_of_place depth hplace, h⟩
  | none =>
    rw [hslot] at hplace
    simp only [Slots.define, hslot]
    obtain ⟨line, hmakes, hplaced⟩ := makes_build_defined h hid hplace fun _ => rfl
    exact ⟨_, makes_locate_of_build depth hplace hmakes hplaced, (h.begin id).defined_label hid line⟩

/-- An operand that is built gets its place. -/
theorem makes_build_operand (hp : p.Ready) (h : Agrees p (id :: todo) s e) (hid : ¬ p.IsLabel id) {o : Operand}
    (ho : p.operand? id = some o) (depth : Nat) :
    ∃ e', Makes (build (locate (depth + 1)) id) e () (s.define o).2.1 e' ∧ Agrees p todo (s.define o).2.2 e' ∧
      e'.program.place? id = some (s.define o).1 := by
  have hplace : e.program.place? id = none := h.fresh id List.mem_cons_self hid
  have hset {q : Program} (hq : q.size = p.size) (place : Place) : (q.setPlace id place).place? id = some place := by
    have hlt : id < p.size := by
      cases hk : p.kind? id with
      | some k => exact Program.lt_of_kind? hk
      | none => simp [Program.operand?, hk] at ho
    rw [Program.place?_setPlace _ _ _ _ (hq ▸ hlt), if_pos rfl]
  unfold Program.operand? at ho
  split at ho
  · rename_i value hk
    cases ho
    obtain ⟨line, hmakes, hplaced⟩ := makes_build_defined h hk hplace fun _ => rfl
    exact ⟨_, hmakes, (h.begin id).defined_literal hid (.integer · value) line, hplaced⟩
  · rename_i value hk
    cases ho
    obtain ⟨line, hmakes, hplaced⟩ := makes_build_defined h hk hplace fun _ => rfl
    exact ⟨_, hmakes, (h.begin id).defined_literal hid (.string · value) line, hplaced⟩
  · rename_i hk
    exact absurd ⟨_, hk⟩ hid
  · rename_i name target hk
    cases ho
    obtain ⟨e', hmakes, hagrees⟩ := makes_locate_label (h.begin id) (hp.name_label id name target hk) depth
    have hplace' := hagrees.fresh id List.mem_cons_self hid
    refine ⟨_, makes_build ((h.kind id).trans hk) (hmakes.bind_silent (makes_assign _ hplace')), hagrees.setPlace hid _, ?_⟩
    exact hset hagrees.size _
  · rename_i store index hk
    cases ho
    refine ⟨_, makes_build ((h.kind id).trans hk) (makes_assign _ hplace), (h.begin id).setPlace hid _, ?_⟩
    exact hset (h.begin id).size _
  · cases ho

theorem makes_locate (hp : p.Ready) (h : Agrees p (id :: todo) s e) {o : Operand} (ho : p.operand? id = some o)
    (depth : Nat) :
    ∃ e', Makes (locate (depth + 2) id) e (s.define o).1 (s.define o).2.1 e' ∧ Agrees p todo (s.define o).2.2 e' := by
  -- Only a label can have its place already.
  by_cases hid : p.IsLabel id
  · obtain ⟨name, hk⟩ := hid
    obtain rfl : Operand.label id = o := by simpa [Program.operand?, hk] using ho
    exact makes_locate_label (h.sublist (List.sublist_cons_self ..)) hk (depth + 1)
  · obtain ⟨e', hmakes, hagrees, hplace⟩ := makes_build_operand hp h hid ho depth
    exact ⟨e', makes_locate_of_build (depth + 1) (h.fresh id List.mem_cons_self hid) hmakes hplace, hagrees⟩

theorem makes_locate_all (hp : p.Ready) {ids : List NodeId} (h : Agrees p (ids ++ todo) s e) {os : List Operand}
    (hos : ids.mapM p.operand? = some os) {depth : Nat} (hdepth : ids ≠ [] → ∃ d, depth = d + 2) :
    ∃ e', Makes (ids.mapM (locate depth)) e (s.defineAll os).1 (s.defineAll os).2.1 e' ∧
      Agrees p todo (s.defineAll os).2.2 e' := by
  induction ids generalizing os s e with
  | nil =>
    obtain rfl : os = [] := by simpa using hos.symm
    exact ⟨e, Makes.pure [] e, h⟩
  | cons id ids ih =>
    obtain ⟨d, rfl⟩ := hdepth (List.cons_ne_nil id ids)
    obtain ⟨o, ho, os, hrest, rfl⟩ := mapM_cons_eq_some.1 hos
    obtain ⟨e₁, hmakes₁, hagrees₁⟩ := makes_locate hp h ho d
    obtain ⟨e₂, hmakes₂, hagrees₂⟩ := ih hagrees₁ hrest fun _ => ⟨d, rfl⟩
    refine ⟨e₂, ?_, hagrees₂⟩
    rw [List.mapM_cons]
    exact hmakes₁.bind (hmakes₂.bind_silent (Makes.pure _ e₂))

end Operands

/-! ## Statements -/

section Statements

variable {p : Program} {todo : List NodeId} {s : Slots} {e e' : Emission} {id : NodeId}

theorem makes_statement_of_place (depth : Nat) {place : Place} (h : e.program.place? id = some place) :
    Makes (statement depth id) e () [] e := by
  refine (makes_place? id e).silent_bind ?_
  simpa [h] using Makes.pure () e

theorem makes_statement_of_build {depth : Nat} {code : List Instruction} (h : e.program.place? id = none)
    (hbuild : Makes (build (locate depth) id) e () code e') : Makes (statement depth id) e () code e' := by
  refine (makes_place? id e).silent_bind ?_
  simpa [h] using hbuild

/-- There are two nodes at least where one is made of another. -/
theorem exists_size_eq (hp : p.Ready) {c : NodeId} (hc : c ∈ p.children id) : ∃ d, p.size = d + 2 := by
  have htwo : 2 ≤ p.size :=
    Nat.lt_of_le_of_lt (Nat.one_le_of_lt (hp.child id c hc).1) (Program.lt_of_mem_children hc)
  exact ⟨p.size - 2, by omega⟩

/-- A statement made of operands makes their definitions and its own instruction. -/
theorem makes_buildKind (hp : p.Ready) (h : Agrees p (p.children id ++ todo) s e) {k : Node.Kind}
    (hk : p.kind? id = some k) (hstatement : k.isExpression = false) {l : Line} (hl : p.line? id = some l)
    (location : Location) :
    ∃ e', Makes (buildKind (locate p.size) id location k) e () (s.line l).1 e' ∧ Agrees p todo (s.line l).2 e' := by
  have hsize {c : NodeId} (hc : c ∈ p.children id) := exists_size_eq hp hc
  rw [Program.children_of_kind? hk] at h hsize
  simp only [Program.line?, hk] at hl
  cases k with
  | directive name arguments body =>
    obtain ⟨os, hos, rfl⟩ := Option.map_eq_some_iff.1 hl
    obtain ⟨e', hmakes, hagrees⟩ := makes_locate_all hp h hos fun hne =>
      hsize (List.head_mem hne)
    have hfits : ¬ arguments.length > 255 := Nat.not_lt.2 (hp.fits id name arguments body hk)
    refine ⟨_, ?_, hagrees.emit (i := .directive name (s.defineAll os).1 body) rfl location.line⟩
    rw [buildKind, if_neg hfits]
    exact hmakes.bind (makes_emit _ _ _)
  | labelDecl name label =>
    obtain rfl := Option.some.inj hl
    obtain ⟨d, hd⟩ := hsize List.mem_cons_self
    obtain ⟨-, hlabel⟩ := hp.declares id name label hk
    obtain ⟨e', hmakes, hagrees⟩ := makes_locate_label (h.sublist (List.sublist_cons_self ..)) hlabel (d + 1)
    refine ⟨e', ?_, hagrees⟩
    rw [hd]
    simpa [buildKind, Slots.line, Line.operands, Slots.defineAll, Line.own] using hmakes.discard
  | jump condition target =>
    obtain ⟨o, ho, rfl⟩ := Option.map_eq_some_iff.1 hl
    obtain ⟨d, hd⟩ := hsize List.mem_cons_self
    obtain ⟨e', hmakes, hagrees⟩ := makes_locate hp h ho d
    refine ⟨_, ?_, hagrees.emit (i := .jump condition (s.define o).1) rfl location.line⟩
    rw [hd]
    simpa [buildKind, Slots.line, Line.operands, Slots.defineAll, Line.own] using hmakes.bind (makes_emit _ _ _)
  | compare left right =>
    obtain ⟨o, ho, o', ho', rfl⟩ : ∃ o, p.operand? left = some o ∧ ∃ o', p.operand? right = some o' ∧
        Line.compare o o' = l := by
      simpa [Option.bind_eq_some_iff] using hl
    obtain ⟨d, hd⟩ := hsize List.mem_cons_self
    obtain ⟨e₁, hmakes₁, hagrees₁⟩ := makes_locate hp h ho d
    obtain ⟨e₂, hmakes₂, hagrees₂⟩ := makes_locate hp hagrees₁ ho' d
    refine ⟨_, ?_, hagrees₂.emit (i := .compare (s.define o).1 ((s.define o).2.2.define o').1) rfl location.line⟩
    rw [hd]
    simpa [buildKind, Slots.line, Line.operands, Slots.defineAll, Line.own] using
      hmakes₁.bind (hmakes₂.bind (makes_emit _ _ _))
  | label | identifier | integer | string | slot => cases hstatement

/-- A statement makes the code of its line; one that is an operand needs all labels to be defined before. -/
theorem makes_statement (hp : p.Ready) (h : Agrees p (id :: (p.children id ++ todo)) s e) {l : Line}
    (hl : p.line? id = some l) (hcovers : p.isHoisted id = true ∨ s.Covers p) :
    ∃ e', Makes (statement p.size id) e () (s.line l).1 e' ∧ Agrees p todo (s.line l).2 e' := by
  obtain ⟨k, hk⟩ : ∃ k, p.kind? id = some k := by
    cases hk : p.kind? id with
    | some k => exact ⟨k, rfl⟩
    | none => simp [Program.line?, Program.operand?, hk] at hl
  cases hexpr : k.isExpression with
  | false =>
    have hid : ¬ p.IsLabel id := by
      rintro ⟨name, hname⟩
      cases hk.symm.trans hname
      cases hexpr
    obtain ⟨e', hmakes, hagrees⟩ := makes_buildKind hp ((h.sublist (List.sublist_cons_self ..)).begin id) hk hexpr hl
      (e.program.location id)
    exact ⟨e', makes_statement_of_build (h.fresh id List.mem_cons_self hid) (makes_build ((h.kind id).trans hk) hmakes),
      hagrees⟩
  | true =>
    have hcovers : s.Covers p := hcovers.resolve_left fun hhoisted => by
      cases k <;> simp_all [Program.isHoisted, Node.Kind.isHoisted, Node.Kind.isExpression]
    obtain ⟨o, ho, rfl⟩ : ∃ o, p.operand? id = some o ∧ Line.bare o = l := by
      cases k <;> simp_all [Program.line?, Node.Kind.isExpression]
    rw [Program.IsOperand.children ⟨k, hk, hexpr⟩, List.nil_append] at h
    -- A label by itself is skipped, since it has its place from its declaration, which was hoisted.
    by_cases hid : p.IsLabel id
    · obtain ⟨name, hname⟩ := hid
      obtain rfl : Operand.label id = o := by simpa [Program.operand?, hname] using ho
      obtain ⟨slot, hslot⟩ := Option.isSome_iff_exists.1 (hcovers id ⟨name, hname⟩)
      have hplace := h.label id ⟨name, hname⟩
      rw [hslot] at hplace
      rw [Slots.line_bare (by rintro _ ⟨⟩; simp [hslot]), Slots.define, hslot]
      exact ⟨e, makes_statement_of_place p.size hplace, h.sublist (List.sublist_cons_self ..)⟩
    · have hlabel : ∀ node, o = .label node → (s.labels.lookup node).isSome := by
        rintro node rfl
        exact hcovers node (hp.isLabel_of_operand? ho)
      obtain ⟨depth, hdepth⟩ := Nat.exists_eq_add_of_lt (Program.lt_of_kind? hk)
      obtain ⟨e', hmakes, hagrees, -⟩ := makes_build_operand hp h hid ho (id + depth)
      rw [Slots.line_bare hlabel]
      refine ⟨e', makes_statement_of_build (h.fresh id List.mem_cons_self hid) ?_, hagrees⟩
      rw [hdepth]
      exact hmakes

/-- Statements make the code of their lines. -/
theorem makes_statements (hp : p.Ready) {ids : List NodeId} (h : Agrees p (p.parts ids ++ todo) s e) {ls : List Line}
    (hls : ids.mapM p.line? = some ls) (hcovers : (∀ id ∈ ids, p.isHoisted id = true) ∨ s.Covers p) :
    ∃ e', Makes (ids.forM (statement p.size)) e () (s.lines ls).1 e' ∧ Agrees p todo (s.lines ls).2 e' := by
  induction ids generalizing ls s e with
  | nil =>
    obtain rfl : ls = [] := by simpa using hls.symm
    exact ⟨e, Makes.pure () e, h⟩
  | cons id ids ih =>
    obtain ⟨l, hl, ls, hrest, rfl⟩ := mapM_cons_eq_some.1 hls
    rw [Program.parts_cons, List.cons_append, List.append_assoc] at h
    obtain ⟨e₁, hmakes₁, hagrees₁⟩ := makes_statement hp h hl (hcovers.imp_left fun hh => hh id List.mem_cons_self)
    obtain ⟨e₂, hmakes₂, hagrees₂⟩ := ih hagrees₁ hrest
      (hcovers.imp (fun hh i hi => hh i (List.mem_cons_of_mem _ hi)) (Slots.Covers.line · l))
    exact ⟨e₂, hmakes₁.bind hmakes₂, hagrees₂⟩

end Statements

/-! ## Static data -/

/-- What fills the static area where some operands are defined, with the names of labels in their slots, is the entries
of these operands. -/
theorem drop_eq_entries {name : NodeId → String} {statics : List Static} {s : Slots} {os : List Operand}
    (hdefines : List.Forall₂ Instruction.Defines (s.defineAll os).2.1 (statics.drop s.taken))
    (hentry : ∀ node slot, (s.defineAll os).2.2.labels.lookup node = some slot → statics[slot]? = some (.label (name node))) :
    statics.drop s.taken = s.entries name os := by
  induction os generalizing s with
  | nil => exact List.forall₂_nil_left_iff.1 hdefines
  | cons o os ih =>
    -- The entry in the next slot is for the operand if that is defined, and those after it are for the others.
    have hnext {i : Instruction} {more : List Instruction}
        (h : List.Forall₂ Instruction.Defines (i :: more) (statics.drop s.taken)) :
        ∃ entry, i.Defines entry ∧ statics[s.taken]? = some entry ∧
          statics.drop s.taken = entry :: statics.drop (s.taken + 1) ∧
          List.Forall₂ Instruction.Defines more (statics.drop (s.taken + 1)) := by
      obtain ⟨entry, after, hi, hafter, hdrop⟩ := List.forall₂_cons_left_iff.1 h
      have hget : statics[s.taken]? = some entry := by
        have := congrArg (·[0]?) hdrop
        simpa using this
      have htail : statics.drop (s.taken + 1) = after := by
        have := congrArg (List.drop 1) hdrop
        simpa [Nat.add_comm] using this
      exact ⟨entry, hi, hget, by rw [htail, hdrop], by rwa [htail]⟩
    cases o with
    | integer value =>
      obtain ⟨entry, hi, -, hdrop, hmore⟩ := hnext hdefines
      cases hi
      rw [hdrop]
      exact congrArg (_ :: ·) (ih hmore hentry)
    | string value =>
      obtain ⟨entry, hi, -, hdrop, hmore⟩ := hnext hdefines
      cases hi
      rw [hdrop]
      exact congrArg (_ :: ·) (ih hmore hentry)
    | label node =>
      cases hslot : s.labels.lookup node with
      | some slot =>
        simp only [Slots.defineAll, Slots.entries, Slots.define, hslot] at hdefines hentry ⊢
        simpa using ih hdefines hentry
      | none =>
        simp only [Slots.defineAll, Slots.entries, Slots.define, hslot] at hdefines hentry ⊢
        obtain ⟨entry, hi, hget, hdrop, hmore⟩ := hnext hdefines
        have hlookup := hentry node s.taken (Slots.lookup_defineAll (by simp) os)
        cases hget.symm.trans hlookup
        rw [hdrop]
        exact congrArg (_ :: ·) (ih hmore hentry)
    | written place => exact ih hdefines hentry

/-! ## Programs -/

/-- The labels of a program have slots once the hoisted statements were made. -/
theorem covers_of_hoisted {p : Program} (hp : p.Ready) {ls : List Line}
    (hls : (p.statements.filter (p.isHoisted ·)).mapM p.line? = some ls) (s : Slots) :
    (s.lines ls).2.Covers p := by
  rintro id ⟨name, hid⟩
  obtain ⟨hdecl, hmem⟩ := hp.declared name id hid
  have hhoisted : id + 1 ∈ p.statements.filter (p.isHoisted ·) :=
    List.mem_filter.2 ⟨hmem, by simp [Program.isHoisted, hdecl, Node.Kind.isHoisted]⟩
  exact Slots.lookup_lines_of_mem ((mem_mapM_iff hls).2 ⟨id + 1, hhoisted, by simp [Program.line?, hdecl]⟩)

theorem agrees_start {p : Program} (hp : p.Ready) {shared : Shared} (hstatics : shared.statics = #[]) (log : Log) :
    Agrees p (p.parts p.statements) {} { program := p, shared, log } where
  size := rfl
  kind _ := rfl
  label id _ := hp.place id
  fresh id _ _ := hp.place id
  once := hp.once
  taken := by simp [hstatics]
  entry _ _ hslot := by cases hslot
  defines := by simp [hstatics, instructions]

/-- All statements of a ready program, the hoisted ones first. -/
theorem makes_lines {p : Program} (hp : p.Ready) {e : Emission} (h : Agrees p (p.parts p.statements) {} e)
    {ls : List Line} (hls : p.lines? = some ls) :
    ∃ e', Makes (p.statements.forM (statement p.size)) e () (({} : Slots).lines ls).1 e' ∧
      Agrees p [] (({} : Slots).lines ls).2 e' := by
  rw [Program.lines?, hp.hoisted_first, List.mapM_append] at hls
  simp only [Option.bind_eq_bind, Option.bind_eq_some_iff, Option.pure_def, Option.some.injEq] at hls
  obtain ⟨hoisted, hhoisted, others, hothers, rfl⟩ := hls
  rw [hp.hoisted_first, Program.parts_append] at h
  -- Once the hoisted statements were made, all labels have slots.
  obtain ⟨e₁, hmakes₁, hagrees₁⟩ := makes_statements hp h hhoisted (.inl fun id hid => (List.mem_filter.1 hid).2)
  rw [← List.append_nil (p.parts _)] at hagrees₁
  obtain ⟨e₂, hmakes₂, hagrees₂⟩ := makes_statements hp hagrees₁ hothers (.inr (covers_of_hoisted hp hhoisted {}))
  refine ⟨e₂, ?_, ?_⟩
  · have happend (ids ids' : List NodeId) : (ids ++ ids').forM (statement p.size) =
        (do ids.forM (statement p.size); ids'.forM (statement p.size)) := List.forM_append
    rw [hp.hoisted_first, Slots.lines_append, happend]
    exact hmakes₁.bind hmakes₂
  · rwa [Slots.lines_append]

/-- Emission succeeds on a ready program, and makes the plain code and the static area of its lines. -/
theorem makes_all {p : Program} (hp : p.Ready) {shared : Shared} (hstatics : shared.statics = #[]) {ls : List Line}
    (hls : p.lines? = some ls) :
    ∃ e', Makes (all []) { program := p, shared } () (plainCode ls) e' ∧
      e'.shared.statics.toList = plainStatics p.labelName ls ∧
      List.Forall₂ Instruction.Defines ((plainCode ls).filter (·.isDefinition)) e'.shared.statics.toList := by
  have hstart := agrees_start hp hstatics
    #[⟨.debug, .phase .compiler, "Emitting bytecode", [("statements", .nat p.statements.length)]⟩]
  obtain ⟨e', hmakes, hagrees⟩ := makes_lines hp hstart hls
  have hall : Makes (all []) { program := p, shared } () (plainCode ls)
      { e' with code := e'.code.push (.halt, e'.line) } := by
    rw [all, if_neg (by decide)]
    exact (makes_get _).silent_bind ((makes_tell _ _).silent_bind (hmakes.bind ((makes_get e').silent_bind (makes_emit ..))))
  have hdefines : List.Forall₂ Instruction.Defines ((plainCode ls).filter (·.isDefinition)) e'.shared.statics.toList := by
    have h := (hagrees.emit (i := .halt) rfl e'.line).defines
    rwa [hall.code] at h
  refine ⟨_, hall, ?_, hdefines⟩
  have hlines := Slots.filter_isDefinition_lines {} ls
  have hcode : (plainCode ls).filter (·.isDefinition) = (({} : Slots).defineAll (ls.flatMap Line.operands)).2.1 := by
    rw [← congrArg Prod.fst hlines, plainCode, List.filter_append, List.filter_cons_of_neg (by decide), List.filter_nil,
      List.append_nil]
  rw [hcode] at hdefines
  refine drop_eq_entries (s := {}) hdefines fun node slot hslot => ?_
  rw [← congrArg Prod.snd hlines] at hslot
  rw [Array.getElem?_toList]
  exact hagrees.entry node slot hslot

end Emission

end Assembler
