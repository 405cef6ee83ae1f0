import Mathlib.Data.List.Flatten
import Mathlib.Data.List.Perm.Subperm
import Mathlib.Data.List.Range
import Assembler.Proofs.Bindings
/-!
# Programs are well formed

In a program that was read every node is made of operands before it, whether it became part of a
statement or was left over from a line that was given up, and no node but a label is referred to
twice in the whole arena (`Program.references`). Nodes that are made of others are statements
(`Stage.Listed`), so what is taken once by the statements is taken once by all nodes. Main
statement: `Workspace.wellFormed_parse`.
-/

namespace Assembler

/-! ## What refers to a node -/

namespace Program

variable {p : Program}

/-- All that is referred to: the statements, and what any node is made of. -/
def references (p : Program) : List NodeId := p.statements ++ (List.range p.size).flatMap p.children

theorem children_push_eq (p : Program) (kind : Node.Kind) (location : Location) (id : NodeId) :
    (p.push kind location).2.children id = if id = p.size then kind.children else p.children id := by
  simp only [children, kind?_push]
  split <;> rfl

theorem count_parts (ids : List NodeId) (c : NodeId) :
    (p.parts ids).count c = ids.count c + (ids.flatMap p.children).count c := by
  induction ids with
  | nil => rfl
  | cons id ids ih =>
    rw [parts_cons, List.flatMap_cons, List.count_cons, List.count_append, List.count_append, ih, List.count_cons]
    omega

/-- Nodes that are made of nothing refer to nothing. -/
theorem flatMap_children_filter (ids : List NodeId) :
    (ids.filter (p.children · ≠ [])).flatMap p.children = ids.flatMap p.children := by
  induction ids with
  | nil => rfl
  | cons id ids ih =>
    by_cases hid : p.children id = []
    · rw [List.filter_cons_of_neg (by simpa using hid), List.flatMap_cons, hid, ih, List.nil_append]
    · rw [List.filter_cons_of_pos (by simpa using hid), List.flatMap_cons, List.flatMap_cons, ih]

/-- Where nodes that are made of others are statements, a node is referred to only as a statement or a part of one. -/
theorem count_references_le (h : ∀ id, p.children id ≠ [] → id ∈ p.statements) (c : NodeId) :
    p.references.count c ≤ (p.parts p.statements).count c := by
  have hsub : (List.range p.size).filter (p.children · ≠ []) ⊆ p.statements := fun id hid => by
    simpa using h id (by simpa using (List.mem_filter.1 hid).2)
  obtain ⟨ids, hperm, hsublist⟩ := List.subperm_of_subset (List.nodup_range.filter _) hsub
  have hle : ((List.range p.size).flatMap p.children).count c ≤ (p.statements.flatMap p.children).count c := by
    rw [← flatMap_children_filter, ← (hperm.flatMap_right p.children).count_eq]
    exact (hsublist.flatMap p.children).count_le c
  rw [references, List.count_append, count_parts]
  exact Nat.add_le_add_left hle _

end Program

/-! ## While a program is read -/

namespace Stage

/-- Every node that is made of others is a statement. -/
def Listed (s : Stage) : Prop := ∀ id, s.workspace.program.children id ≠ [] → id ∈ s.statements

/-- A new node is listed if it is made of nothing or is a statement. -/
theorem Listed.push {w : Workspace} {os os' ss ss' : List NodeId} (h : Listed ⟨w, os, ss⟩) {kind : Node.Kind}
    {location : Location} (hnew : kind.children ≠ [] → w.program.size ∈ ss') (hss : ss ⊆ ss') :
    Listed ⟨(w.push kind location).2, os', ss'⟩ := by
  intro id hid
  change (w.program.push kind location).2.children id ≠ [] at hid
  rw [Program.children_push_eq] at hid
  split at hid
  · subst_vars
    exact hnew hid
  · exact hss (h id hid)

theorem Listed.step {s s' : Stage} (h : s.Listed) (hstep : Step s s') : s'.Listed := by
  cases hstep with
  | log | report | inside | named | drop => exact h
  | leaf w kind location os ss hleaf =>
    exact h.push (fun hne => by cases hleaf <;> exact absurd rfl hne) (List.Subset.refl ss)
  | bare w o os ss => exact fun id hid => List.mem_cons_of_mem o (h id hid)
  | take w kind location os ss => exact h.push (fun _ => List.mem_cons_self) (List.subset_cons_self ..)
  | declare w name location os ss =>
    have hlabel : Listed ⟨(w.push (.label name) location).2, os, ss⟩ := h.push (fun hne => absurd rfl hne) (List.Subset.refl ss)
    have hbound : Listed ⟨((w.push (.label name) location).2.bind name w.program.size).2, os, ss⟩ := hlabel
    exact hbound.push (fun _ => List.mem_cons_self) (List.subset_cons_self ..)

theorem Listed.steps {s s' : Stage} (h : s.Listed) (hsteps : Steps s s') : s'.Listed := by
  induction hsteps with
  | refl => exact h
  | tail _ hstep ih => exact ih.step hstep

theorem listed_fresh (log : Log) : Listed ⟨{ log }, [], []⟩ := by
  simp [Listed, Program.children, Program.kind?, Program.node?]

end Stage

/-! ## Programs -/

namespace Workspace

/-- A workspace whose program is well formed, with the statements that its lines were read as. -/
structure WellFormed (w : Workspace) (lines : List NodeId) : Prop where
  /-- A node is made of operands that come before it. -/
  child : ∀ id, ∀ c ∈ w.program.children id, c < id ∧ id < w.program.size ∧ w.program.IsOperand c
  place : ∀ id, w.program.place? id = none
  unbound : ∀ id name b, w.program.kind? id = some (.identifier name b) → b = none
  /-- No node but a label is referred to twice, be it as a statement or by another node. -/
  once : ∀ id, ¬ w.program.IsLabel id → w.program.references.count id ≤ 1
  hoisted_first : w.program.statements = lines.filter (w.program.isHoisted ·) ++ lines.filter (!w.program.isHoisted ·)
  declares : ∀ id name label, w.program.kind? id = some (.labelDecl name label) →
    id ∈ w.program.statements ∧ w.program.kind? label = some (.label name)
  scope : w.session.scope = SymbolTable.root
  /-- There is no scope but the root, which binds a name just if a statement declares it, to the label of the last one. -/
  root : ∃ root : Scope, w.shared.symbols.scopes = #[root] ∧
    ∀ name, root.find? name = w.program.lastDeclared? name w.program.statements

theorem listed_parse (file : String) (tokens : List Token) (log : Log) :
    Stage.Listed ⟨parse file tokens { log }, [], (parse file tokens { log }).program.statements⟩ := by
  obtain ⟨log', hparse⟩ := exists_parse_eq log file tokens
  have hlisted := (Stage.listed_fresh #[]).steps (Draft.steps_read tokens {} [])
  intro id hid
  have hmem : id ∈ Draft.inOrder tokens {} := by
    rw [hparse] at hid
    simpa using hlisted id hid
  rw [statements_parse]
  exact (List.filter_append_perm _ _).mem_iff.2 hmem

/-- Every program that is read to its end is well formed, whatever its tokens are. -/
theorem wellFormed_parse (file : String) (tokens : List Token) (log : Log) :
    (parse file tokens { log }).WellFormed (Draft.inOrder tokens {}) := by
  have hread := isRead_parse file tokens log
  have hsound := hread.sound
  have hlisted := listed_parse file tokens log
  set w := parse file tokens { log }
  obtain ⟨root, hroot⟩ := hsound.named.only
  refine
    { child := fun id c hc => ?_
      place := fun id => ?_
      unbound := fun id name b hk => ?_
      once := fun id hid => ?_
      hoisted_first := statements_parse file tokens log
      declares := fun id name label hk => ⟨hlisted id ?_, hread.bound.declares id name label hk⟩
      scope := hsound.named.scope
      root := ⟨root, hroot, fun name => ?_⟩ }
  · obtain ⟨hlt, hoperand⟩ := hsound.formed.child hc
    exact ⟨hlt, hsound.formed.statement id (hlisted id (List.ne_nil_of_mem hc)), hoperand⟩
  · cases hn : w.program.node? id with
    | none => simp [Program.place?, hn]
    | some n => simp [Program.place?, hn, (hsound.formed.node id n hn).place]
  · cases hk.symm.trans (hread.unbound hk)
    rfl
  · have honce : (w.program.parts w.program.statements).count id + 0 ≤ 1 := hsound.formed.once id hid
    exact Nat.le_trans (Program.count_references_le hlisted id) honce
  · rw [Program.children_of_kind? hk]
    exact List.cons_ne_nil label []
  · rw [← hsound.named.toRooted.find? hroot, hread.latest]

end Workspace

end Assembler
