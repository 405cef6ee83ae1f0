import Assembler.Symbols
/-!
# Scopes inside scopes

The way out of a scope (`SymbolTable.Outward`) is a list of scopes. Where every scope but the root
is inside one that was opened before it (`SymbolTable.Nested`), each scope has such a way, and a name
is found where it is bound first on the way: `SymbolTable.Nested.find?_eq`.
-/

namespace Assembler.SymbolTable

variable {t : SymbolTable} {scope parent : ScopeId} {name : String} {way : List ScopeId}

/-! ## What is read from a table that was changed -/

@[simp] theorem scopeCount_openScope (t : SymbolTable) (parent : ScopeId) :
    (t.openScope parent).2.scopeCount = t.scopeCount + 1 := by
  simp [openScope, scopeCount]

theorem parent?_openScope (t : SymbolTable) (parent scope : ScopeId) :
    (t.openScope parent).2.parent? scope = if scope = t.scopeCount then some parent else t.parent? scope := by
  simp only [openScope, parent?, Array.getElem?_push, scopeCount]
  split
  · simp [*]
  · simp [*]

/-- The root stays open, and so does a scope after which another was opened. -/
theorem closeScope_eq (t : SymbolTable) (scope : ScopeId) :
    (t.closeScope scope).2 = t ∨
      scope ≠ root ∧ t.scopeCount = scope + 1 ∧ (t.closeScope scope).2.scopeCount = scope ∧
        ∀ other < scope, (t.closeScope scope).2.parent? other = t.parent? other := by
  unfold closeScope
  split
  · rename_i h
    refine .inr ⟨h.1, h.2.symm, ?_, fun other hother => ?_⟩
    · simp [scopeCount, ← h.2]
    · have hlt : other < t.scopes.size - 1 := by
        rw [← h.2]
        exact hother
      simp only [parent?, Array.getElem?_pop, if_pos hlt]
  · exact .inl rfl

@[simp] theorem scopeCount_bind (t : SymbolTable) (scope : ScopeId) (name : String) (node : NodeId) :
    (t.bind scope name node).2.scopeCount = t.scopeCount := by
  simp [bind, scopeCount]

@[simp] theorem parent?_bind (t : SymbolTable) (scope : ScopeId) (name : String) (node : NodeId) (other : ScopeId) :
    (t.bind scope name node).2.parent? other = t.parent? other := by
  simp only [bind, parent?, Array.getElem?_modify]
  split
  · cases t.scopes[other]? <;> rfl
  · rfl

/-- A name that is bound in a scope is bound there from then on, and nothing else changes. -/
theorem findLocal?_bind (h : scope < t.scopeCount) (name : String) (node : NodeId) (other : ScopeId) (name' : String) :
    (t.bind scope name node).2.findLocal? other name' =
      if other = scope ∧ name' = name then some node else t.findLocal? other name' := by
  simp only [bind, findLocal?, Array.getElem?_modify]
  by_cases hother : other = scope
  · subst hother
    rw [Array.getElem?_eq_getElem h]
    by_cases hname : name' = name
    · simp [hname, Scope.bind, Scope.find?]
    · simp [hname, Scope.bind, Scope.find?, List.lookup_cons, beq_false_of_ne hname]
  · simp [hother, Ne.symm hother]

/-! ## Ways out -/

/-- The scopes on the way out of a scope: itself, the scope around it, and so on up to one with none around it. -/
inductive Outward (t : SymbolTable) : ScopeId → List ScopeId → Prop
  | outermost {scope : ScopeId} (hscope : scope < t.scopeCount) (hparent : t.parent? scope = none) : Outward t scope [scope]
  | inside {scope parent : ScopeId} {way : List ScopeId} (hparent : t.parent? scope = some parent)
      (hway : Outward t parent way) : Outward t scope (scope :: way)

/-- A scope that has a scope around it is in the table. -/
theorem lt_of_parent? (h : t.parent? scope = some parent) : scope < t.scopeCount := by
  obtain ⟨s, hs, -⟩ := Option.bind_eq_some_iff.1 h
  exact (Array.getElem?_eq_some_iff.1 hs).1

theorem Outward.lt (h : t.Outward scope way) : scope < t.scopeCount := by
  cases h with
  | outermost hscope => exact hscope
  | inside hparent => exact lt_of_parent? hparent

/-- A change that leaves the scopes and what is around them leaves the ways out. -/
theorem Outward.congr {t' : SymbolTable} (h : t.Outward scope way) (hcount : t'.scopeCount = t.scopeCount)
    (hparent : ∀ other, t'.parent? other = t.parent? other) : t'.Outward scope way := by
  induction h with
  | outermost hscope hnone => exact .outermost (hcount ▸ hscope) ((hparent _).trans hnone)
  | inside hsome _ ih => exact .inside ((hparent _).trans hsome) ih

/-- One step of a search: the scope itself, then the way on from the scope around it. -/
theorem findWithin_succ (t : SymbolTable) (name : String) (steps : Nat) (scope : ScopeId) :
    t.findWithin name (steps + 1) scope =
      (t.findLocal? scope name).or ((t.parent? scope).bind (t.findWithin name steps)) := by
  simp only [findWithin, findLocal?, parent?]
  cases t.scopes[scope]? with
  | none => rfl
  | some s =>
    simp only [Option.bind_some]
    cases s.find? name with
    | some node => rfl
    | none => cases s.parent <;> rfl

/-- A name is found where it is bound first on the way out, if the search goes that far. -/
theorem Outward.findWithin_eq (h : t.Outward scope way) (name : String) {steps : Nat} (hsteps : way.length ≤ steps) :
    t.findWithin name steps scope = way.findSome? (t.findLocal? · name) := by
  induction h generalizing steps with
  | outermost _ hnone =>
    obtain ⟨steps, rfl⟩ := Nat.exists_eq_add_of_le' hsteps
    rw [List.length_singleton, findWithin_succ, hnone, Option.bind_none, Option.or_none]
    simp
  | inside hsome _ ih =>
    obtain ⟨steps, rfl⟩ := Nat.exists_eq_add_of_le' hsteps
    rw [List.length_cons, ← Nat.add_assoc, findWithin_succ, hsome, Option.bind_some, ih (Nat.le_add_left ..)]
    simp only [List.findSome?_cons]
    cases t.findLocal? _ name <;> rfl

/-! ## Nesting -/

/-- Every scope but the root is inside one that was opened before it. -/
structure Nested (t : SymbolTable) : Prop where
  root_lt : root < t.scopeCount
  root_outermost : t.parent? root = none
  parent_lt : ∀ scope < t.scopeCount, scope ≠ root → ∃ parent < scope, t.parent? scope = some parent

namespace Nested

theorem lt_of_parent? (h : t.Nested) (hparent : t.parent? scope = some parent) : parent < scope := by
  have hne : scope ≠ root := by
    rintro rfl
    rw [h.root_outermost] at hparent
    cases hparent
  obtain ⟨parent', hlt, hparent'⟩ := h.parent_lt scope (SymbolTable.lt_of_parent? hparent) hne
  obtain rfl : parent' = parent := Option.some.inj (hparent'.symm.trans hparent)
  exact hlt

theorem exists_outward (h : t.Nested) (hscope : scope < t.scopeCount) : ∃ way, t.Outward scope way := by
  induction scope using Nat.strongRecOn with
  | ind scope ih =>
    by_cases hroot : scope = root
    · subst hroot
      exact ⟨[root], .outermost hscope h.root_outermost⟩
    · obtain ⟨parent, hlt, hparent⟩ := h.parent_lt scope hscope hroot
      obtain ⟨way, hway⟩ := ih parent hlt (Nat.lt_trans hlt hscope)
      exact ⟨scope :: way, .inside hparent hway⟩

/-- The way out of a scope goes down the table, so it is no longer than the table is up to there. -/
theorem length_le (h : t.Nested) (hway : t.Outward scope way) : way.length ≤ scope + 1 := by
  induction hway with
  | outermost => exact Nat.le_add_left ..
  | inside hparent _ ih =>
    exact Nat.succ_le_succ (Nat.le_trans ih (h.lt_of_parent? hparent))

/-- A search of a name is never cut off. -/
theorem find?_eq (h : t.Nested) (hway : t.Outward scope way) (name : String) :
    t.find? scope name = way.findSome? (t.findLocal? · name) :=
  hway.findWithin_eq name (Nat.le_trans (h.length_le hway) hway.lt)

/-! ## Nesting is kept -/

theorem openScope (h : t.Nested) (hparent : parent < t.scopeCount) : (t.openScope parent).2.Nested where
  root_lt := by
    rw [scopeCount_openScope]
    exact Nat.lt_succ_of_lt h.root_lt
  root_outermost := by
    rw [parent?_openScope, if_neg (Nat.ne_of_lt h.root_lt), h.root_outermost]
  parent_lt := by
    intro scope hscope hroot
    rw [scopeCount_openScope] at hscope
    rw [parent?_openScope]
    by_cases hnew : scope = t.scopeCount
    · exact ⟨parent, hnew ▸ hparent, if_pos hnew⟩
    · rw [if_neg hnew]
      exact h.parent_lt scope (Nat.lt_of_le_of_ne (Nat.le_of_lt_succ hscope) hnew) hroot

theorem closeScope (h : t.Nested) (scope : ScopeId) : (t.closeScope scope).2.Nested := by
  rcases t.closeScope_eq scope with heq | ⟨hroot, hcount, hcount', hparent⟩
  · rwa [heq]
  · have hpos : root < scope := Nat.pos_of_ne_zero hroot
    refine ⟨by rwa [hcount'], (hparent _ hpos).trans h.root_outermost, fun other hother hne => ?_⟩
    rw [hcount'] at hother
    rw [hparent other hother]
    exact h.parent_lt other (hcount ▸ Nat.lt_succ_of_lt hother) hne

theorem bind (h : t.Nested) (scope : ScopeId) (name : String) (node : NodeId) : (t.bind scope name node).2.Nested := by
  refine ⟨?_, ?_, ?_⟩
  · rw [scopeCount_bind]
    exact h.root_lt
  · rw [parent?_bind]
    exact h.root_outermost
  · simpa using h.parent_lt

end Nested

end Assembler.SymbolTable
