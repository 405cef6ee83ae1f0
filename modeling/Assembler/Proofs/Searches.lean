import Mathlib.Data.List.Perm.Subperm
import Mathlib.Data.List.Range
import Mathlib.Logic.Relation
import Assembler.Proofs.Scopes
/-!
# Searches outwards

A search of a name goes from scope to scope until the name is bound, there is no scope around, or the
next scope is gone (`SymbolTable.Search`). A search that ends is never cut off (`SymbolTable.Search.find?_eq`).
Indices of scopes that were closed are given to others, so a table that is asked to open a scope inside
one that is gone may come to have a scope inside itself, and a search from there has no end
(`SymbolTable.not_links_down`). In a table that only ever is asked with indices that it gave out, the way
out goes down but from the scopes that were opened like this: `SymbolTable.InUse.links_down`.
-/

namespace Assembler.SymbolTable

open Relation (ReflTransGen)

variable {t : SymbolTable} {name : String} {scope s : ScopeId} {seen seen' : List ScopeId} {found found' : Option NodeId}

/-! ## Searches -/

/-- A search of a name from a scope on, with the scopes of the table that it comes to and what it finds in the end. -/
inductive Search (t : SymbolTable) (name : String) : ScopeId → List ScopeId → Option NodeId → Prop
  | gone {scope : ScopeId} (hscope : t.scopeCount ≤ scope) : Search t name scope [] none
  | bound {scope : ScopeId} {node : NodeId} (hlocal : t.findLocal? scope name = some node) :
      Search t name scope [scope] (some node)
  | outermost {scope : ScopeId} (hscope : scope < t.scopeCount) (hlocal : t.findLocal? scope name = none)
      (hparent : t.parent? scope = none) : Search t name scope [scope] none
  | outward {scope parent : ScopeId} {seen : List ScopeId} {found : Option NodeId}
      (hlocal : t.findLocal? scope name = none) (hparent : t.parent? scope = some parent)
      (hrest : Search t name parent seen found) : Search t name scope (scope :: seen) found

theorem lt_of_findLocal? {node : NodeId} (h : t.findLocal? scope name = some node) : scope < t.scopeCount := by
  obtain ⟨s, hs, -⟩ := Option.bind_eq_some_iff.1 h
  exact (Array.getElem?_eq_some_iff.1 hs).1

theorem findLocal?_eq_none_of_gone (h : t.scopeCount ≤ scope) (name : String) : t.findLocal? scope name = none :=
  Option.eq_none_iff_forall_ne_some.2 fun _ hnode => Nat.not_lt.2 h (lt_of_findLocal? hnode)

theorem parent?_eq_none_of_gone (h : t.scopeCount ≤ scope) : t.parent? scope = none :=
  Option.eq_none_iff_forall_ne_some.2 fun _ hparent => Nat.not_lt.2 h (lt_of_parent? hparent)

namespace Search

/-- From a scope there is one search only. -/
theorem unique (h : t.Search name scope seen found) (h' : t.Search name scope seen' found') :
    seen = seen' ∧ found = found' := by
  induction h generalizing seen' found' with
  | gone hscope =>
    cases h' with
    | gone => exact ⟨rfl, rfl⟩
    | bound hlocal => exact absurd (lt_of_findLocal? hlocal) (Nat.not_lt.2 hscope)
    | outermost hscope' => exact absurd hscope' (Nat.not_lt.2 hscope)
    | outward _ hparent => exact absurd (lt_of_parent? hparent) (Nat.not_lt.2 hscope)
  | bound hlocal =>
    cases h' with
    | gone hscope => exact absurd (lt_of_findLocal? hlocal) (Nat.not_lt.2 hscope)
    | bound hlocal' => exact ⟨rfl, hlocal.symm.trans hlocal'⟩
    | outermost _ hlocal' => cases hlocal.symm.trans hlocal'
    | outward hlocal' => cases hlocal.symm.trans hlocal'
  | outermost hscope hlocal hparent =>
    cases h' with
    | gone hscope' => exact absurd hscope (Nat.not_lt.2 hscope')
    | bound hlocal' => cases hlocal.symm.trans hlocal'
    | outermost => exact ⟨rfl, rfl⟩
    | outward _ hparent' => cases hparent.symm.trans hparent'
  | outward hlocal hparent _ ih =>
    cases h' with
    | gone hscope => exact absurd (lt_of_parent? hparent) (Nat.not_lt.2 hscope)
    | bound hlocal' => cases hlocal.symm.trans hlocal'
    | outermost _ _ hparent' => cases hparent.symm.trans hparent'
    | outward _ hparent' hrest' =>
      cases hparent.symm.trans hparent'
      obtain ⟨rfl, rfl⟩ := ih hrest'
      exact ⟨rfl, rfl⟩

theorem lt_of_mem (h : t.Search name scope seen found) (hs : s ∈ seen) : s < t.scopeCount := by
  induction h with
  | gone => cases hs
  | bound hlocal => exact List.mem_singleton.1 hs ▸ lt_of_findLocal? hlocal
  | outermost hscope => exact List.mem_singleton.1 hs ▸ hscope
  | outward _ hparent _ ih =>
    rcases List.mem_cons.1 hs with rfl | hs
    · exact lt_of_parent? hparent
    · exact ih hs

/-- From a scope that a search comes to, it goes on as a search from there. -/
theorem of_mem (h : t.Search name scope seen found) (hs : s ∈ seen) :
    ∃ rest, t.Search name s rest found ∧ rest <:+ seen := by
  induction h with
  | gone => cases hs
  | bound hlocal =>
    obtain rfl := List.mem_singleton.1 hs
    exact ⟨_, .bound hlocal, List.suffix_rfl⟩
  | outermost hscope hlocal hparent =>
    obtain rfl := List.mem_singleton.1 hs
    exact ⟨_, .outermost hscope hlocal hparent, List.suffix_rfl⟩
  | outward hlocal hparent hrest ih =>
    rcases List.mem_cons.1 hs with rfl | hs
    · exact ⟨_, .outward hlocal hparent hrest, List.suffix_rfl⟩
    · obtain ⟨rest, hsearch, hsuffix⟩ := ih hs
      exact ⟨rest, hsearch, hsuffix.trans (List.suffix_cons ..)⟩

/-- A search that ends comes to no scope twice: it would go on from there as it did before, without an end. -/
theorem nodup (h : t.Search name scope seen found) : seen.Nodup := by
  induction h with
  | gone => exact List.nodup_nil
  | bound => exact List.pairwise_singleton ..
  | outermost => exact List.pairwise_singleton ..
  | outward hlocal hparent hrest ih =>
    refine List.nodup_cons.2 ⟨fun hagain => ?_, ih⟩
    obtain ⟨rest, hsearch, hsuffix⟩ := hrest.of_mem hagain
    obtain ⟨rfl, -⟩ := hsearch.unique (.outward hlocal hparent hrest)
    have hle := hsuffix.length_le
    rw [List.length_cons] at hle
    exact Nat.not_succ_le_self _ hle

theorem length_le (h : t.Search name scope seen found) : seen.length ≤ t.scopeCount := by
  have hsub : seen ⊆ List.range t.scopeCount := fun s hs => List.mem_range.2 (h.lt_of_mem hs)
  have hle := (List.subperm_of_subset h.nodup hsub).length_le
  rwa [List.length_range] at hle

theorem findWithin_eq (h : t.Search name scope seen found) {steps : Nat} (hsteps : seen.length ≤ steps) :
    t.findWithin name steps scope = found := by
  induction h generalizing steps with
  | gone hscope =>
    cases steps with
    | zero => rfl
    | succ steps => rw [findWithin_succ, findLocal?_eq_none_of_gone hscope, parent?_eq_none_of_gone hscope]; rfl
  | bound hlocal =>
    obtain ⟨steps, rfl⟩ := Nat.exists_eq_add_of_le' hsteps
    rw [List.length_singleton, findWithin_succ, hlocal]
    rfl
  | outermost _ hlocal hparent =>
    obtain ⟨steps, rfl⟩ := Nat.exists_eq_add_of_le' hsteps
    rw [List.length_singleton, findWithin_succ, hlocal, hparent]
    rfl
  | outward hlocal hparent _ ih =>
    obtain ⟨steps, rfl⟩ := Nat.exists_eq_add_of_le' hsteps
    rw [List.length_cons, ← Nat.add_assoc, findWithin_succ, hlocal, hparent]
    exact ih (Nat.le_add_left ..)

/-- What a search finds is found, whatever the table looks like. -/
theorem find?_eq (h : t.Search name scope seen found) : t.find? scope name = found :=
  h.findWithin_eq h.length_le

end Search

/-! ## Tables in use -/

/-- What becomes of a new table that is asked with indices that it gave out, of scopes that may be gone or opened again:
the table, the indices given out, and of each scope whether the one that it was opened inside of was there then. -/
inductive InUse : SymbolTable → List ScopeId → List Bool → Prop
  | new : InUse {} [root] [true]
  | openScope {t : SymbolTable} {given : List ScopeId} {inside : List Bool} {parent : ScopeId} (h : InUse t given inside)
      (hparent : parent ∈ given) :
      InUse (t.openScope parent).2 ((t.openScope parent).1 :: given) (inside ++ [decide (parent < t.scopeCount)])
  | closeScope {t : SymbolTable} {given : List ScopeId} {inside : List Bool} {scope : ScopeId} (h : InUse t given inside)
      (hscope : scope ∈ given) :
      InUse (t.closeScope scope).2 given (inside.take (t.closeScope scope).2.scopeCount)
  | bind {t : SymbolTable} {given : List ScopeId} {inside : List Bool} {scope : ScopeId} (h : InUse t given inside)
      (hscope : scope ∈ given) (name : String) (node : NodeId) : InUse (t.bind scope name node).2 given inside

/-- The scope around a scope comes before it just if it was there when the scope was opened. -/
structure LinkedBy (t : SymbolTable) (inside : List Bool) : Prop where
  length : inside.length = t.scopeCount
  parent_lt_iff : ∀ scope parent, t.parent? scope = some parent → (parent < scope ↔ inside[scope]? = some true)

namespace LinkedBy

variable {inside : List Bool} {parent : ScopeId}

theorem new : LinkedBy {} [true] where
  length := rfl
  parent_lt_iff := by
    intro scope parent hparent
    obtain rfl : scope = 0 := Nat.lt_one_iff.1 (lt_of_parent? hparent)
    cases hparent

theorem openScope (h : t.LinkedBy inside) (parent : ScopeId) :
    (t.openScope parent).2.LinkedBy (inside ++ [decide (parent < t.scopeCount)]) where
  length := by rw [scopeCount_openScope, List.length_append, h.length, List.length_singleton]
  parent_lt_iff := by
    intro scope outer houter
    rw [parent?_openScope] at houter
    split at houter
    · -- The new scope comes after those that are there, and before those that are not.
      rename_i hnew
      obtain rfl := Option.some.inj houter
      rw [hnew, ← h.length, List.getElem?_concat_length, Option.some.injEq, decide_eq_true_iff]
    · rw [List.getElem?_append_left (h.length ▸ lt_of_parent? houter)]
      exact h.parent_lt_iff scope outer houter

theorem closeScope (h : t.LinkedBy inside) (scope : ScopeId) :
    (t.closeScope scope).2.LinkedBy (inside.take (t.closeScope scope).2.scopeCount) := by
  rcases t.closeScope_eq scope with heq | ⟨-, hcount, hcount', hparent⟩
  · rwa [heq, ← h.length, List.take_length]
  · refine ⟨?_, fun s outer houter => ?_⟩
    · rw [List.length_take, h.length, hcount, hcount', Nat.min_eq_left (Nat.le_succ scope)]
    · have hlt := lt_of_parent? houter
      rw [List.getElem?_take_of_lt hlt]
      rw [hcount'] at hlt
      exact h.parent_lt_iff s outer ((hparent s hlt).symm.trans houter)

theorem bind (h : t.LinkedBy inside) (scope : ScopeId) (name : String) (node : NodeId) :
    (t.bind scope name node).2.LinkedBy inside where
  length := h.length.trans (scopeCount_bind ..).symm
  parent_lt_iff s outer houter := h.parent_lt_iff s outer ((parent?_bind ..).symm.trans houter)

/-- A search goes down and ends, or it may come to a scope whose link does not lead down. -/
theorem search_or (h : t.LinkedBy inside) (name : String) (scope : ScopeId) :
    (∃ seen found, t.Search name scope seen found ∧ seen.Pairwise (· > ·) ∧ ∀ s ∈ seen, s ≤ scope) ∨
      ∃ s, ReflTransGen (fun s parent => t.parent? s = some parent) scope s ∧ inside[s]? = some false := by
  induction scope using Nat.strongRecOn with
  | ind scope ih =>
    by_cases hscope : t.scopeCount ≤ scope
    · exact .inl ⟨_, _, .gone hscope, .nil, by simp⟩
    have hlt := Nat.lt_of_not_le hscope
    cases hlocal : t.findLocal? scope name with
    | some node => exact .inl ⟨_, _, .bound hlocal, List.pairwise_singleton .., by simp⟩
    | none =>
      cases hparent : t.parent? scope with
      | none => exact .inl ⟨_, _, .outermost hlt hlocal hparent, List.pairwise_singleton .., by simp⟩
      | some parent =>
        obtain ⟨flag, hflag⟩ : ∃ flag, inside[scope]? = some flag := ⟨_, List.getElem?_eq_getElem (h.length ▸ hlt)⟩
        cases flag with
        | false => exact .inr ⟨scope, .refl, hflag⟩
        | true =>
          have hdown : parent < scope := (h.parent_lt_iff scope parent hparent).2 hflag
          rcases ih parent hdown with ⟨seen, found, hsearch, hpairwise, hle⟩ | ⟨s, hway, hs⟩
          · have hseen : ∀ s ∈ seen, s < scope := fun s hs => Nat.lt_of_le_of_lt (hle s hs) hdown
            refine .inl ⟨_, _, .outward hlocal hparent hsearch, List.pairwise_cons.2 ⟨hseen, hpairwise⟩, ?_⟩
            exact List.forall_mem_cons.2 ⟨Nat.le_refl scope, fun s hs => Nat.le_of_lt (hseen s hs)⟩
          · exact .inr ⟨s, .head hparent hway, hs⟩

end LinkedBy

namespace InUse

variable {given : List ScopeId} {inside : List Bool}

theorem linkedBy (h : InUse t given inside) : t.LinkedBy inside := by
  induction h with
  | new => exact .new
  | openScope _ _ ih => exact ih.openScope _
  | closeScope _ _ ih => exact ih.closeScope _
  | bind _ _ name node ih => exact ih.bind _ name node

/-- The link of a scope leads down the table just if it was opened inside a scope that was there. From any index, gone or
not, the search of a name goes down and ends, unless its way leads past a scope that was opened inside one that was gone. -/
theorem links_down (h : InUse t given inside) :
    (∀ scope parent, t.parent? scope = some parent → (parent < scope ↔ inside[scope]? = some true)) ∧
    (∀ scope name, (∃ seen found, t.Search name scope seen found ∧ seen.Pairwise (· > ·)) ∨
      ∃ s, ReflTransGen (fun s parent => t.parent? s = some parent) scope s ∧ inside[s]? = some false) ∧
    ∀ scope name seen found, t.Search name scope seen found → t.find? scope name = found := by
  refine ⟨h.linkedBy.parent_lt_iff, fun scope name => ?_, fun _ _ _ _ => Search.find?_eq⟩
  refine (h.linkedBy.search_or name scope).imp_left ?_
  rintro ⟨seen, found, hsearch, hpairwise, -⟩
  exact ⟨seen, found, hsearch, hpairwise⟩

/-- Here a scope is opened inside one that is gone, whose index is then given to another: the first is found to be inside
the second, but comes before it. The search of a name that is bound in the second ends all the same. -/
theorem links_down_of_reopened : ∃ t given inside, InUse t given inside ∧ inside = [true, false, true] ∧
    (t.parent? 1 = some 2 ∧ ¬ 2 < 1) ∧ (t.parent? 2 = some 0 ∧ 0 < 2) ∧
    (∃ seen found, t.Search "x" 2 seen found ∧ seen.Pairwise (· > ·)) ∧ t.find? 1 "x" = some 9 := by
  have h : InUse _ _ _ := new
    |>.openScope (show 0 ∈ _ by decide)
    |>.openScope (show 1 ∈ _ by decide)
    |>.closeScope (show 2 ∈ _ by decide)
    |>.closeScope (show 1 ∈ _ by decide)
    |>.openScope (show 2 ∈ _ by decide)
    |>.openScope (show 0 ∈ _ by decide)
    |>.bind (show 2 ∈ _ by decide) "x" 9
  obtain ⟨hdown, hends, hfind⟩ := h.links_down
  refine ⟨_, _, _, h, rfl, ⟨rfl, fun hlt => ?_⟩, ⟨rfl, (hdown 2 0 rfl).2 rfl⟩, (hends 2 "x").resolve_right ?_, ?_⟩
  · cases (hdown 1 2 rfl).1 hlt
  · rintro ⟨s, hway, hs⟩
    rcases hway.cases_head with rfl | ⟨parent, hparent, hway⟩
    · cases hs
    · cases hparent
      rcases hway.cases_head with rfl | ⟨outer, houter, -⟩
      · cases hs
      · cases houter
  · exact hfind 1 "x" [1, 2] (some 9) (.outward rfl rfl (.bound rfl))

end InUse

/-! ## Scopes inside themselves -/

theorem not_search_of_self (hlocal : t.findLocal? scope name = none) (hparent : t.parent? scope = some scope) :
    ¬ t.Search name scope seen found := by
  intro h
  cases h with
  | gone hscope => exact absurd (lt_of_parent? hparent) (Nat.not_lt.2 hscope)
  | bound hlocal' => cases hlocal.symm.trans hlocal'
  | outermost _ _ hparent' => cases hparent.symm.trans hparent'
  | outward _ hparent' hrest =>
    cases hparent.symm.trans hparent'
    exact List.cons_ne_self _ _ ((Search.outward hlocal hparent hrest).unique hrest).1

/-- A scope that is opened inside the one that was just closed is given its index. So it is inside itself: its link does
not lead down, and no search of a name from there comes to an end. -/
theorem not_links_down : ∃ t given inside, InUse t given inside ∧ t.parent? 1 = some 1 ∧
    ∀ name seen found, ¬ t.Search name 1 seen found := by
  have h : InUse _ _ _ := InUse.new
    |>.openScope (show 0 ∈ _ by decide)
    |>.closeScope (show 1 ∈ _ by decide)
    |>.openScope (show 1 ∈ _ by decide)
  exact ⟨_, _, _, h, rfl, fun name _ _ => not_search_of_self rfl rfl⟩

end Assembler.SymbolTable
