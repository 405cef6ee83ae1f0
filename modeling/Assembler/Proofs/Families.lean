import Mathlib.Logic.Relation
import Assembler.Proofs.Scopes
import Assembler.Session.Family
/-!
# Families over time

Members of a family are grown from members, absorb each other in any order and bind names. A lineage
keeps, beside a family, which member each was grown from. Whatever a family went through
(`Lineage.Steps`), every scope belongs to one member that was grown there, and the scopes around it
to the members that one descends from: `Lineage.Owned`. So no two members share a scope, and a name
that a member binds is seen by itself and its descendants only (`Lineage.scopes_kept_apart`).
-/

namespace Assembler

open Relation (ReflTransGen TransGen)

theorem findSome?_congr {α β : Type} {f g : α → Option β} {as : List α} (h : ∀ a ∈ as, f a = g a) :
    as.findSome? f = as.findSome? g := by
  induction as with
  | nil => rfl
  | cons a as ih =>
    rw [List.findSome?_cons, List.findSome?_cons, h a List.mem_cons_self, ih fun b hb => h b (List.mem_cons_of_mem _ hb)]

namespace Family

variable {f f' : Family} {handle absorbed new : Nat} {scope : ScopeId}

/-! ## What the operations do -/

/-- The scope of a member that has not been absorbed. -/
def scope? (f : Family) (handle : Nat) : Option ScopeId := (f.member? handle).map (·.scope)

theorem lt_of_member? {s : Session} (h : f.member? handle = some s) : handle < f.members.size := by
  obtain ⟨m, hm, -⟩ := Option.bind_eq_some_iff.1 h
  exact (Array.getElem?_eq_some_iff.1 hm).1

theorem lt_of_scope? (h : f.scope? handle = some scope) : handle < f.members.size := by
  obtain ⟨s, hs, -⟩ := Option.map_eq_some_iff.1 h
  exact lt_of_member? hs

/-- A new member has a new scope inside that of the member it was grown from. -/
theorem of_child (h : f.child handle = some (new, f')) :
    new = f.members.size ∧ f'.members.size = f.members.size + 1 ∧
      ∃ scope, f.scope? handle = some scope ∧ f'.shared.symbols = (f.shared.symbols.openScope scope).2 ∧
        ∀ other, f'.scope? other = if other = new then some f.shared.symbols.scopeCount else f.scope? other := by
  obtain ⟨s, hs, heq⟩ := Option.map_eq_some_iff.1 h
  obtain ⟨rfl, rfl⟩ := Prod.mk.inj heq
  refine ⟨rfl, by simp, s.scope, by simp [scope?, hs], rfl, fun other => ?_⟩
  simp only [scope?, member?, Array.getElem?_push]
  split
  · rfl
  · rfl

/-- A member that is absorbed is gone, and its scope is closed if it can be. -/
theorem of_absorb (h : f.absorb handle absorbed = some f') :
    f'.members.size = f.members.size ∧
      ∃ scope, f.scope? absorbed = some scope ∧ f'.shared.symbols = (f.shared.symbols.closeScope scope).2 ∧
        ∀ other, f'.scope? other = if other = absorbed then none else f.scope? other := by
  unfold absorb at h
  split at h
  · cases h
  · rename_i hne
    split at h
    · rename_i s c hs hc
      obtain rfl := Option.some.inj h
      refine ⟨by simp, c.scope, by simp [scope?, hc], rfl, fun other => ?_⟩
      have hlt := lt_of_member? hs
      have hlt' := lt_of_member? hc
      by_cases hother : other = absorbed
      · simp [scope?, member?, hother, hne, hlt']
      · rw [if_neg hother]
        by_cases hother' : other = handle
        · subst hother'
          rw [scope?, scope?, hs]
          simp [member?, hlt]
        · simp [scope?, member?, Ne.symm hother, Ne.symm hother']
    · cases h

/-- A member binds names in its scope, and nothing else changes. -/
theorem bind_eq (h : f.scope? handle = some scope) (name : String) (node : NodeId) :
    f.bind handle name node = some (f.shared.symbols.findLocal? scope name,
      { f with shared := { f.shared with symbols := (f.shared.symbols.bind scope name node).2 } }) := by
  obtain ⟨s, hs, rfl⟩ := Option.map_eq_some_iff.1 h
  simp only [bind, hs, Option.map_some]
  rfl

theorem find?_eq (h : f.scope? handle = some scope) (name : String) :
    f.find? handle name = f.shared.symbols.find? scope name := by
  obtain ⟨s, hs, rfl⟩ := Option.map_eq_some_iff.1 h
  simp only [find?, hs, Option.bind_some]
  rfl

end Family

/-! ## Lineages -/

/-- A family, and for each member the one it was grown from; the first was grown from none. -/
structure Lineage where
  family : Family := {}
  parents : List (Option Nat) := [none]

namespace Lineage

abbrev symbols (l : Lineage) : SymbolTable := l.family.shared.symbols

/-- What can be done with the members of a family. -/
inductive Step : Lineage → Lineage → Prop
  | child {l : Lineage} {handle new : Nat} {f : Family} (h : l.family.child handle = some (new, f)) :
      Step l ⟨f, l.parents ++ [some handle]⟩
  | absorb {l : Lineage} {handle absorbed : Nat} {f : Family} (h : l.family.absorb handle absorbed = some f) :
      Step l ⟨f, l.parents⟩
  | bind {l : Lineage} {handle : Nat} {name : String} {node : NodeId} {old : Option NodeId} {f : Family}
      (h : l.family.bind handle name node = some (old, f)) : Step l ⟨f, l.parents⟩

/-- A lineage that steps lead to. -/
abbrev Steps : Lineage → Lineage → Prop := ReflTransGen Step

/-- A member was grown from another, directly or through others. -/
def Descends (l : Lineage) : Nat → Nat → Prop :=
  TransGen fun handle parent => l.parents[handle]? = some (some parent)

/-- Every scope has an owner: a member has its scope, and was grown from the owner of the scope around it. -/
structure Owned (l : Lineage) (owners : List Nat) : Prop where
  nested : l.symbols.Nested
  length : owners.length = l.symbols.scopeCount
  members : l.parents.length = l.family.members.size
  owner_lt : ∀ owner ∈ owners, owner < l.parents.length
  scope : ∀ handle scope, l.family.scope? handle = some scope → owners[scope]? = some handle
  parent : ∀ scope parent owner, l.symbols.parent? scope = some parent → owners[scope]? = some owner →
    ∃ owner', owners[parent]? = some owner' ∧ l.parents[owner]? = some (some owner')

namespace Owned

variable {l : Lineage} {owners : List Nat} {handle handle' : Nat} {scope : ScopeId} {f : Family}

theorem scope_lt (h : l.Owned owners) (hscope : l.family.scope? handle = some scope) : scope < l.symbols.scopeCount := by
  obtain ⟨hlt, -⟩ := List.getElem?_eq_some_iff.1 (h.scope handle scope hscope)
  exact h.length ▸ hlt

/-! ### Every step keeps the owners -/

theorem start : ({} : Lineage).Owned [0] where
  nested := ⟨Nat.zero_lt_one, rfl, fun scope hscope hroot => absurd (Nat.lt_one_iff.1 hscope) hroot⟩
  length := rfl
  members := rfl
  owner_lt := by simp
  scope := by
    intro handle scope hscope
    obtain rfl : handle = 0 := Nat.lt_one_iff.1 (Family.lt_of_scope? hscope)
    cases hscope
    rfl
  parent := by
    intro scope parent owner hparent
    have hlt := SymbolTable.lt_of_parent? hparent
    obtain rfl : scope = 0 := Nat.lt_one_iff.1 hlt
    cases hparent

/-- A new member owns the new scope. -/
theorem child {new : Nat} (h : l.Owned owners) (hchild : l.family.child handle = some (new, f)) :
    Owned ⟨f, l.parents ++ [some handle]⟩ (owners ++ [new]) := by
  obtain ⟨rfl, hsize, outer, houter, hsymbols, hscope⟩ := Family.of_child hchild
  have hnew : l.family.members.size = l.parents.length := h.members.symm
  have hcount : l.symbols.scopeCount = owners.length := h.length.symm
  refine ⟨?_, ?_, ?_, ?_, ?_, ?_⟩
  · change f.shared.symbols.Nested
    rw [hsymbols]
    exact h.nested.openScope (h.scope_lt houter)
  · change _ = f.shared.symbols.scopeCount
    simp [hsymbols, h.length]
  · simp [hsize, h.members]
  · intro owner howner
    rw [List.length_append, List.length_singleton, Nat.lt_succ_iff]
    rcases List.mem_append.1 howner with howner | howner
    · exact Nat.le_of_lt (h.owner_lt owner howner)
    · exact Nat.le_of_eq ((List.mem_singleton.1 howner).trans hnew)
  · intro other scope hother
    simp only [hscope] at hother
    split at hother
    · subst_vars
      obtain rfl := Option.some.inj hother
      simp [hcount]
    · rw [List.getElem?_append_left (hcount ▸ h.scope_lt hother)]
      exact h.scope other scope hother
  · intro scope parent owner hparent howner
    have hparent : f.shared.symbols.parent? scope = some parent := hparent
    rw [hsymbols, SymbolTable.parent?_openScope] at hparent
    by_cases hlast : scope = l.symbols.scopeCount
    · -- The new scope is inside that of the member the new one was grown from.
      rw [if_pos hlast] at hparent
      obtain rfl := Option.some.inj hparent
      have howner : owner = l.family.members.size := by simpa [hlast, hcount, eq_comm] using howner
      refine ⟨handle, ?_, ?_⟩
      · rw [List.getElem?_append_left (hcount ▸ h.scope_lt houter)]
        exact h.scope handle _ houter
      · simp [howner, hnew]
    · rw [if_neg hlast] at hparent
      have hlt := hcount ▸ SymbolTable.lt_of_parent? hparent
      rw [List.getElem?_append_left hlt] at howner
      obtain ⟨owner', howner', hgrown⟩ := h.parent scope parent owner hparent howner
      refine ⟨owner', ?_, ?_⟩
      · rw [List.getElem?_append_left (Nat.lt_trans (h.nested.lt_of_parent? hparent) hlt)]
        exact howner'
      · rw [List.getElem?_append_left (h.owner_lt owner (List.mem_of_getElem? howner))]
        exact hgrown

/-- A scope that is closed was the last one, and of the members only the one that is absorbed had it. -/
theorem absorb {absorbed : Nat} (h : l.Owned owners) (habsorb : l.family.absorb handle absorbed = some f) :
    ∃ owners', Owned ⟨f, l.parents⟩ owners' := by
  obtain ⟨hsize, gone, hgone, hsymbols, hscope⟩ := Family.of_absorb habsorb
  have hmembers : l.parents.length = f.members.size := h.members.trans hsize.symm
  have hnested : f.shared.symbols.Nested := hsymbols ▸ h.nested.closeScope gone
  have hleft : ∀ other scope, f.scope? other = some scope → other ≠ absorbed ∧ l.family.scope? other = some scope := by
    intro other scope hother
    rw [hscope] at hother
    split at hother
    · cases hother
    · exact ⟨‹_›, hother⟩
  rcases l.symbols.closeScope_eq gone with heq | ⟨-, hcount, hcount', hparent⟩
  · rw [heq] at hsymbols
    refine ⟨owners, hnested, ?_, hmembers, h.owner_lt, fun other scope hother => h.scope other scope (hleft other scope hother).2, ?_⟩
    · exact h.length.trans (congrArg SymbolTable.scopeCount hsymbols.symm)
    · intro scope parent owner hparent
      exact h.parent scope parent owner (hsymbols ▸ hparent)
  · rw [← hsymbols] at hcount' hparent
    have hlength : owners.length = gone + 1 := h.length.trans hcount
    have htake : ∀ scope < gone, (owners.take gone)[scope]? = owners[scope]? := fun scope hlt => by
      rw [List.getElem?_take, if_pos hlt]
    refine ⟨owners.take gone, hnested, ?_, hmembers, fun owner howner => h.owner_lt owner (List.mem_of_mem_take howner), ?_, ?_⟩
    · rw [List.length_take, hlength, Nat.min_eq_left (Nat.le_succ gone)]
      exact hcount'.symm
    · intro other scope hother
      obtain ⟨hne, hother⟩ := hleft other scope hother
      have hne' : scope ≠ gone := by
        rintro rfl
        exact hne (Option.some.inj ((h.scope other _ hother).symm.trans (h.scope absorbed _ hgone)))
      have hlt := h.scope_lt hother
      rw [hcount] at hlt
      rw [htake scope (Nat.lt_of_le_of_ne (Nat.le_of_lt_succ hlt) hne')]
      exact h.scope other scope hother
    · intro scope parent owner hsome howner
      have hlt : scope < gone := hcount' ▸ SymbolTable.lt_of_parent? hsome
      rw [htake scope hlt] at howner
      obtain ⟨owner', howner', hgrown⟩ := h.parent scope parent owner ((hparent scope hlt).symm.trans hsome) howner
      refine ⟨owner', ?_, hgrown⟩
      rw [htake parent (Nat.lt_trans (hnested.lt_of_parent? hsome) hlt)]
      exact howner'

theorem bind {name : String} {node : NodeId} {old : Option NodeId} (h : l.Owned owners)
    (hbind : l.family.bind handle name node = some (old, f)) : Owned ⟨f, l.parents⟩ owners := by
  obtain ⟨s, hs, -⟩ := Option.map_eq_some_iff.1 hbind
  have hscope : l.family.scope? handle = some s.scope := by simp [Family.scope?, hs]
  rw [Family.bind_eq hscope] at hbind
  obtain ⟨-, rfl⟩ := Prod.mk.inj (Option.some.inj hbind)
  refine ⟨h.nested.bind s.scope name node, ?_, h.members, h.owner_lt, h.scope, fun scope parent owner hparent => ?_⟩
  · exact h.length.trans (SymbolTable.scopeCount_bind ..).symm
  · exact h.parent scope parent owner ((SymbolTable.parent?_bind ..).symm.trans hparent)

end Owned

/-- Whatever a family went through, its scopes have owners. -/
theorem exists_owned {l : Lineage} (h : Steps {} l) : ∃ owners, l.Owned owners := by
  induction h with
  | refl => exact ⟨[0], .start⟩
  | tail _ hstep ih =>
    obtain ⟨owners, howned⟩ := ih
    cases hstep with
    | child hchild => exact ⟨_, howned.child hchild⟩
    | absorb habsorb => exact howned.absorb habsorb
    | bind hbind => exact ⟨_, howned.bind hbind⟩

/-! ## Members see their own names and those of the members they descend from -/

namespace Owned

variable {l : Lineage} {owners : List Nat} {handle other : Nat} {scope outer : ScopeId} {way : List ScopeId}

/-- The scopes on the way out belong to members that the owner of the innermost one descends from. -/
theorem descends (h : l.Owned owners) (hway : l.symbols.Outward scope way) (hscope : owners[scope]? = some other)
    (houter : owners[outer]? = some handle) (hmem : outer ∈ way) : other = handle ∨ l.Descends other handle := by
  induction hway generalizing other with
  | outermost =>
    obtain rfl := List.mem_singleton.1 hmem
    exact .inl (Option.some.inj (hscope.symm.trans houter))
  | inside hparent _ ih =>
    rcases List.mem_cons.1 hmem with rfl | hmem
    · exact .inl (Option.some.inj (hscope.symm.trans houter))
    · obtain ⟨owner, howner, hgrown⟩ := h.parent _ _ other hparent hscope
      rcases ih howner hmem with rfl | hdescends
      · exact .inr (.single hgrown)
      · exact .inr (.head hgrown hdescends)

end Owned

section Find

variable {l : Lineage} {owners : List Nat} {handle other : Nat} {scope : ScopeId}

/-- A member finds a name where it is bound nearest on the way out of its scope. -/
theorem Owned.exists_find?_eq (h : l.Owned owners) (hscope : l.family.scope? handle = some scope) :
    ∃ way, l.symbols.Outward scope way ∧
      ∀ name, l.family.find? handle name = way.findSome? (l.symbols.findLocal? · name) := by
  obtain ⟨way, hway⟩ := h.nested.exists_outward (h.scope_lt hscope)
  exact ⟨way, hway, fun name => (Family.find?_eq hscope name).trans (h.nested.find?_eq hway name)⟩

/-- What members find in the family after a binding. -/
theorem Owned.exists_find?_bind_eq (h : l.Owned owners) (hscope : l.family.scope? handle = some scope) (name : String)
    (node : NodeId) : ∃ old f, l.family.bind handle name node = some (old, f) ∧
      ∀ other outer way, l.family.scope? other = some outer → l.symbols.Outward outer way → ∀ name',
        f.find? other name' = way.findSome? fun s =>
          if s = scope ∧ name' = name then some node else l.symbols.findLocal? s name' := by
  refine ⟨_, _, Family.bind_eq hscope name node, fun other outer way hother hway name' => ?_⟩
  have hway' : (l.symbols.bind scope name node).2.Outward outer way :=
    hway.congr (SymbolTable.scopeCount_bind ..) (SymbolTable.parent?_bind l.symbols scope name node)
  have hother' : Family.scope? { l.family with shared := { l.family.shared with
      symbols := (l.symbols.bind scope name node).2 } } other = some outer := hother
  refine (Family.find?_eq hother' name').trans (((h.nested.bind scope name node).find?_eq hway' name').trans ?_)
  simp only [SymbolTable.findLocal?_bind (h.scope_lt hscope)]

end Find

/-- Scopes are inside scopes opened before them, members have scopes of their own, and every search of a name ends at
the nearest binding on the way out. A name that a member binds is what it finds from then on, and only its descendants
may find anything else than before. -/
theorem scopes_kept_apart {l : Lineage} (h : Steps {} l) :
    (∀ scope < l.symbols.scopeCount, scope ≠ SymbolTable.root → ∃ parent < scope, l.symbols.parent? scope = some parent) ∧
    (∀ handle scope, l.family.scope? handle = some scope → scope < l.symbols.scopeCount) ∧
    (∀ handle other scope, l.family.scope? handle = some scope → l.family.scope? other = some scope → handle = other) ∧
    (∀ handle scope, l.family.scope? handle = some scope → ∃ way, l.symbols.Outward scope way ∧
      ∀ name, l.family.find? handle name = way.findSome? (l.symbols.findLocal? · name)) ∧
    (∀ handle scope name node, l.family.scope? handle = some scope → ∃ old f,
      l.family.bind handle name node = some (old, f) ∧ f.find? handle name = some node ∧
      ∀ other, (l.family.scope? other).isSome → other ≠ handle → ¬ l.Descends other handle →
        ∀ name', f.find? other name' = l.family.find? other name') := by
  obtain ⟨owners, howned⟩ := exists_owned h
  refine ⟨howned.nested.parent_lt, fun _ _ => howned.scope_lt, ?_, fun _ _ => howned.exists_find?_eq, ?_⟩
  · intro handle other scope hscope hother
    exact Option.some.inj ((howned.scope handle scope hscope).symm.trans (howned.scope other scope hother))
  · intro handle scope name node hscope
    obtain ⟨old, f, hbind, hfind⟩ := howned.exists_find?_bind_eq hscope name node
    refine ⟨old, f, hbind, ?_, ?_⟩
    · obtain ⟨way, hway, -⟩ := howned.exists_find?_eq hscope
      rw [hfind handle scope way hscope hway name]
      cases hway <;> simp
    · intro other hother hne hdescends name'
      obtain ⟨outer, houter⟩ := Option.isSome_iff_exists.1 hother
      obtain ⟨way, hway, hbefore⟩ := howned.exists_find?_eq houter
      rw [hfind other outer way houter hway, hbefore]
      -- The scope of the binding is not on the way out: its owner is no ancestor.
      have hnot : scope ∉ way := fun hmem =>
        (howned.descends hway (howned.scope other outer houter) (howned.scope handle scope hscope) hmem).elim hne hdescends
      refine findSome?_congr fun s hs => if_neg ?_
      rintro ⟨rfl, -⟩
      exact hnot hs

/-- Here a scope stays although its member was absorbed, by one that it was not grown from, and another scope is opened
a second time: member 4 has the scope that member 3 had. -/
theorem scopes_kept_apart_of_reopened : ∃ l : Lineage, Steps {} l ∧ l.symbols.scopeCount = 4 ∧
    (l.family.scope? 1 = none ∧ l.family.scope? 3 = none ∧ l.family.scope? 2 = some 2 ∧ l.family.scope? 4 = some 3) ∧
    (∃ parent < 3, l.symbols.parent? 3 = some parent) ∧
    (∃ way, l.symbols.Outward 3 way ∧ l.family.find? 4 "x" = way.findSome? (l.symbols.findLocal? · "x")) ∧
    ∃ old f, l.family.bind 2 "x" 9 = some (old, f) ∧ f.find? 2 "x" = some 9 ∧ f.find? 0 "x" = l.family.find? 0 "x" := by
  have hsteps : Steps {} _ := ReflTransGen.refl
    |>.tail (.child (rfl : Family.child _ 0 = some (_, _)))
    |>.tail (.child (rfl : Family.child _ 1 = some (_, _)))
    |>.tail (.child (rfl : Family.child _ 0 = some (_, _)))
    |>.tail (.bind (rfl : Family.bind _ 0 "x" 7 = some (_, _)))
    |>.tail (.absorb (rfl : Family.absorb _ 3 1 = some _))
    |>.tail (.absorb (rfl : Family.absorb _ 0 3 = some _))
    |>.tail (.child (rfl : Family.child _ 2 = some (_, _)))
  obtain ⟨hparent, -, -, hfind, hbind⟩ := scopes_kept_apart hsteps
  obtain ⟨way, hway, hnear⟩ := hfind 4 3 rfl
  obtain ⟨old, f, heq, hself, hother⟩ := hbind 2 2 "x" 9 rfl
  refine ⟨_, hsteps, rfl, ⟨rfl, rfl, rfl, rfl⟩, hparent 3 (by decide) (by decide), ⟨way, hway, hnear "x"⟩,
    old, f, heq, hself, hother 0 rfl (by decide) (fun hdescends => ?_) "x"⟩
  -- The first member was grown from none.
  obtain ⟨parent, hgrown, -⟩ := TransGen.head'_iff.1 hdescends
  cases hgrown

end Lineage

end Assembler
