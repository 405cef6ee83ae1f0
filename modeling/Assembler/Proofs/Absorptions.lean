import Mathlib.Data.List.Nodup
import Mathlib.Data.List.Perm.Basic
import Assembler.Proofs.Families
/-!
# Families that were absorbed

Only the scope that was opened last can be closed. So a member that is absorbed while a member grown
after it is there leaves its scope in the table for good, and so does, from then on, every older member
(`Absorption.left`). The scopes in the table are those of the members that are there and of those that
left theirs, the older ones first (`Family.Holds`). When all members but the first were absorbed, the
first has the diagnostics of all, and there is no scope but the root just if none was absorbed too
early: `Family.Grown.scopes_left`.
-/

namespace Assembler

namespace SymbolTable

variable {t : SymbolTable} {scope : ScopeId}

theorem scopeCount_closeScope_of_last (hroot : scope ≠ root) (hlast : scope + 1 = t.scopeCount) :
    (t.closeScope scope).2.scopeCount = scope := by
  rw [closeScope, if_pos ⟨hroot, hlast⟩]
  change t.scopes.pop.size = scope
  rw [Array.size_pop]
  exact Nat.sub_eq_of_eq_add hlast.symm

theorem closeScope_of_not_last (h : ¬ (scope ≠ root ∧ scope + 1 = t.scopeCount)) : (t.closeScope scope).2 = t := by
  rw [closeScope]
  exact congrArg Prod.snd (if_neg h)

end SymbolTable

/-! ## Histories -/

/-- A member that was absorbed, and whether a member that was grown after it was there then. -/
structure Absorption where
  member : Nat
  early : Bool

/-- The members that left their scopes, the latest first, of those that were absorbed: who was absorbed early, or after a
younger one had left its scope. -/
def Absorption.left : List Absorption → List Nat
  | [] => []
  | a :: before => if a.early ∨ ∃ m ∈ left before, a.member < m then a.member :: left before else left before

/-- No member leaves its scope just if none is absorbed early. -/
theorem Absorption.left_eq_nil_iff {absorptions : List Absorption} : left absorptions = [] ↔ ∀ a ∈ absorptions, a.early = false := by
  induction absorptions with
  | nil => simp [left]
  | cons a before ih =>
    rw [left, List.forall_mem_cons, ← ih]
    split
    · rename_i h
      refine iff_of_false (List.cons_ne_nil _ _) fun ⟨hearly, hnil⟩ => ?_
      simp [hearly, hnil] at h
    · rename_i h
      simp only [not_or, Bool.not_eq_true] at h
      simp [h.1]

namespace Family

variable {f f' : Family} {handle absorbed new m : Nat} {scope : ScopeId}

/-- Whether a member is there that was grown after a member. -/
def hasYounger (f : Family) (m : Nat) : Bool := (f.members.toList.drop (m + 1)).any (·.isSome)

theorem hasYounger_iff : f.hasYounger m ↔ ∃ other > m, (f.member? other).isSome := by
  have hmember {i : Nat} {s : Session} : f.member? i = some s ↔ f.members.toList[i]? = some (some s) := by
    rw [member?, Option.bind_eq_some_iff, Array.getElem?_toList]
    simp
  simp only [hasYounger, List.any_eq_true, Option.isSome_iff_exists, hmember]
  constructor
  · rintro ⟨s, hmem, s, rfl⟩
    obtain ⟨i, hi⟩ := List.getElem?_of_mem hmem
    rw [List.getElem?_drop] at hi
    exact ⟨m + 1 + i, by omega, s, hi⟩
  · rintro ⟨other, hother, s, hs⟩
    refine ⟨some s, List.mem_of_getElem? (i := other - (m + 1)) ?_, s, rfl⟩
    rw [List.getElem?_drop, Nat.add_sub_cancel' hother, hs]

/-- What becomes of a family: the family, the members that were absorbed in it, the latest first, and all diagnostics
that were reported to its members. -/
inductive Grown : Family → List Absorption → List Diagnostic → Prop
  | root : Grown {} [] []
  | child {f f' : Family} {absorptions : List Absorption} {ds : List Diagnostic} {handle new : Nat}
      (h : Grown f absorptions ds) (hchild : f.child handle = some (new, f')) : Grown f' absorptions ds
  | absorb {f f' : Family} {absorptions : List Absorption} {ds : List Diagnostic} {handle absorbed : Nat}
      (h : Grown f absorptions ds) (habsorb : f.absorb handle absorbed = some f') :
      Grown f' (⟨absorbed, f.hasYounger absorbed⟩ :: absorptions) ds
  | bind {f f' : Family} {absorptions : List Absorption} {ds : List Diagnostic} {handle : Nat} {name : String}
      {node : NodeId} {old : Option NodeId} (h : Grown f absorptions ds)
      (hbind : f.bind handle name node = some (old, f')) : Grown f' absorptions ds
  | report {f : Family} {absorptions : List Absorption} {ds : List Diagnostic} {handle : Nat} (h : Grown f absorptions ds)
      (hhandle : (f.member? handle).isSome) (d : Diagnostic) : Grown (f.update handle (·.report d)) absorptions (ds ++ [d])

theorem isSome_scope?_iff : (f.scope? m).isSome ↔ (f.member? m).isSome := by
  rw [scope?, Option.isSome_map]

/-- Who absorbs is there, and is another member. -/
theorem absorber_of_absorb (h : f.absorb handle absorbed = some f') : handle ≠ absorbed ∧ (f.scope? handle).isSome := by
  unfold absorb at h
  split at h
  · cases h
  · rename_i hne
    split at h
    · rename_i hs hc
      exact ⟨hne, by simp [scope?, hs]⟩
    · cases h

theorem alive_of_absorb (h : f.absorb handle absorbed = some f')
    (hscope : ∀ other, f'.scope? other = if other = absorbed then none else f.scope? other) : ∃ m, (f'.scope? m).isSome := by
  obtain ⟨hne, halive⟩ := absorber_of_absorb h
  exact ⟨handle, by rwa [hscope, if_neg hne]⟩

theorem of_scope?_absorb {other : Nat} (hscope : ∀ other, f'.scope? other = if other = absorbed then none else f.scope? other)
    (h : f'.scope? other = some scope) : other ≠ absorbed ∧ f.scope? other = some scope := by
  rw [hscope] at h
  split at h
  · cases h
  · exact ⟨‹_›, h⟩

theorem scope?_update (f : Family) (handle : Nat) (d : Diagnostic) (other : Nat) :
    (f.update handle (·.report d)).scope? other = f.scope? other := by
  simp only [update, scope?, member?, Array.getElem?_modify]
  split
  · cases f.members[other]? with
    | none => rfl
    | some s => cases s <;> rfl
  · rfl

/-! ## Scopes and members -/

/-- The scopes in the table are those of the members that are there and those of the members that left theirs, in the
order in which they were grown. -/
structure Holds (f : Family) (left held : List Nat) : Prop where
  sorted : held.Pairwise (· < ·)
  length : held.length = f.shared.symbols.scopeCount
  scope : ∀ m scope, f.scope? m = some scope → held[scope]? = some m
  mem_iff : ∀ m, m ∈ held ↔ (f.scope? m).isSome ∨ m ∈ left
  nodup : left.Nodup
  gone : ∀ m ∈ left, m < f.members.size ∧ f.scope? m = none
  root : held[0]? = some 0
  alive : ∃ m, (f.scope? m).isSome

namespace Holds

variable {left held : List Nat}

theorem start : Holds {} [] [0] where
  sorted := List.pairwise_singleton ..
  length := rfl
  scope := by
    intro m scope hscope
    obtain rfl : m = 0 := Nat.lt_one_iff.1 (lt_of_scope? hscope)
    cases hscope
    rfl
  mem_iff := by
    intro m
    rw [List.mem_singleton, or_iff_left List.not_mem_nil]
    refine ⟨by rintro rfl; rfl, fun hm => ?_⟩
    obtain ⟨scope, hscope⟩ := Option.isSome_iff_exists.1 hm
    exact Nat.lt_one_iff.1 (lt_of_scope? hscope)
  nodup := List.nodup_nil
  gone := by simp
  root := rfl
  alive := ⟨0, rfl⟩

theorem lt_size (h : f.Holds left held) (hm : m ∈ held) : m < f.members.size := by
  rcases (h.mem_iff m).1 hm with hm | hm
  · obtain ⟨scope, hscope⟩ := Option.isSome_iff_exists.1 hm
    exact lt_of_scope? hscope
  · exact (h.gone m hm).1

theorem child (h : f.Holds left held) (hchild : f.child handle = some (new, f')) : f'.Holds left (held ++ [new]) := by
  obtain ⟨rfl, hsize, outer, -, hsymbols, hscope⟩ := of_child hchild
  have hold : ∀ m ∈ held, m ≠ f.members.size := fun m hm => Nat.ne_of_lt (h.lt_size hm)
  refine ⟨?_, ?_, ?_, ?_, h.nodup, ?_, ?_, ⟨f.members.size, by simp [hscope]⟩⟩
  · exact List.pairwise_append.2 ⟨h.sorted, List.pairwise_singleton .., fun m hm new hnew =>
      List.mem_singleton.1 hnew ▸ h.lt_size hm⟩
  · simp [hsymbols, h.length]
  · intro m scope hm
    rw [hscope] at hm
    split at hm
    · obtain rfl := Option.some.inj hm
      rw [← h.length, List.getElem?_concat_length, ‹m = _›]
    · have hget := h.scope m scope hm
      rwa [List.getElem?_append_left (List.getElem?_eq_some_iff.1 hget).1]
  · intro m
    rw [List.mem_append, List.mem_singleton, h.mem_iff, hscope]
    by_cases hm : m = f.members.size
    · simp [hm]
    · simp [hm]
  · intro m hm
    obtain ⟨hlt, hnone⟩ := h.gone m hm
    exact ⟨hsize ▸ Nat.lt_succ_of_lt hlt, by rw [hscope, if_neg (Nat.ne_of_lt hlt), hnone]⟩
  · rw [List.getElem?_append_left (List.getElem?_eq_some_iff.1 h.root).1, h.root]

/-- Scopes come in the order of their members. -/
theorem lt_of_lt {i j other : Nat} (h : f.Holds left held) (hi : held[i]? = some m) (hj : held[j]? = some other) (hij : i < j) :
    m < other := by
  obtain ⟨hi', rfl⟩ := List.getElem?_eq_some_iff.1 hi
  obtain ⟨hj', rfl⟩ := List.getElem?_eq_some_iff.1 hj
  exact List.pairwise_iff_getElem.1 h.sorted i j hi' hj' hij

/-- The scope of a member can be closed just if no younger member has a scope. -/
theorem last_iff (h : f.Holds left held) (habsorb : f.absorb handle absorbed = some f') (hscope : f.scope? absorbed = some scope) :
    (scope ≠ SymbolTable.root ∧ scope + 1 = f.shared.symbols.scopeCount) ↔ ¬ ∃ m ∈ held, absorbed < m := by
  have hget := h.scope absorbed scope hscope
  obtain ⟨hlt, -⟩ := List.getElem?_eq_some_iff.1 hget
  rw [← h.length]
  constructor
  · rintro ⟨-, hlast⟩ ⟨m, hm, hyounger⟩
    obtain ⟨i, hi⟩ := List.getElem?_of_mem hm
    have hi' := (List.getElem?_eq_some_iff.1 hi).1
    rcases Nat.lt_or_eq_of_le (Nat.le_of_lt_succ (hlast.symm ▸ hi')) with hi' | rfl
    · exact Nat.lt_asymm hyounger (h.lt_of_lt hi hget hi')
    · cases hi.symm.trans hget
      exact Nat.lt_irrefl _ hyounger
  · intro hnone
    constructor
    · -- The first member is absorbed by a younger one.
      rintro rfl
      obtain ⟨hne, halive⟩ := absorber_of_absorb habsorb
      obtain rfl : 0 = absorbed := Option.some.inj (h.root.symm.trans hget)
      exact hnone ⟨handle, (h.mem_iff handle).2 (.inl halive), Nat.pos_of_ne_zero hne⟩
    · refine Nat.le_antisymm hlt (Nat.le_of_not_lt fun hnext => hnone ?_)
      exact ⟨held[scope + 1], List.getElem_mem hnext, h.lt_of_lt hget (List.getElem?_eq_getElem hnext) (Nat.lt_succ_self scope)⟩

/-- A member that is absorbed while a younger one has a scope leaves its own. -/
theorem absorb_early (h : f.Holds left held) (habsorb : f.absorb handle absorbed = some f')
    (hyounger : ∃ m ∈ held, absorbed < m) : f'.Holds (absorbed :: left) held := by
  obtain ⟨hsize, scope, hgone, hsymbols, hscope⟩ := of_absorb habsorb
  rw [SymbolTable.closeScope_of_not_last (mt (h.last_iff habsorb hgone).1 (not_not_intro hyounger))] at hsymbols
  refine ⟨h.sorted, hsymbols ▸ h.length, fun m s hm => h.scope m s (of_scope?_absorb hscope hm).2, fun m => ?_, ?_, ?_,
    h.root, alive_of_absorb habsorb hscope⟩
  · rw [h.mem_iff, hscope, List.mem_cons]
    by_cases hm : m = absorbed
    · simp [hm, hgone]
    · simp [hm]
  · refine List.nodup_cons.2 ⟨fun hmem => ?_, h.nodup⟩
    cases hgone.symm.trans (h.gone absorbed hmem).2
  · refine List.forall_mem_cons.2 ⟨⟨hsize ▸ lt_of_scope? hgone, by rw [hscope, if_pos rfl]⟩, fun m hm => ?_⟩
    obtain ⟨hlt, hnone⟩ := h.gone m hm
    exact ⟨hsize ▸ hlt, by rw [hscope, hnone, ite_self]⟩

/-- The scope of any other member that is absorbed is the last one, and is closed. -/
theorem absorb_last (h : f.Holds left held) (habsorb : f.absorb handle absorbed = some f')
    (hlast : ¬ ∃ m ∈ held, absorbed < m) : ∃ older, f'.Holds left older := by
  obtain ⟨hsize, scope, hgone, hsymbols, hscope⟩ := of_absorb habsorb
  obtain ⟨hroot, hcount⟩ := (h.last_iff habsorb hgone).2 hlast
  have hget := h.scope absorbed scope hgone
  have hpos : 0 < absorbed := h.lt_of_lt h.root hget (Nat.pos_of_ne_zero hroot)
  rcases List.eq_nil_or_concat' held with rfl | ⟨older, last, rfl⟩
  · cases hget
  have hlength : older.length = scope := by
    have hlength := h.length.trans hcount.symm
    rwa [List.length_append, List.length_singleton, Nat.add_right_cancel_iff] at hlength
  obtain rfl : last = absorbed := by
    rw [← hlength, List.getElem?_concat_length] at hget
    exact Option.some.inj hget
  obtain ⟨hsorted, -, hlt⟩ := List.pairwise_append.1 h.sorted
  have holder {m i : Nat} (hne : m ≠ last) (hi : (older ++ [last])[i]? = some m) : older[i]? = some m := by
    rw [List.getElem?_append] at hi
    split at hi
    · exact hi
    · exact absurd (List.mem_singleton.1 (List.mem_of_getElem? hi)) hne
  refine ⟨older, hsorted, ?_, fun m s hm => ?_, fun m => ?_, h.nodup, fun m hm => ?_, holder (Nat.ne_of_lt hpos) h.root,
    alive_of_absorb habsorb hscope⟩
  · rw [hsymbols, SymbolTable.scopeCount_closeScope_of_last hroot hcount, hlength]
  · obtain ⟨hne, hm⟩ := of_scope?_absorb hscope hm
    exact holder hne (h.scope m s hm)
  · have hmem := h.mem_iff m
    rw [hscope]
    by_cases hm : m = last
    · subst hm
      have hnot : m ∉ older := fun hm => Nat.lt_irrefl m (hlt m hm m List.mem_cons_self)
      have hnot' : m ∉ left := fun hm => by cases hgone.symm.trans (h.gone m hm).2
      simp [hnot, hnot']
    · simpa [hm] using hmem
  · obtain ⟨hlt, hnone⟩ := h.gone m hm
    exact ⟨hsize ▸ hlt, by rw [hscope, hnone, ite_self]⟩

theorem absorb (h : f.Holds left held) (habsorb : f.absorb handle absorbed = some f') :
    ∃ held', f'.Holds (if f.hasYounger absorbed ∨ ∃ m ∈ left, absorbed < m then absorbed :: left else left) held' := by
  have hyounger : (f.hasYounger absorbed ∨ ∃ m ∈ left, absorbed < m) ↔ ∃ m ∈ held, absorbed < m := by
    rw [hasYounger_iff]
    constructor
    · rintro (⟨m, hm, halive⟩ | ⟨m, hleft, hm⟩)
      · exact ⟨m, (h.mem_iff m).2 (.inl (isSome_scope?_iff.2 halive)), hm⟩
      · exact ⟨m, (h.mem_iff m).2 (.inr hleft), hm⟩
    · rintro ⟨m, hmem, hm⟩
      exact ((h.mem_iff m).1 hmem).imp (fun halive => ⟨m, hm, isSome_scope?_iff.1 halive⟩) fun hleft => ⟨m, hleft, hm⟩
  split
  · exact ⟨held, h.absorb_early habsorb (hyounger.1 ‹_›)⟩
  · exact h.absorb_last habsorb (mt hyounger.2 ‹_›)

/-- What leaves the members where they are, and the scopes, changes nothing. -/
theorem congr (h : f.Holds left held) (hscope : ∀ m, f'.scope? m = f.scope? m)
    (hcount : f'.shared.symbols.scopeCount = f.shared.symbols.scopeCount) (hsize : f'.members.size = f.members.size) :
    f'.Holds left held where
  sorted := h.sorted
  length := h.length.trans hcount.symm
  scope m scope hm := h.scope m scope ((hscope m).symm.trans hm)
  mem_iff m := by rw [hscope, h.mem_iff]
  nodup := h.nodup
  gone m hm := by rw [hscope, hsize]; exact h.gone m hm
  root := h.root
  alive := h.alive.imp fun m hm => by rwa [hscope]

end Holds

theorem Grown.exists_holds {absorptions : List Absorption} {ds : List Diagnostic} (h : Grown f absorptions ds) :
    ∃ held, f.Holds (Absorption.left absorptions) held := by
  induction h with
  | root => exact ⟨_, .start⟩
  | child _ hchild ih =>
    obtain ⟨held, hholds⟩ := ih
    exact ⟨_, hholds.child hchild⟩
  | absorb _ habsorb ih =>
    obtain ⟨held, hholds⟩ := ih
    exact hholds.absorb habsorb
  | bind _ hbind ih =>
    obtain ⟨held, hholds⟩ := ih
    obtain ⟨s, hs, heq⟩ := Option.map_eq_some_iff.1 hbind
    obtain ⟨-, rfl⟩ := Prod.mk.inj heq
    exact ⟨held, hholds.congr (fun _ => rfl) (SymbolTable.scopeCount_bind ..) rfl⟩
  | report _ _ d ih =>
    obtain ⟨held, hholds⟩ := ih
    exact ⟨held, hholds.congr (scope?_update _ _ d) rfl (Array.size_modify ..)⟩

/-! ## Diagnostics -/

/-- The diagnostics of all members that are there. -/
def collected (f : Family) : List Diagnostic := f.members.toList.flatMap fun s => s.elim [] (·.diagnostics)

/-- What is put in the place of an entry adds what it has itself for what that had. -/
theorem perm_flatMap_set {α β : Type} {g : α → List β} {xs : List α} {i : Nat} {x : α} (h : xs[i]? = some x) (y : α) :
    (g x ++ (xs.set i y).flatMap g).Perm (g y ++ xs.flatMap g) := by
  induction xs generalizing i with
  | nil => cases h
  | cons z xs ih =>
    cases i with
    | zero =>
      obtain rfl : z = x := Option.some.inj h
      rw [List.set_cons_zero, List.flatMap_cons, List.flatMap_cons]
      exact List.perm_append_comm_assoc ..
    | succ i =>
      rw [List.set_cons_succ, List.flatMap_cons, List.flatMap_cons]
      exact (List.perm_append_comm_assoc ..).trans (((ih h).append_left _).trans (List.perm_append_comm_assoc ..))

theorem getElem?_of_member? {s : Session} (h : f.member? handle = some s) : f.members.toList[handle]? = some (some s) := by
  obtain ⟨m, hm, heq⟩ := Option.bind_eq_some_iff.1 h
  rw [Array.getElem?_toList, hm]
  exact congrArg some heq

theorem perm_collected_report {s : Session} (h : f.member? handle = some s) (d : Diagnostic) :
    (f.update handle (·.report d)).collected.Perm (f.collected ++ [d]) := by
  have hs := getElem?_of_member? h
  have hset := perm_flatMap_set (g := fun s : Option Session => s.elim [] (·.diagnostics)) hs (some (s.report d))
  have hmodify : f.members.toList.modify handle (·.map (·.report d)) = f.members.toList.set handle (some (s.report d)) := by
    rw [List.modify_eq_set_getElem?, hs]
    rfl
  rw [collected, update, Array.toList_modify, hmodify]
  rw [← List.perm_append_left_iff s.diagnostics]
  refine hset.trans ?_
  rw [Option.elim_some, Session.report, List.append_assoc, List.perm_append_left_iff]
  exact List.perm_append_comm

/-- Who absorbs takes over the diagnostics of who is absorbed. -/
theorem perm_collected_absorb (h : f.absorb handle absorbed = some f') : f'.collected.Perm f.collected := by
  unfold absorb at h
  split at h
  · cases h
  rename_i hne
  split at h
  case h_2 => cases h
  rename_i s c hs hc
  obtain rfl := Option.some.inj h
  let g : Option Session → List Diagnostic := fun s => s.elim [] (·.diagnostics)
  have hs' : (f.members.toList.set absorbed none)[handle]? = some (some s) := by
    rw [List.getElem?_set_ne (Ne.symm hne), getElem?_of_member? hs]
  have hgone := perm_flatMap_set (g := g) (getElem?_of_member? hc) none
  have htaken := perm_flatMap_set (g := g) hs' (some (s.absorb c f.shared).1)
  have hcollected (shared : Shared) (s : Session) :
      (⟨shared, (f.members.set! absorbed none).set! handle (some s)⟩ : Family).collected =
        ((f.members.toList.set absorbed none).set handle (some s)).flatMap g := by
    simp [collected, g]
  rw [hcollected, ← List.perm_append_left_iff s.diagnostics]
  refine htaken.trans ?_
  change (s.diagnostics ++ c.diagnostics ++ (f.members.toList.set absorbed none).flatMap g).Perm _
  rw [List.append_assoc, List.perm_append_left_iff]
  exact hgone

theorem Grown.perm_collected {absorptions : List Absorption} {ds : List Diagnostic} (h : Grown f absorptions ds) :
    f.collected.Perm ds := by
  induction h with
  | root => exact .refl _
  | child _ hchild ih =>
    obtain ⟨s, -, heq⟩ := Option.map_eq_some_iff.1 hchild
    obtain ⟨-, rfl⟩ := Prod.mk.inj heq
    simpa [collected, Session.child] using ih
  | absorb _ habsorb ih => exact (perm_collected_absorb habsorb).trans ih
  | bind _ hbind ih =>
    obtain ⟨s, -, heq⟩ := Option.map_eq_some_iff.1 hbind
    obtain ⟨-, rfl⟩ := Prod.mk.inj heq
    exact ih
  | report _ hhandle d ih =>
    obtain ⟨s, hs⟩ := Option.isSome_iff_exists.1 hhandle
    exact (perm_collected_report hs d).trans (ih.append_right [d])

/-! ## When all were absorbed -/

/-- Where only the first member is there, it has all diagnostics. -/
theorem collected_of_gone (hgone : ∀ m ≠ 0, f.member? m = none) {root : Session} (hroot : f.member? 0 = some root) :
    f.collected = root.diagnostics := by
  have hfirst := getElem?_of_member? hroot
  have hrest : ∀ i s, f.members.toList[i + 1]? = some s → s = none := fun i s hs => by
    have hnone := hgone (i + 1) (Nat.succ_ne_zero i)
    rw [member?, ← Array.getElem?_toList, hs] at hnone
    exact hnone
  rw [collected]
  cases hmembers : f.members.toList with
  | nil => simp [hmembers] at hfirst
  | cons first rest =>
    rw [hmembers] at hfirst hrest
    obtain rfl : first = some root := Option.some.inj hfirst
    have hnil : rest.flatMap (fun s => s.elim [] (·.diagnostics)) = ([] : List Diagnostic) := by
      rw [List.flatMap_eq_nil_iff]
      intro s hs
      obtain ⟨i, hi⟩ := List.getElem?_of_mem hs
      rw [hrest i s hi]
      rfl
    rw [List.flatMap_cons, hnil, List.append_nil]
    rfl

/-- When all members but the first were absorbed, it is there and has all diagnostics, but beside the root there are the
scopes of the members that left theirs. So there is no scope but the root just if each member was absorbed while no member
grown after it was there. -/
theorem Grown.scopes_left {absorptions : List Absorption} {ds : List Diagnostic} (h : Grown f absorptions ds)
    (hgone : ∀ m ≠ 0, f.member? m = none) :
    (∃ root, f.member? 0 = some root ∧ root.diagnostics.Perm ds) ∧
    f.shared.symbols.scopeCount = 1 + (Absorption.left absorptions).length ∧
    (f.shared.symbols.scopeCount = 1 ↔ ∀ a ∈ absorptions, a.early = false) := by
  obtain ⟨held, hholds⟩ := h.exists_holds
  have halone (m : Nat) : (f.scope? m).isSome ↔ m = 0 := by
    have honly {m : Nat} (hm : (f.scope? m).isSome) : m = 0 := by
      by_contra hne
      rw [isSome_scope?_iff, hgone m hne] at hm
      cases hm
    obtain ⟨first, hfirst⟩ := hholds.alive
    obtain rfl := honly hfirst
    exact ⟨honly, by rintro rfl; exact hfirst⟩
  obtain ⟨root, hroot⟩ := Option.isSome_iff_exists.1 (isSome_scope?_iff.1 ((halone 0).2 rfl))
  have hnot : 0 ∉ Absorption.left absorptions := fun hmem => by
    have hnone := (hholds.gone 0 hmem).2
    rw [scope?, hroot] at hnone
    cases hnone
  have hperm : held.Perm (0 :: Absorption.left absorptions) := by
    refine (List.perm_ext_iff_of_nodup hholds.sorted.nodup (List.nodup_cons.2 ⟨hnot, hholds.nodup⟩)).2 fun m => ?_
    rw [hholds.mem_iff, halone, List.mem_cons]
  have hcount : f.shared.symbols.scopeCount = 1 + (Absorption.left absorptions).length := by
    rw [← hholds.length, hperm.length_eq, List.length_cons, Nat.add_comm]
  refine ⟨⟨root, hroot, collected_of_gone hgone hroot ▸ h.perm_collected⟩, hcount, ?_⟩
  rw [hcount, ← Absorption.left_eq_nil_iff, Nat.add_eq_left, List.length_eq_zero_iff]

/-- Here the second member is absorbed while the third is there, and leaves its scope. So does the first later on, as its
scope is not the last one, though no younger member is there. The scope of the third is closed. -/
theorem Grown.scopes_left_of_early :
    let d : Diagnostic := { cause := .unexpectedEof, location := {} }
    let absorptions : List Absorption := [⟨1, false⟩, ⟨3, false⟩, ⟨2, true⟩]
    let three : Shared := { symbols := ⟨#[{}, { parent := some 0 }, { parent := some 1 }]⟩ }
    let f : Family := ⟨three, #[some { diagnostics := [d] }, none, none, none]⟩
    Grown f absorptions [d] ∧ (∀ m ≠ 0, f.member? m = none) ∧ (∃ root, f.member? 0 = some root ∧ root.diagnostics.Perm [d]) ∧
      f.shared.symbols.scopeCount = 1 + (Absorption.left absorptions).length ∧ Absorption.left absorptions = [1, 2] ∧
      f.shared.symbols.scopeCount ≠ 1 := by
  intro d absorptions three f
  let four : Shared := { symbols := ⟨#[{}, { parent := some 0 }, { parent := some 1 }, { parent := some 0 }]⟩ }
  let grown : Family := ⟨four, #[some {}, some { scope := 1 }, some { scope := 2 }, some { scope := 3 }]⟩
  let reported : Family := ⟨four, #[some {}, some { scope := 1 }, some { scope := 2, diagnostics := [d] }, some { scope := 3 }]⟩
  let left : Family := ⟨four, #[some {}, some { scope := 1 }, none, some { scope := 3, diagnostics := [d] }]⟩
  let closed : Family := ⟨three, #[some {}, some { scope := 1, diagnostics := [d] }, none, none]⟩
  have hgrown : Grown grown [] [] := Grown.root
    |>.child (rfl : Family.child _ 0 = some (_, _))
    |>.child (rfl : Family.child _ 1 = some (_, _))
    |>.child (rfl : Family.child _ 0 = some (_, _))
  have hreported : Grown reported [] [d] := by
    have hupdate : grown.update 2 (·.report d) = reported := by decide +kernel
    exact hupdate ▸ hgrown.report rfl d
  have hleft : reported.absorb 3 2 = some left := by decide +kernel
  have hclosed : left.absorb 1 3 = some closed := by decide +kernel
  have hall : closed.absorb 0 1 = some f := by decide +kernel
  have h : Grown f absorptions [d] := ((hreported.absorb hleft).absorb hclosed).absorb hall
  have hgone : ∀ m ≠ 0, f.member? m = none := fun m hm => by
    match m with
    | 0 => exact absurd rfl hm
    | 1 | 2 | 3 => rfl
    | m + 4 => rfl
  obtain ⟨hroot, hcount, hone⟩ := h.scopes_left hgone
  refine ⟨h, hgone, hroot, hcount, rfl, fun hcount => ?_⟩
  cases hone.1 hcount ⟨2, true⟩ (by simp [absorptions])

/-- Of two members grown from the first, the older is absorbed before the younger: its scope is not closed, not even when
that of the younger is. So the table ends with a scope beside the root. -/
theorem not_only_root_left :
    let f : Family := {
      shared := { symbols := ⟨#[{}, { parent := some 0 }]⟩ }
      members := #[some {}, none, none] }
    Grown f [⟨2, false⟩, ⟨1, true⟩] [] ∧ (∀ m ≠ 0, f.member? m = none) ∧ f.shared.symbols.scopeCount = 2 := by
  intro f
  have h : Grown f _ _ := Grown.root
    |>.child (rfl : Family.child _ 0 = some (_, _))
    |>.child (rfl : Family.child _ 0 = some (_, _))
    |>.absorb (rfl : Family.absorb _ 0 1 = some _)
    |>.absorb (rfl : Family.absorb _ 0 2 = some f)
  refine ⟨h, fun m hm => ?_, rfl⟩
  match m with
  | 0 => exact absurd rfl hm
  | 1 | 2 => rfl
  | m + 3 => rfl

end Family

end Assembler
