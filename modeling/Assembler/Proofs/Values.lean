import Mathlib.Data.Finset.Card
import Mathlib.Dynamics.PeriodicPts.Defs
import Mathlib.Tactic.IntervalCases
import Assembler.Proofs.Arena
/-!
# What nodes stand for in the end

What a node stands for in the end is looked for in as many steps as there are nodes, and one more.
Where all that names and declarations stand for are nodes of the program, this is enough: of the
nodes on a longer way two are the same, so the way leads into a circle, and a node that stands for
itself can only lie on a circle of its own (`Program.RefersInside.exists_lt_of_isFixedPt`). So the
search finds such a node just if there is one on the way: `Program.RefersInside.deepValueOf_exact`.
-/

namespace Assembler.Program

open Function (IsFixedPt IsPeriodicPt periodicPts)

variable {p : Program} {id v : NodeId} {n : Nat}

/-! ## The search -/

/-- A search finds the node that stands for itself, if the way there takes fewer steps than it may. -/
theorem valueWithin_eq_some_iff {steps : Nat} :
    p.valueWithin steps id = some v ↔ (∃ n < steps, p.valueOf^[n] id = v) ∧ IsFixedPt p.valueOf v := by
  induction steps generalizing id with
  | zero => simp [valueWithin]
  | succ steps ih =>
    rw [valueWithin]
    by_cases hself : p.valueOf id = id
    · -- The way goes no further than here.
      have hway (n : Nat) : p.valueOf^[n] id = id := IsFixedPt.iterate hself n
      simp only [hself, if_true, hway, Option.some.injEq]
      constructor
      · rintro rfl
        exact ⟨⟨0, Nat.succ_pos steps, rfl⟩, hself⟩
      · rintro ⟨⟨-, -, heq⟩, -⟩
        exact heq
    · simp only [hself, if_false, ih]
      refine and_congr_left fun hfixed => ⟨?_, ?_⟩
      · rintro ⟨n, hlt, hn⟩
        exact ⟨n + 1, Nat.succ_lt_succ hlt, hn⟩
      · rintro ⟨n, hlt, hn⟩
        cases n with
        | zero =>
          obtain rfl : id = v := hn
          exact absurd hfixed hself
        | succ n => exact ⟨n, Nat.lt_of_succ_lt_succ hlt, hn⟩

/-! ## The way -/

/-- What names are bound to, and the labels that are declared, are nodes of the program. -/
structure RefersInside (p : Program) : Prop where
  bound : ∀ id name target, p.kind? id = some (.identifier name (some target)) → target < p.size
  declared : ∀ id name label, p.kind? id = some (.labelDecl name label) → label < p.size

namespace RefersInside

theorem valueOf_lt (h : p.RefersInside) (hid : id < p.size) : p.valueOf id < p.size := by
  unfold valueOf
  split
  · exact h.bound id _ _ ‹_›
  · exact h.declared id _ _ ‹_›
  · exact hid

theorem iterate_lt (h : p.RefersInside) (hid : id < p.size) (n : Nat) : p.valueOf^[n] id < p.size := by
  induction n generalizing id with
  | zero => exact hid
  | succ n ih => exact ih (h.valueOf_lt hid)

/-- There are fewer nodes than steps from the first to the last of so many, so the way leads into a circle. -/
theorem exists_isPeriodicPt (h : p.RefersInside) (hid : id < p.size) :
    ∃ i < p.size, ∃ period > 0, IsPeriodicPt p.valueOf period (p.valueOf^[i] id) := by
  have hmaps : ∀ n ∈ Finset.range (p.size + 1), p.valueOf^[n] id ∈ Finset.range p.size := fun n _ =>
    Finset.mem_range.2 (h.iterate_lt hid n)
  obtain ⟨i, hi, j, hj, hne, heq⟩ := Finset.exists_ne_map_eq_of_card_lt_of_maps_to (by simp) hmaps
  have hagain {i j : Nat} (hlt : i < j) (hj : j ∈ Finset.range (p.size + 1)) (heq : p.valueOf^[i] id = p.valueOf^[j] id) :
      ∃ i < p.size, ∃ period > 0, IsPeriodicPt p.valueOf period (p.valueOf^[i] id) := by
    refine ⟨i, Nat.lt_of_lt_of_le hlt (Nat.le_of_lt_succ (Finset.mem_range.1 hj)), j - i, Nat.sub_pos_of_lt hlt, ?_⟩
    rw [IsPeriodicPt, IsFixedPt, ← Function.iterate_add_apply, Nat.sub_add_cancel (Nat.le_of_lt hlt), heq]
  rcases Nat.lt_or_gt_of_ne hne with hlt | hlt
  · exact hagain hlt hj heq
  · exact hagain hlt hi heq.symm

end RefersInside

/-- From a circle no node is reached that stands for itself, unless it is the whole circle. -/
theorem eq_iterate_of_isPeriodicPt {period : Nat} (hpos : 0 < period) (hcircle : IsPeriodicPt p.valueOf period id)
    (hfixed : IsFixedPt p.valueOf (p.valueOf^[n] id)) : p.valueOf^[n] id = id := by
  -- Going round often enough leads past the node, and back to the start.
  have hround : p.valueOf^[n * period] id = id := hcircle.const_mul n
  have hle : n ≤ n * period := Nat.le_mul_of_pos_right n hpos
  rw [← Nat.sub_add_cancel hle, Function.iterate_add_apply, hfixed.iterate] at hround
  exact hround

/-- A node that stands for itself is reached in fewer steps than there are nodes. -/
theorem RefersInside.exists_lt_of_isFixedPt (h : p.RefersInside) (hid : id < p.size)
    (hfixed : IsFixedPt p.valueOf (p.valueOf^[n] id)) : ∃ i < p.size, p.valueOf^[i] id = p.valueOf^[n] id := by
  obtain ⟨i, hi, period, hpos, hcircle⟩ := h.exists_isPeriodicPt hid
  have hlater (m : Nat) (hm : n ≤ m) : p.valueOf^[m] id = p.valueOf^[n] id := by
    rw [← Nat.sub_add_cancel hm, Function.iterate_add_apply, hfixed.iterate]
  have hafter : p.valueOf^[n] (p.valueOf^[i] id) = p.valueOf^[n] id := by
    rw [← Function.iterate_add_apply, hlater (n + i) (Nat.le_add_right n i)]
  have hsame := eq_iterate_of_isPeriodicPt hpos hcircle (hafter ▸ hfixed)
  exact ⟨i, hi, hsame.symm.trans hafter⟩

/-! ## What is found -/

/-- Where names and declarations stand for nodes of the program, so do the nodes on the way. A node that stands for
itself is found just if it is on the way, however long that is, and nothing just if there is none on it; so nothing is
found where the way leads into a circle of two nodes or more. -/
theorem RefersInside.deepValueOf_exact (h : p.RefersInside) (hid : id < p.size) :
    (∀ n, p.valueOf^[n] id < p.size) ∧
    (∀ v, p.deepValueOf id = some v ↔ (∃ n, p.valueOf^[n] id = v) ∧ IsFixedPt p.valueOf v) ∧
    (p.deepValueOf id = none ↔ ∀ n, ¬ IsFixedPt p.valueOf (p.valueOf^[n] id)) ∧
    ∀ n, p.valueOf^[n] id ∈ periodicPts p.valueOf → ¬ IsFixedPt p.valueOf (p.valueOf^[n] id) → p.deepValueOf id = none := by
  have hsome (v : NodeId) : p.deepValueOf id = some v ↔ (∃ n, p.valueOf^[n] id = v) ∧ IsFixedPt p.valueOf v := by
    rw [deepValueOf, valueWithin_eq_some_iff]
    refine and_congr_left fun hfixed => ⟨?_, ?_⟩
    · rintro ⟨n, -, hn⟩
      exact ⟨n, hn⟩
    · rintro ⟨n, rfl⟩
      obtain ⟨i, hi, heq⟩ := h.exists_lt_of_isFixedPt hid hfixed
      exact ⟨i, Nat.lt_succ_of_lt hi, heq⟩
  have hnone : p.deepValueOf id = none ↔ ∀ n, ¬ IsFixedPt p.valueOf (p.valueOf^[n] id) := by
    rw [Option.eq_none_iff_forall_ne_some]
    constructor
    · exact fun hall n hfixed => hall _ ((hsome _).2 ⟨⟨n, rfl⟩, hfixed⟩)
    · rintro hall v hv
      obtain ⟨⟨n, rfl⟩, hfixed⟩ := (hsome v).1 hv
      exact hall n hfixed
  refine ⟨h.iterate_lt hid, hsome, hnone, fun n hcircle hn => hnone.2 fun m hm => ?_⟩
  obtain ⟨period, hpos, hcircle⟩ := hcircle
  -- What stands for itself behind the circle would be on it, and so be all of it.
  have hbehind : p.valueOf^[m] (p.valueOf^[n] id) = p.valueOf^[m] id := by
    rw [← Function.iterate_add_apply, Nat.add_comm, Function.iterate_add_apply, hm.iterate]
  have hsame := eq_iterate_of_isPeriodicPt hpos hcircle (hbehind ▸ hm)
  exact hn (hsame ▸ hbehind ▸ hm)

/-- Here the first four nodes are one way to a label, nodes four to six lead into a circle of two, and the last one
stands for itself. -/
theorem RefersInside.deepValueOf_exact_of_circle :
    let name (target : NodeId) : Node := { kind := .identifier "x" (some target), location := {} }
    let p : Program := { nodes := #[name 1, { kind := .labelDecl "a" 2, location := {} }, name 3,
      { kind := .label "a", location := {} }, name 5, name 6, name 5, name 7] }
    p.RefersInside ∧ p.deepValueOf 0 = some 3 ∧ p.deepValueOf 7 = some 7 ∧ p.deepValueOf 4 = none ∧
      (∀ n, p.valueOf^[n] 4 < 8) ∧ ¬ IsFixedPt p.valueOf (p.valueOf^[100] 4) := by
  intro name p
  have h : p.RefersInside := by
    constructor
    · intro id x target hk
      have hid : id < 8 := lt_of_kind? hk
      interval_cases id <;> cases hk <;> decide
    · intro id x label hk
      have hid : id < 8 := lt_of_kind? hk
      interval_cases id <;> cases hk
      decide
  obtain ⟨-, hway, -, -⟩ := h.deepValueOf_exact (show 0 < p.size by decide)
  obtain ⟨-, hself, -, -⟩ := h.deepValueOf_exact (show 7 < p.size by decide)
  obtain ⟨hinside, -, hnone, hcircle⟩ := h.deepValueOf_exact (show 4 < p.size by decide)
  have hcircle : p.deepValueOf 4 = none := hcircle 1 ⟨2, Nat.two_pos, rfl⟩ (by decide)
  exact ⟨h, (hway 3).2 ⟨⟨3, rfl⟩, rfl⟩, (hself 7).2 ⟨⟨0, rfl⟩, rfl⟩, hcircle, hinside, hnone.1 hcircle 100⟩

end Assembler.Program
