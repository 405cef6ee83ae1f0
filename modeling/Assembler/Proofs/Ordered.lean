import Mathlib.Data.String.Basic
import Assembler.Diagnostic
/-!
# Diagnostics in order

Locations are ordered linearly, and sorting diagnostics by them only moves diagnostics of different
locations past each other (`Diagnostics.isStableSort_sorted`).
-/

namespace Assembler

/-! ## Locations -/

namespace Location

theorem le_iff {a b : Location} :
    a.le b ↔ a.file < b.file ∨ a.file = b.file ∧ (a.line < b.line ∨ a.line = b.line ∧ a.column ≤ b.column) := by
  simp [le]

theorem le_refl (a : Location) : a.le a := by simp [le_iff]

theorem le_trans {a b c : Location} (hab : a.le b) (hbc : b.le c) : a.le c := by
  rw [le_iff] at hab hbc ⊢
  rcases hab with hab | ⟨hab, hline⟩
  · rcases hbc with hbc | ⟨hbc, -⟩
    · exact .inl (lt_trans hab hbc)
    · exact .inl (hbc ▸ hab)
  · rcases hbc with hbc | ⟨hbc, hline'⟩
    · exact .inl (hab ▸ hbc)
    · exact .inr ⟨hab.trans hbc, by omega⟩

theorem le_total (a b : Location) : a.le b ∨ b.le a := by
  rw [le_iff, le_iff]
  rcases lt_trichotomy a.file b.file with h | h | h
  · exact .inl (.inl h)
  · by_cases hline : a.line < b.line ∨ a.line = b.line ∧ a.column ≤ b.column
    · exact .inl (.inr ⟨h, hline⟩)
    · exact .inr (.inr ⟨h.symm, by omega⟩)
  · exact .inr (.inl h)

end Location

/-! ## Diagnostics -/

namespace Diagnostics

/-- Diagnostics put in the order of their locations, those of one location in the order they had. -/
structure IsStableSort (ds sorted : List Diagnostic) : Prop where
  perm : sorted.Perm ds
  ordered : sorted.Pairwise fun a b => a.location.le b.location
  stable : ∀ l, sorted.filter (·.location = l) = ds.filter (·.location = l)

theorem isStableSort_sorted (ds : List Diagnostic) : IsStableSort ds (sorted ds) := by
  have htrans (a b c : Diagnostic) (hab : a.location.le b.location) (hbc : b.location.le c.location) :
      a.location.le c.location := Location.le_trans hab hbc
  have htotal (a b : Diagnostic) : (a.location.le b.location || b.location.le a.location) = true := by
    simpa using Location.le_total a.location b.location
  have hperm : (sorted ds).Perm ds := List.mergeSort_perm ..
  refine ⟨hperm, List.pairwise_mergeSort htrans htotal ds, fun l => ?_⟩
  -- Diagnostics of one location are in order before, so the sort keeps them as they are.
  have hordered : (ds.filter (·.location = l)).Pairwise fun a b => a.location.le b.location := by
    refine List.pairwise_of_forall_mem_list fun a ha b hb => ?_
    rw [of_decide_eq_true (List.mem_filter.1 ha).2, of_decide_eq_true (List.mem_filter.1 hb).2]
    exact Location.le_refl l
  have hsub : (ds.filter (·.location = l)).Sublist (sorted ds) :=
    List.sublist_mergeSort htrans htotal hordered List.filter_sublist
  have hfilter := hsub.filter (·.location = l)
  rw [List.filter_filter] at hfilter
  simp only [Bool.and_self] at hfilter
  exact (hfilter.eq_of_length ((hperm.filter _).length_eq).symm).symm

end Diagnostics

end Assembler
