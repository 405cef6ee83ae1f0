import Mathlib.Data.List.Infix
import Assembler.Command.Disk
/-!
# Files

A path leads to the same place as long as no directories and no links come or go (`Disk.SameWays.place?_eq`), and no
change of a file makes any (`Disk.SameWays.of_put`). A file that is there has a number, which no file gets that is made
later (`Disk.lt_fresh`). So what is changed through some paths is what they lead to at the start, under whatever names,
and what they make; nothing else is: `Disk.Changed.content_eq`.
-/

namespace Assembler.Disk

variable {d d' d'' : Disk} {path target : String} {names other : List String} {id : Nat}

/-! ## Entries and contents -/

theorem lookup_filter_ne {α β : Type} [BEq α] [LawfulBEq α] {a b : α} (h : b ≠ a) (entries : List (α × β)) :
    (entries.filter fun (key, _) => key != a).lookup b = entries.lookup b := by
  induction entries with
  | nil => rfl
  | cons entry rest ih =>
    obtain ⟨key, value⟩ := entry
    by_cases hkey : key = a
    · subst hkey
      rw [List.filter_cons_of_neg (by simp), ih, List.lookup_cons, beq_eq_false_iff_ne.2 h]
    · rw [List.filter_cons_of_pos (by simpa using hkey), List.lookup_cons, List.lookup_cons, ih]

theorem lookup_put {α β : Type} [BEq α] [LawfulBEq α] [DecidableEq α] (a b : α) (value : β) (entries : List (α × β)) :
    ((a, value) :: entries.filter fun (key, _) => key != a).lookup b = if b = a then some value else entries.lookup b := by
  by_cases h : b = a
  · rw [if_pos h, List.lookup_cons, beq_iff_eq.2 h]
  · rw [if_neg h, List.lookup_cons, beq_eq_false_iff_ne.2 h]
    exact lookup_filter_ne h entries

theorem find?_put (d : Disk) (names other : List String) (content : List UInt8) :
    (d.put names content).find? other = if other = names then some (.file (d.idAt names)) else d.find? other :=
  lookup_put ..

theorem content_put (d : Disk) (names : List String) (content : List UInt8) (id : Nat) :
    (d.put names content).content id = if id = d.idAt names then content else d.content id := by
  rw [Disk.content, put, lookup_put]
  split <;> rfl

theorem lt_foldr {ids : List Nat} (h : id ∈ ids) : id < ids.foldr (fun id bound => max (id + 1) bound) 0 := by
  induction ids with
  | nil => cases h
  | cons first rest ih =>
    rw [List.foldr_cons]
    rcases List.mem_cons.1 h with rfl | h
    · exact Nat.lt_of_lt_of_le (Nat.lt_succ_self _) (Nat.le_max_left ..)
    · exact Nat.lt_of_lt_of_le (ih h) (Nat.le_max_right ..)

/-- A file that is there has another number than the next one to be made. -/
theorem lt_fresh (h : d.find? names = some (.file id)) : id < d.fresh := by
  obtain ⟨before, after, hentries, -⟩ := List.lookup_eq_some_iff.1 h
  refine lt_foldr (List.mem_append_left _ (List.mem_filterMap.2 ⟨(names, .file id), ?_, rfl⟩))
  rw [hentries]
  exact List.mem_append_right _ List.mem_cons_self

theorem idAt_of_file (h : d.find? names = some (.file id)) : d.idAt names = id := by rw [idAt, h]

theorem idAt_of_nothing (h : d.find? names = none) : d.idAt names = d.fresh := by rw [idAt, h]

/-! ## Directories -/

theorem isDirectory_iff : d.isDirectory names ↔
    names <+: workingDirectory ∨ (∃ directory ∈ d.directories, names <+: directory) ∨
      ∃ entry ∈ d.entries, names <+: entry.1 ∧ names ≠ entry.1 := by
  have hstrict (entry : List String) : names <+: entry ∧ names.length < entry.length ↔ names <+: entry ∧ names ≠ entry := by
    refine and_congr_right fun hinit => ⟨fun hlt heq => absurd hlt (heq ▸ Nat.lt_irrefl _), fun hne => ?_⟩
    exact Nat.lt_of_le_of_ne hinit.length_le fun hlength => hne (hinit.eq_of_length hlength)
  simp [isDirectory, or_assoc, hstrict]

/-- What leads to a directory is one. -/
theorem isDirectory_of_isPrefix (h : d.isDirectory names) (hinit : other <+: names) : d.isDirectory other := by
  rcases isDirectory_iff.1 h with hworking | ⟨directory, hmem, hdirectory⟩ | ⟨entry, hmem, hentry, hne⟩
  · exact isDirectory_iff.2 (.inl (hinit.trans hworking))
  · exact isDirectory_iff.2 (.inr (.inl ⟨directory, hmem, hinit.trans hdirectory⟩))
  · refine isDirectory_iff.2 (.inr (.inr ⟨entry, hmem, hinit.trans hentry, ?_⟩))
    rintro rfl
    exact hne (hentry.eq_of_length (Nat.le_antisymm hentry.length_le hinit.length_le))

/-- A file in a directory that is there makes no other directories. -/
theorem isDirectory_put {before : List String} {name : String} (h : d.isDirectory before) (content : List UInt8) :
    (d.put (before ++ [name]) content).isDirectory = d.isDirectory := by
  funext other
  rw [Bool.eq_iff_iff, isDirectory_iff, isDirectory_iff]
  constructor
  · rintro (hworking | hdirectory | ⟨entry, hmem, hentry, hne⟩)
    · exact .inl hworking
    · exact .inr (.inl hdirectory)
    · rcases List.mem_cons.1 hmem with rfl | hmem
      · have hbefore : other <+: before := (List.prefix_concat_iff.1 hentry).resolve_left hne
        exact isDirectory_iff.1 (isDirectory_of_isPrefix h hbefore)
      · exact .inr (.inr ⟨entry, List.mem_of_mem_filter hmem, hentry, hne⟩)
  · rintro (hworking | hdirectory | ⟨entry, hmem, hentry, hne⟩)
    · exact .inl hworking
    · exact .inr (.inl hdirectory)
    · by_cases hsame : entry.1 = before ++ [name]
      · exact .inr (.inr ⟨_, List.mem_cons_self, hsame ▸ hentry, hsame ▸ hne⟩)
      · exact .inr (.inr ⟨entry, List.mem_cons_of_mem _ (List.mem_filter.2 ⟨hmem, by simpa using hsame⟩), hentry, hne⟩)

/-! ## What paths lead to -/

/-- The names of a file, be it there or not. -/
def Target.names? : Target → Option (List String)
  | .file names _ | .nothing names => some names
  | .directory | .slashed _ => none

/-- The names of the file that a way leads to, be it there or not. -/
def placeOf (found : Except FileFault Target) : Option (List String) := found.toOption.bind Target.names?

/-- The names of the file that a path leads to, be it there or not. -/
def place? (d : Disk) (path : String) : Option (List String) := placeOf (d.locate path)

/-- A path leads to a file that is there. -/
def LeadsTo (d : Disk) (path : String) (id : Nat) : Prop := ∃ names, d.locate path = .ok (.file names id)

/-- What a target says is so: a file is there or is not, but the directory for it is. -/
inductive Sound (d : Disk) : Target → Prop
  | file {before : List String} {name : String} {id : Nat} (hbefore : d.isDirectory before)
      (hentry : d.find? (before ++ [name]) = some (.file id)) : Sound d (.file (before ++ [name]) id)
  | nothing {before : List String} {name : String} (hbefore : d.isDirectory before)
      (hentry : d.find? (before ++ [name]) = none) : Sound d (.nothing (before ++ [name]))
  | directory : Sound d .directory
  | slashed (fault : FileFault) : Sound d (.slashed fault)

theorem sound_of_blocked {fault : FileFault} {rest : List String} {found : Target} (h : blocked fault rest = .ok found) :
    Sound d found := by
  unfold blocked at h
  split at h
  · cases h
    exact .slashed fault
  · cases h

theorem sound_of_enter {follow : String → Except FileFault Target} {here rest : List String} {name : String} {found : Target}
    (hfollow : ∀ target found, follow target = .ok found → Sound d found) (hhere : d.isDirectory here)
    (h : enter follow (here ++ [name]) rest (d.find? (here ++ [name])) = .ok found) : Sound d found := by
  cases hentry : d.find? (here ++ [name]) with
  | none =>
    rw [hentry] at h
    simp only [enter] at h
    split at h
    · cases h
      exact .nothing hhere hentry
    · exact sound_of_blocked h
  | some entry =>
    rw [hentry] at h
    cases entry with
    | file id =>
      simp only [enter] at h
      split at h
      · cases h
        exact .file hhere hentry
      · exact sound_of_blocked h
    | link target =>
      simp only [enter] at h
      split at h
      · exact sound_of_blocked h
      · rename_i found' hfound
        cases h
        exact hfollow target _ hfound

/-- Every step but the last leads to a directory. -/
theorem sound_of_walkWith {follow : List String → List String → Except FileFault Target} {here parts : List String}
    {found : Target} (hfollow : ∀ here parts found, d.isDirectory here → follow here parts = .ok found → Sound d found)
    (hhere : d.isDirectory here) (h : d.walkWith follow here parts = .ok found) : Sound d found := by
  fun_induction walkWith d follow here parts with
  | case1 =>
    cases h
    exact .directory
  | case2 here name rest hskip ih => exact ih hhere h
  | case3 here rest hskip ih => exact ih (isDirectory_of_isPrefix hhere (List.dropLast_prefix here)) h
  | case4 here name rest hskip hup there hthere ih => exact ih hthere h
  | case5 => exact sound_of_blocked h
  | case6 here name rest hskip hup there hthere hshort onward =>
    refine sound_of_enter (fun target found honward => hfollow _ _ found ?_ honward) hhere h
    split
    · exact isDirectory_iff.2 (.inl List.nil_prefix)
    · exact hhere

theorem sound_of_walk {links : Nat} {here parts : List String} {found : Target} (hhere : d.isDirectory here)
    (h : d.walk links here parts = .ok found) : Sound d found := by
  induction links generalizing here parts found with
  | zero => exact sound_of_walkWith (fun _ _ _ _ hfound => by cases hfound) hhere h
  | succ links ih => exact sound_of_walkWith (fun _ _ _ hhere hfound => ih hhere hfound) hhere h

/-- What a path leads to lies on a way from a directory along its parts. -/
theorem exists_walk_of_locate {found : Target} (h : d.locate path = .ok found) :
    ∃ here, d.isDirectory here ∧ d.walk maxLinks here (Path.parts path) = .ok found := by
  unfold locate at h
  split at h
  · cases h
  split at h
  · cases h
  split at h
  · cases h
  refine ⟨_, ?_, h⟩
  split
  · exact isDirectory_iff.2 (.inl List.nil_prefix)
  · exact isDirectory_iff.2 (.inl (List.prefix_refl _))

theorem sound_of_locate {found : Target} (h : d.locate path = .ok found) : Sound d found := by
  obtain ⟨here, hhere, hwalk⟩ := exists_walk_of_locate h
  exact sound_of_walk hhere hwalk

theorem exists_locate_of_place? (h : d.place? path = some names) :
    ∃ found, d.locate path = .ok found ∧ found.names? = some names := by
  obtain ⟨found, hfound, hnames⟩ := Option.bind_eq_some_iff.1 h
  cases hlocate : d.locate path with
  | error fault =>
    rw [hlocate] at hfound
    cases hfound
  | ok found' =>
    rw [hlocate] at hfound
    cases hfound
    exact ⟨_, rfl, hnames⟩

/-- At the place that a path leads to there is a file, or nothing, in a directory. -/
theorem cases_of_place? (h : d.place? path = some names) : (∃ before name, names = before ++ [name] ∧ d.isDirectory before) ∧
    ((∃ id, d.locate path = .ok (.file names id) ∧ d.find? names = some (.file id)) ∨
      (d.locate path = .ok (.nothing names) ∧ d.find? names = none)) := by
  obtain ⟨found, hlocate, hnames⟩ := exists_locate_of_place? h
  cases sound_of_locate hlocate with
  | file hbefore hentry =>
    cases hnames
    exact ⟨⟨_, _, rfl, hbefore⟩, .inl ⟨_, hlocate, hentry⟩⟩
  | nothing hbefore hentry =>
    cases hnames
    exact ⟨⟨_, _, rfl, hbefore⟩, .inr ⟨hlocate, hentry⟩⟩
  | directory => cases hnames
  | slashed => cases hnames

theorem place?_of_locate {found : Target} (h : d.locate path = .ok found) : d.place? path = found.names? := by
  rw [place?, h]
  rfl

theorem not_link_of_place? (h : d.place? path = some names) (target : String) : d.find? names ≠ some (.link target) := by
  rcases (cases_of_place? h).2 with ⟨id, -, hentry⟩ | ⟨-, hentry⟩ <;> rw [hentry] <;> rintro ⟨⟩

theorem leadsTo_iff : d.LeadsTo path id ↔ ∃ names, d.place? path = some names ∧ d.find? names = some (.file id) := by
  constructor
  · rintro ⟨names, hlocate⟩
    have hplace : d.place? path = some names := place?_of_locate hlocate
    refine ⟨names, hplace, ?_⟩
    rcases (cases_of_place? hplace).2 with ⟨id', hlocate', hentry⟩ | ⟨hnothing, -⟩
    · cases hlocate.symm.trans hlocate'
      exact hentry
    · cases hlocate.symm.trans hnothing
  · rintro ⟨names, hplace, hentry⟩
    rcases (cases_of_place? hplace).2 with ⟨id', hlocate, hentry'⟩ | ⟨-, hnone⟩
    · cases hentry.symm.trans hentry'
      exact ⟨names, hlocate⟩
    · cases hentry.symm.trans hnone

/-! ## Ways stay the same -/

/-- Directories and links are where they are on another disk. -/
structure SameWays (d d' : Disk) : Prop where
  directory : d'.isDirectory = d.isDirectory
  link : ∀ names target, d'.find? names = some (.link target) ↔ d.find? names = some (.link target)

theorem SameWays.refl (d : Disk) : SameWays d d := ⟨rfl, fun _ _ => .rfl⟩

theorem SameWays.trans (h : SameWays d d') (h' : SameWays d' d'') : SameWays d d'' :=
  ⟨h'.directory.trans h.directory, fun names target => (h'.link names target).trans (h.link names target)⟩

theorem placeOf_blocked (fault : FileFault) (rest : List String) : placeOf (blocked fault rest) = none := by
  unfold blocked
  split <;> rfl

/-- Whether a file is there makes no difference to its names. -/
theorem placeOf_enter_of_not_link {follow : String → Except FileFault Target} {entry : Option Entry}
    (h : ∀ target, entry ≠ some (.link target)) (names rest : List String) :
    placeOf (enter follow names rest entry) = if rest = [] then some names else none := by
  match entry with
  | none =>
    simp only [enter]
    split
    · rfl
    · exact placeOf_blocked ..
  | some (.file id) =>
    simp only [enter]
    split
    · rfl
    · exact placeOf_blocked ..
  | some (.link target) => exact absurd rfl (h target)

theorem placeOf_enter_of_link (follow : String → Except FileFault Target) (names rest : List String) (target : String) :
    placeOf (enter follow names rest (some (.link target))) = placeOf (follow target) := by
  simp only [enter]
  split
  · rename_i fault hfault
    rw [placeOf_blocked, hfault]
    rfl
  · rename_i found hfound
    rw [hfound]

theorem SameWays.placeOf_walkWith (h : SameWays d d') {follow follow' : List String → List String → Except FileFault Target}
    (hfollow : ∀ here parts, placeOf (follow' here parts) = placeOf (follow here parts)) (here parts : List String) :
    placeOf (d'.walkWith follow' here parts) = placeOf (d.walkWith follow here parts) := by
  fun_induction walkWith d follow here parts with
  | case1 => rfl
  | case2 here name rest hskip ih => rw [walkWith, if_pos hskip, ih]
  | case3 here rest hskip ih => rw [walkWith, if_neg hskip, if_pos rfl, ih]
  | case4 here name rest hskip hup there hthere ih => rw [walkWith, if_neg hskip, if_neg hup, h.directory, if_pos hthere, ih]
  | case5 here name rest hskip hup there hthere hlong =>
    rw [walkWith, if_neg hskip, if_neg hup, h.directory, if_neg hthere, if_pos hlong]
  | case6 here name rest hskip hup there hthere hshort onward =>
    rw [walkWith, if_neg hskip, if_neg hup, h.directory, if_neg hthere, if_neg hshort]
    by_cases hlink : ∃ target, d.find? there = some (.link target)
    · obtain ⟨target, htarget⟩ := hlink
      rw [htarget, (h.link there target).2 htarget, placeOf_enter_of_link, placeOf_enter_of_link]
      exact hfollow ..
    · have hnot : ∀ target, d.find? there ≠ some (.link target) := fun target htarget => hlink ⟨target, htarget⟩
      rw [placeOf_enter_of_not_link hnot, placeOf_enter_of_not_link fun target => mt (h.link there target).1 (hnot target)]

theorem SameWays.placeOf_walk (h : SameWays d d') (links : Nat) (here parts : List String) :
    placeOf (d'.walk links here parts) = placeOf (d.walk links here parts) := by
  induction links generalizing here parts with
  | zero => exact h.placeOf_walkWith (fun _ _ => rfl) here parts
  | succ links ih => exact h.placeOf_walkWith ih here parts

/-- Only directories and links decide where a path leads. -/
theorem SameWays.place?_eq (h : SameWays d d') (path : String) : d'.place? path = d.place? path := by
  simp only [place?, locate]
  split
  · rfl
  split
  · rfl
  split
  · rfl
  exact h.placeOf_walk ..

theorem SameWays.of_put (h : d.place? path = some names) (content : List UInt8) : SameWays d (d.put names content) := by
  obtain ⟨⟨before, name, rfl, hbefore⟩, -⟩ := cases_of_place? h
  refine ⟨isDirectory_put hbefore content, fun other target => ?_⟩
  rw [find?_put]
  split
  · rename_i hsame
    rw [hsame]
    exact iff_of_false (by rintro ⟨⟩) (not_link_of_place? h target)
  · rfl

/-! ## Reading and changing -/

/-- What is read through a path is the content of the file that it leads to, if that may be read. -/
theorem read_eq_ok_iff {bytes : List UInt8} : d.read path = .ok bytes ↔ ∃ names id, d.place? path = some names ∧
    d.find? names = some (.file id) ∧ d.refusal? .read names = none ∧ d.content id = bytes := by
  constructor
  · intro h
    unfold read at h
    split at h
    · cases h
    · cases h
    · cases h
    · cases h
    · rename_i names id hlocate
      split at h
      · cases h
      · rename_i hallowed
        obtain ⟨names', hplace, hentry⟩ := leadsTo_iff.1 ⟨names, hlocate⟩
        obtain rfl : names = names' := Option.some.inj ((place?_of_locate hlocate).symm.trans hplace)
        exact ⟨names, id, hplace, hentry, hallowed, Except.ok.inj h⟩
  · rintro ⟨names, id, hplace, hentry, hallowed, rfl⟩
    rcases (cases_of_place? hplace).2 with ⟨id', hlocate, hentry'⟩ | ⟨-, hnone⟩
    · cases hentry.symm.trans hentry'
      rw [read, hlocate]
      simp only [hallowed]
    · cases hentry.symm.trans hnone

/-- A change through a path is one of the file that it leads to, which is made if it is not there, if that may be written. -/
theorem change_eq_ok_iff {f : List UInt8 → List UInt8} : d.change path f = .ok d' ↔ ∃ names, d.place? path = some names ∧
    d.refusal? .write names = none ∧ d' = d.put names (f (d.content (d.idAt names))) := by
  constructor
  · intro h
    unfold change at h
    split at h
    · cases h
    · cases h
    · cases h
    all_goals
      rename_i hlocate
      split at h
      · cases h
      · rename_i hallowed
        exact ⟨_, place?_of_locate hlocate, hallowed, (Except.ok.inj h).symm⟩
  · rintro ⟨names, hplace, hallowed, rfl⟩
    rcases (cases_of_place? hplace).2 with ⟨id, hlocate, -⟩ | ⟨hlocate, -⟩ <;> rw [change, hlocate] <;> simp only [hallowed]

/-- Another disk is this one but for a file with some names and a number, which holds some content there; if it is not
there on this disk, no other file has its number. -/
structure Rewrites (d : Disk) (names : List String) (id : Nat) (content : List UInt8) (d' : Disk) : Prop extends
    SameWays d d' where
  own : d.find? names = some (.file id) ∨ d.find? names = none ∧ ∀ other, d.find? other ≠ some (.file id)
  entry : ∀ other, d'.find? other = if other = names then some (.file id) else d.find? other
  content : ∀ other, d'.content other = if other = id then content else d.content other
  refusals : d'.refusals = d.refusals

theorem rewrites_put (h : d.place? path = some names) (content : List UInt8) :
    Rewrites d names (d.idAt names) content (d.put names content) := by
  refine ⟨.of_put h content, ?_, fun other => find?_put .., fun other => content_put .., rfl⟩
  rcases (cases_of_place? h).2 with ⟨id, -, hentry⟩ | ⟨-, hentry⟩
  · exact .inl (idAt_of_file hentry ▸ hentry)
  · refine .inr ⟨hentry, fun other hother => ?_⟩
    rw [idAt_of_nothing hentry] at hother
    exact absurd (lt_fresh hother) (Nat.lt_irrefl _)

/-- A path to a file that was rewritten leads there still. -/
theorem Rewrites.leadsTo {content : List UInt8} (h : Rewrites d names id content d') (hplace : d.place? path = some names) :
    d'.LeadsTo path id := by
  refine leadsTo_iff.2 ⟨names, (h.place?_eq path).trans hplace, ?_⟩
  rw [h.entry, if_pos rfl]

/-- What a file was rewritten to is what is read through a path to it, if it may be read. -/
theorem Rewrites.read_eq {content : List UInt8} (h : Rewrites d names id content d') (hplace : d.place? path = some names)
    (hallowed : d.refusal? .read names = none) : d'.read path = .ok content := by
  refine read_eq_ok_iff.2 ⟨names, id, (h.place?_eq path).trans hplace, ?_, ?_, ?_⟩
  · rw [h.entry, if_pos rfl]
  · rw [refusal?, h.refusals]
    exact hallowed
  · rw [h.content, if_pos rfl]

/-! ## Changes through some paths -/

/-- A disk after any number of changes through some paths. -/
inductive Changed (paths : List String) (d : Disk) : Disk → Prop
  | refl : Changed paths d d
  | step {d' d'' : Disk} {path : String} {f : List UInt8 → List UInt8} (h : Changed paths d d') (hpath : path ∈ paths)
      (hchange : d'.change path f = .ok d'') : Changed paths d d''

namespace Changed

variable {paths paths' : List String}

theorem trans (h : Changed paths d d') (h' : Changed paths d' d'') : Changed paths d d'' := by
  induction h' with
  | refl => exact h
  | step _ hpath hchange ih => exact .step ih hpath hchange

theorem mono (hsub : paths ⊆ paths') (h : Changed paths d d') : Changed paths' d d' := by
  induction h with
  | refl => exact .refl
  | step _ hpath hchange ih => exact .step ih (hsub hpath) hchange

theorem eq_of_nil (h : Changed [] d d') : d' = d := by
  cases h with
  | refl => rfl
  | step _ hpath => cases hpath

theorem sameWays (h : Changed paths d d') : SameWays d d' := by
  induction h with
  | refl => exact .refl d
  | step _ _ hchange ih =>
    obtain ⟨names, hplace, -, rfl⟩ := change_eq_ok_iff.1 hchange
    exact ih.trans (.of_put hplace _)

/-- Paths lead where they led before. -/
theorem place?_eq (h : Changed paths d d') (path : String) : d'.place? path = d.place? path := h.sameWays.place?_eq path

theorem refusals_eq (h : Changed paths d d') : d'.refusals = d.refusals := by
  induction h with
  | refl => rfl
  | step _ _ hchange ih =>
    obtain ⟨names, -, -, rfl⟩ := change_eq_ok_iff.1 hchange
    exact ih

/-- A file that is there keeps its names, and gets no others: what is made has a number of its own. -/
theorem find?_iff (h : Changed paths d d') (hthere : d.find? names = some (.file id)) :
    d'.find? other = some (.file id) ↔ d.find? other = some (.file id) := by
  induction h generalizing other with
  | refl => rfl
  | @step d' d'' path f hchanged hpath hchange ih =>
    obtain ⟨changed, hplace, -, rfl⟩ := change_eq_ok_iff.1 hchange
    rw [find?_put, ← ih]
    split
    · rename_i hsame
      subst hsame
      rcases (cases_of_place? hplace).2 with ⟨id', -, hentry⟩ | ⟨-, hentry⟩
      · rw [idAt_of_file hentry, hentry]
      · have hlt : id < d'.fresh := lt_fresh (ih.2 hthere)
        rw [idAt_of_nothing hentry, hentry]
        refine iff_of_false (fun hfresh => ?_) (by rintro ⟨⟩)
        cases hfresh
        exact absurd hlt (Nat.lt_irrefl _)
    · rfl

/-- A file that none of the paths leads to keeps its content. -/
theorem content_eq (h : Changed paths d d') (hthere : d.find? names = some (.file id))
    (hother : ∀ path ∈ paths, ¬ d.LeadsTo path id) : d'.content id = d.content id := by
  induction h with
  | refl => rfl
  | @step d' d'' path f hchanged hpath hchange ih =>
    obtain ⟨changed, hplace, -, rfl⟩ := change_eq_ok_iff.1 hchange
    have hne : id ≠ d'.idAt changed := by
      rintro rfl
      rcases (cases_of_place? hplace).2 with ⟨id', -, hentry⟩ | ⟨-, hentry⟩
      · rw [idAt_of_file hentry] at hthere hother
        have hleads : d.LeadsTo path id' :=
          leadsTo_iff.2 ⟨changed, hchanged.place?_eq path ▸ hplace, (hchanged.find?_iff hthere).1 hentry⟩
        exact hother path hpath hleads
      · rw [idAt_of_nothing hentry] at hthere
        exact absurd (lt_fresh ((hchanged.find?_iff hthere).2 hthere)) (Nat.lt_irrefl _)
    rw [content_put, if_neg hne, ih]

end Changed

end Assembler.Disk
