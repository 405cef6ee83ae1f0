import Mathlib.Data.List.Nodup
import Assembler.Proofs.Assembled
import Assembler.Proofs.Decoded
/-!
# Slots are defined before they are used

The plain code of lines is made instruction by instruction (`Slots.Step`): one that defines the next
slot, or one that finds its operands in slots that are defined already. So the slots are numbered in
the order of their definitions and every use comes after one (`Slots.Run`), and there is exactly one
label instruction for each label that is declared (`Program.Ready.countP_label`).
-/

namespace Assembler

namespace Slots

/-! ## Steps -/

/-- A place that is a slot which is taken. -/
def Holds (s : Slots) (p : Place) : Prop := ∃ slot < s.taken, p = .static (.ofNat slot)

theorem Holds.mono {s s' : Slots} {p : Place} (h : s.Holds p) (hle : s.taken ≤ s'.taken) : s'.Holds p := by
  obtain ⟨slot, hslot, rfl⟩ := h
  exact ⟨slot, Nat.lt_of_lt_of_le hslot hle, rfl⟩

/-- The slots of labels are taken. -/
def Bounded (s : Slots) : Prop := ∀ node slot, s.labels.lookup node = some slot → slot < s.taken

/-- What an instruction of the code of some lines can do. -/
inductive Step (ls : List Line) : Slots → Instruction → Slots → Prop
  | integer (s : Slots) (value : Int64) : Step ls s (.loadInt s.next value) s.take
  | string (s : Slots) (value : String) (h : ∃ l ∈ ls, .string value ∈ l.operands) :
      Step ls s (.loadString s.next value) s.take
  | label (s : Slots) (node : NodeId) (h : ∃ l ∈ ls, .label node ∈ l.operands) (hnew : s.labels.lookup node = none) :
      Step ls s (.label s.next) { s.take with labels := (node, s.taken) :: s.labels }
  | own (s : Slots) (l : Line) (places : List Place) (i : Instruction) (h : l ∈ ls)
      (hlength : places.length = l.operands.length) (hplaces : ∀ p ∈ places, s.Holds p ∨ .written p ∈ l.operands)
      (hi : i ∈ l.own places) : Step ls s i s

/-- Code that is made step by step. -/
inductive Run (ls : List Line) : Slots → List Instruction → Slots → Prop
  | nil (s : Slots) : Run ls s [] s
  | cons {s s' s'' : Slots} {i : Instruction} {code : List Instruction} (hstep : Step ls s i s')
      (hrun : Run ls s' code s'') : Run ls s (i :: code) s''

variable {ls : List Line} {s s' s'' : Slots} {code code' : List Instruction}

theorem Run.append (h : Run ls s code s') (h' : Run ls s' code' s'') : Run ls s (code ++ code') s'' := by
  induction h with
  | nil => exact h'
  | cons hstep _ ih => exact .cons hstep (ih h')

/-- Code is run up to any instruction of it. -/
theorem Run.split {pre post : List Instruction} {i : Instruction} (h : Run ls s (pre ++ i :: post) s'') :
    ∃ s₁ s₂, Run ls s pre s₁ ∧ Step ls s₁ i s₂ := by
  induction pre generalizing s with
  | nil =>
    cases h with
    | cons hstep hrun => exact ⟨_, _, .nil s, hstep⟩
  | cons j pre ih =>
    cases h with
    | cons hstep hrun =>
      obtain ⟨s₁, s₂, hpre, hi⟩ := ih hrun
      exact ⟨s₁, s₂, .cons hstep hpre, hi⟩

/-! ## The code of lines is a run -/

theorem run_define {l : Line} (hl : l ∈ ls) {o : Operand} (ho : o ∈ l.operands) (hs : s.Bounded) :
    Run ls s (s.define o).2.1 (s.define o).2.2 ∧ (s.define o).2.2.Bounded ∧ s.taken ≤ (s.define o).2.2.taken ∧
      ((s.define o).2.2.Holds (s.define o).1 ∨ .written (s.define o).1 ∈ l.operands) := by
  have hnext : s.take.Holds s.next := ⟨s.taken, Nat.lt_succ_self _, rfl⟩
  have htake : s.take.Bounded := fun node slot h => Nat.lt_succ_of_lt (hs node slot h)
  cases o with
  | integer value => exact ⟨.cons (.integer s value) (.nil _), htake, Nat.le_succ _, .inl hnext⟩
  | string value => exact ⟨.cons (.string s value ⟨l, hl, ho⟩) (.nil _), htake, Nat.le_succ _, .inl hnext⟩
  | label node =>
    simp only [define]
    split
    · rename_i slot hslot
      exact ⟨.nil s, hs, Nat.le_refl _, .inl ⟨slot, hs node slot hslot, rfl⟩⟩
    · rename_i hnone
      refine ⟨.cons (.label s node ⟨l, hl, ho⟩ hnone) (.nil _), fun other slot h => ?_, Nat.le_succ _, .inl hnext⟩
      rw [List.lookup_cons] at h
      split at h
      · cases h
        exact Nat.lt_succ_self _
      · exact htake other slot h
  | written place => exact ⟨.nil s, hs, Nat.le_refl _, .inr ho⟩

theorem run_defineAll {l : Line} (hl : l ∈ ls) {os : List Operand} (hos : os ⊆ l.operands) (hs : s.Bounded) :
    Run ls s (s.defineAll os).2.1 (s.defineAll os).2.2 ∧ (s.defineAll os).2.2.Bounded ∧
      s.taken ≤ (s.defineAll os).2.2.taken ∧ (s.defineAll os).1.length = os.length ∧
      ∀ p ∈ (s.defineAll os).1, (s.defineAll os).2.2.Holds p ∨ .written p ∈ l.operands := by
  induction os generalizing s with
  | nil => exact ⟨.nil s, hs, Nat.le_refl _, rfl, by simp [defineAll]⟩
  | cons o os ih =>
    obtain ⟨hrun, hbounded, hle, hplace⟩ := run_define hl (hos List.mem_cons_self) hs
    obtain ⟨hrun', hbounded', hle', hlength, hplaces⟩ := ih (List.subset_of_cons_subset hos) hbounded
    refine ⟨hrun.append hrun', hbounded', Nat.le_trans hle hle', congrArg (· + 1) hlength, fun p hp => ?_⟩
    rcases List.mem_cons.1 hp with rfl | hp
    · exact hplace.imp_left (·.mono hle')
    · exact hplaces p hp

theorem run_of_forall {is : List Instruction} (h : ∀ i ∈ is, Step ls s i s) : Run ls s is s := by
  induction is with
  | nil => exact .nil s
  | cons i is ih => exact .cons (h i List.mem_cons_self) (ih fun j hj => h j (List.mem_cons_of_mem _ hj))

theorem run_line {l : Line} (hl : l ∈ ls) (hs : s.Bounded) : Run ls s (s.line l).1 (s.line l).2 ∧ (s.line l).2.Bounded := by
  obtain ⟨hrun, hbounded, -, hlength, hplaces⟩ := run_defineAll hl (List.Subset.refl _) hs
  exact ⟨hrun.append (run_of_forall fun i hi => .own _ l _ i hl hlength hplaces hi), hbounded⟩

theorem run_lines {ls' : List Line} (hls : ls' ⊆ ls) (hs : s.Bounded) :
    Run ls s (s.lines ls').1 (s.lines ls').2 := by
  induction ls' generalizing s with
  | nil => exact .nil s
  | cons l ls' ih =>
    obtain ⟨hrun, hbounded⟩ := run_line (hls List.mem_cons_self) hs
    exact hrun.append (ih (List.subset_of_cons_subset hls) hbounded)

end Slots

/-! ## What runs have -/

namespace Line

variable {l : Line} {places : List Place} {i : Instruction}

/-- The instruction of a line takes its places as they are. -/
theorem mem_own (h : i ∈ l.own places) :
    (∃ name arguments body, l = .directive name arguments body ∧ i = .directive name places body) ∨
      (∃ condition target, places = [target] ∧ i = .jump condition target) ∨
      ∃ left right, places = [left, right] ∧ i = .compare left right := by
  unfold own at h
  split at h
  · exact .inl ⟨_, _, _, rfl, List.mem_singleton.1 h⟩
  · exact .inr (.inl ⟨_, _, rfl, List.mem_singleton.1 h⟩)
  · exact .inr (.inr ⟨_, _, rfl, List.mem_singleton.1 h⟩)
  · cases h

theorem defined?_own (h : i ∈ l.own places) : i.defined? = none := by
  rcases mem_own h with ⟨name, arguments, body, -, rfl⟩ | ⟨condition, target, -, rfl⟩ | ⟨left, right, -, rfl⟩ <;> rfl

theorem uses_own (h : i ∈ l.own places) : i.uses = places := by
  rcases mem_own h with ⟨name, arguments, body, -, rfl⟩ | ⟨condition, target, rfl, rfl⟩ | ⟨left, right, rfl, rfl⟩ <;> rfl

theorem opcode_own (h : i ∈ l.own places) : i.opcode ≠ .label ∧ i.opcode ≠ .halt := by
  rcases mem_own h with ⟨name, arguments, body, -, rfl⟩ | ⟨condition, target, -, rfl⟩ | ⟨left, right, -, rfl⟩ <;>
    simp [Instruction.opcode]

/-- A line whose texts and argument list can be written. -/
structure Writable (l : Line) : Prop where
  string : ∀ value, .string value ∈ l.operands → FitsInCode value
  directive : ∀ name arguments body, l = .directive name arguments body →
    FitsInCode name ∧ FitsInCode body ∧ arguments.length ≤ 255

theorem Writable.own (h : l.Writable) (hlength : places.length = l.operands.length) (hi : i ∈ l.own places) :
    i.Writable := by
  rcases mem_own hi with ⟨name, arguments, body, rfl, rfl⟩ | ⟨condition, target, -, rfl⟩ | ⟨left, right, -, rfl⟩
  · obtain ⟨hname, hbody, harguments⟩ := h.directive name arguments body rfl
    refine ⟨by simp [Instruction.texts, hname, hbody], ?_⟩
    rintro _ _ _ ⟨⟩
    exact hlength ▸ harguments
  · exact ⟨by simp [Instruction.texts], by simp⟩
  · exact ⟨by simp [Instruction.texts], by simp⟩

end Line

namespace Slots

variable {ls : List Line} {s s' : Slots} {code : List Instruction}

/-- A step defines the next slot, or nothing. -/
theorem Step.defined {i : Instruction} (h : Step ls s i s') :
    i.defined? = some s.next ∧ s'.taken = s.taken + 1 ∨ i.defined? = none ∧ s' = s := by
  cases h with
  | integer | string | label => exact .inl ⟨rfl, rfl⟩
  | own l places _ hl hlength hplaces hi => exact .inr ⟨Line.defined?_own hi, rfl⟩

/-- Definitions number the slots from the first that is free. -/
theorem Run.defined (h : Run ls s code s') :
    ∃ n, s'.taken = s.taken + n ∧
      code.filterMap (·.defined?) = (List.range' s.taken n).map fun slot => Place.static (.ofNat slot) := by
  induction h with
  | nil s => exact ⟨0, rfl, rfl⟩
  | cons hstep _ ih =>
    obtain ⟨n, htaken, hdefined⟩ := ih
    rcases hstep.defined with ⟨hi, htake⟩ | ⟨hi, rfl⟩
    · refine ⟨n + 1, by omega, ?_⟩
      rw [List.filterMap_cons, hi, hdefined, htake, List.range'_succ, List.map_cons, next]
    · exact ⟨n, htaken, by rw [List.filterMap_cons, hi, hdefined]⟩

theorem map_defined?_filter (code : List Instruction) :
    (code.filter (·.isDefinition)).map (·.defined?) = (code.filterMap (·.defined?)).map some := by
  induction code with
  | nil => rfl
  | cons i code ih =>
    cases hi : i.defined? with
    | none => simpa [List.filter_cons, List.filterMap_cons, Instruction.isDefinition, hi] using ih
    | some place => simpa [List.filter_cons, List.filterMap_cons, Instruction.isDefinition, hi] using ih

/-- The definitions of a run from the start are of the slots in order. -/
theorem Run.defined?_eq (h : Run ls {} code s') {k : Nat} {i : Instruction}
    (hi : (code.filter (·.isDefinition))[k]? = some i) : i.defined? = some (.static (.ofNat k)) := by
  obtain ⟨n, -, hdefined⟩ := h.defined
  have hget := congrArg (·[k]?) (map_defined?_filter code)
  simp only [List.getElem?_map, hi, Option.map_some, hdefined] at hget
  obtain ⟨place, hplace, heq⟩ := Option.map_eq_some_iff.1 hget.symm
  obtain ⟨slot, hslot, rfl⟩ := Option.map_eq_some_iff.1 hplace
  obtain ⟨hlt, rfl⟩ := List.getElem?_eq_some_iff.1 hslot
  simpa using heq.symm

/-- The halt defines nothing. -/
theorem filter_isDefinition_plainCode (ls : List Line) :
    (plainCode ls).filter (·.isDefinition) = (({} : Slots).lines ls).1.filter (·.isDefinition) := by
  simp [plainCode, List.filter_append, Instruction.isDefinition, Instruction.defined?]

/-- A slot that an instruction uses was defined before it. -/
theorem Run.exists_definition {pre post : List Instruction} {i : Instruction} (h : Run ls {} (pre ++ i :: post) s')
    (hwritten : ∀ l ∈ ls, ∀ p, .written p ∈ l.operands → p.store ≠ .static) {p : Place} (hp : p ∈ i.uses)
    (hstatic : p.store = .static) : ∃ j ∈ pre, j.defined? = some p := by
  obtain ⟨s₁, s₂, hpre, hstep⟩ := h.split
  obtain ⟨n, htaken, hdefined⟩ := hpre.defined
  cases hstep with
  | integer | string | label => cases hp
  | own l places _ hl hlength hplaces hi =>
    -- The slots that are taken by now were defined, one after the other, by the code so far.
    rcases hplaces p (Line.uses_own hi ▸ hp) with ⟨slot, hslot, rfl⟩ | hw
    · rw [← List.mem_filterMap, hdefined]
      refine List.mem_map_of_mem (List.mem_range'_1.2 ?_)
      exact ⟨Nat.zero_le _, by rw [← htaken]; exact hslot⟩
    · exact absurd hstatic (hwritten l hl p hw)

theorem isSome_lookup_iff {node : NodeId} : (s.labels.lookup node).isSome ↔ node ∈ s.labels.map (·.1) := by
  rw [← not_iff_not, Bool.not_eq_true, Option.isSome_eq_false_iff, Option.isNone_iff_eq_none, List.lookup_eq_none_iff]
  constructor
  · intro h hin
    obtain ⟨p, hp, rfl⟩ := List.mem_map.1 hin
    simpa using h p hp
  · intro h p hp
    exact bne_iff_ne.2 fun he => h (List.mem_map.2 ⟨p, hp, he.symm⟩)

/-- A step is a label instruction exactly if a label gets a slot. -/
theorem Step.labels {i : Instruction} (h : Step ls s i s') :
    (∃ node, i.opcode = .label ∧ s'.labels = (node, s.taken) :: s.labels ∧ s.labels.lookup node = none ∧
        ∃ l ∈ ls, .label node ∈ l.operands) ∨
      i.opcode ≠ .label ∧ s'.labels = s.labels := by
  cases h with
  | integer | string => exact .inr ⟨by simp [Instruction.opcode], rfl⟩
  | label node hnode hnew => exact .inl ⟨node, rfl, rfl, hnew, hnode⟩
  | own l places _ hl hlength hplaces hi =>
    exact .inr ⟨(Line.opcode_own hi).1, rfl⟩

/-- There is a label instruction for each label that gets a slot, and each is an operand of the lines. -/
theorem Run.labels (h : Run ls s code s') (hs : (s.labels.map (·.1)).Nodup) :
    (s'.labels.map (·.1)).Nodup ∧ s'.labels.length = s.labels.length + code.countP (·.opcode = .label) ∧
      ∀ node ∈ s'.labels.map (·.1), node ∈ s.labels.map (·.1) ∨ ∃ l ∈ ls, .label node ∈ l.operands := by
  induction h with
  | nil s => exact ⟨hs, rfl, fun node h => .inl h⟩
  | cons hstep _ ih =>
    rw [List.countP_cons]
    rcases hstep.labels with ⟨node, hlabel, hlabels, hnew, hnode⟩ | ⟨hlabel, hlabels⟩
    · rw [hlabels, List.map_cons, List.nodup_cons] at ih
      obtain ⟨hnodup, hlength, hmem⟩ := ih ⟨fun hin => by simpa [hnew] using isSome_lookup_iff.2 hin, hs⟩
      refine ⟨hnodup, by simp [hlength, hlabel]; omega, fun other hother => ?_⟩
      rcases hmem other hother with hold | hold
      · rcases List.mem_cons.1 hold with rfl | hold
        · exact .inr hnode
        · exact .inl hold
      · exact .inr hold
    · rw [hlabels] at ih
      simpa [hlabel] using ih hs

theorem Run.halt_not_mem (h : Run ls s code s') : .halt ∉ code := by
  induction h with
  | nil => simp
  | cons hstep _ ih =>
    rw [List.mem_cons, not_or]
    refine ⟨?_, ih⟩
    rintro rfl
    cases hstep with
    | own l places _ hl hlength hplaces hi => exact (Line.opcode_own hi).2 rfl

theorem Run.writable (h : Run ls s code s') (hls : ∀ l ∈ ls, l.Writable) : ∀ i ∈ code, i.Writable := by
  induction h with
  | nil => simp
  | cons hstep _ ih =>
    refine List.forall_mem_cons.2 ⟨?_, ih⟩
    cases hstep with
    | integer | label => exact ⟨by simp [Instruction.texts], by simp⟩
    | string value hvalue =>
      obtain ⟨l, hl, hvalue⟩ := hvalue
      exact ⟨by simpa [Instruction.texts] using (hls l hl).string value hvalue, by simp⟩
    | own l places _ hl hlength hplaces hi => exact (hls l hl).own hlength hi

end Slots

/-! ## The lines of a program -/

theorem Line.eq_of_mem_operands_bare {o o' : Operand} (h : o ∈ (bare o').operands) : o = o' := by
  cases o' <;> simp_all [operands]

namespace Node.Kind

/-- The texts of a node that are written to code. -/
def texts : Kind → List String
  | string value => [value]
  | directive name _ body => [name, body]
  | _ => []

/-- Whether a node declares a label. -/
def isDeclaration : Kind → Bool
  | labelDecl .. => true
  | _ => false

end Node.Kind

namespace Program

/-- The texts of all nodes. -/
def texts (p : Program) : List String := p.nodes.toList.flatMap (·.kind.texts)

theorem mem_texts {p : Program} {t : String} : t ∈ p.texts ↔ ∃ id k, p.kind? id = some k ∧ t ∈ k.texts := by
  rw [texts, List.mem_flatMap]
  constructor
  · rintro ⟨n, hn, ht⟩
    obtain ⟨id, hid⟩ := List.mem_iff_getElem?.1 hn
    exact ⟨id, n.kind, kind?_eq_some.2 ⟨n, (Array.getElem?_toList ..).symm.trans hid, rfl⟩, ht⟩
  · rintro ⟨id, k, hk, ht⟩
    obtain ⟨n, hn, rfl⟩ := kind?_eq_some.1 hk
    exact ⟨n, Array.mem_toList_iff.2 (Array.mem_of_getElem? hn), ht⟩

/-- Whether a node is the declaration of a label. -/
def declares (p : Program) (id : NodeId) : Bool := (p.kind? id).any (·.isDeclaration)

theorem declares_iff {p : Program} {id : NodeId} : p.declares id ↔ ∃ name label, p.kind? id = some (.labelDecl name label) := by
  rw [declares, Option.any_eq_true]
  constructor
  · rintro ⟨k, hk, hdeclares⟩
    cases k <;> first | exact ⟨_, _, hk⟩ | cases hdeclares
  · rintro ⟨name, label, hk⟩
    exact ⟨_, hk, rfl⟩

theorem kind?_of_operand?_string {p : Program} {id : NodeId} {value : String} (h : p.operand? id = some (.string value)) :
    p.kind? id = some (.string value) := by
  unfold operand? at h
  split at h <;> cases h
  assumption

theorem kind?_of_line?_directive {p : Program} {id : NodeId} {name body : String} {os : List Operand}
    (h : p.line? id = some (.directive name os body)) :
    ∃ arguments, p.kind? id = some (.directive name arguments body) ∧ arguments.mapM p.operand? = some os := by
  unfold line? at h
  split at h
  · rename_i arguments _ hk
    obtain ⟨os', hos, heq⟩ := Option.map_eq_some_iff.1 h
    cases heq
    exact ⟨arguments, hk, hos⟩
  · cases h
  · obtain ⟨o, ho, heq⟩ := Option.map_eq_some_iff.1 h
    cases heq
  · simp [Option.bind_eq_some_iff] at h
  · obtain ⟨o, ho, heq⟩ := Option.map_eq_some_iff.1 h
    cases heq

namespace Ready

variable {p : Program}

/-- What is defined for a line is an operand of the program. -/
theorem exists_operand?_eq (hp : p.Ready) {id : NodeId} {l : Line} (hl : p.line? id = some l) {o : Operand}
    (ho : o ∈ l.operands) : ∃ c, p.operand? c = some o := by
  cases hk : p.kind? id with
  | none => simp [line?, operand?, hk] at hl
  | some k =>
    simp only [line?, hk] at hl
    cases k with
    | directive name arguments body =>
      obtain ⟨os, hos, rfl⟩ := Option.map_eq_some_iff.1 hl
      obtain ⟨c, -, hc⟩ := (mem_mapM_iff hos).1 ho
      exact ⟨c, hc⟩
    | labelDecl name label =>
      obtain rfl := Option.some.inj hl
      obtain rfl := List.mem_singleton.1 ho
      exact ⟨label, by simp [operand?, (hp.declares id name label hk).2]⟩
    | jump condition target =>
      obtain ⟨o', ho', rfl⟩ := Option.map_eq_some_iff.1 hl
      obtain rfl := List.mem_singleton.1 ho
      exact ⟨target, ho'⟩
    | compare left right =>
      obtain ⟨o₁, ho₁, o₂, ho₂, rfl⟩ : ∃ o₁, p.operand? left = some o₁ ∧ ∃ o₂, p.operand? right = some o₂ ∧
          Line.compare o₁ o₂ = l := by
        simpa [Option.bind_eq_some_iff] using hl
      rcases List.mem_cons.1 ho with rfl | ho
      · exact ⟨left, ho₁⟩
      · obtain rfl := List.mem_singleton.1 ho
        exact ⟨right, ho₂⟩
    | label | identifier | integer | string | slot =>
      obtain ⟨o', ho', rfl⟩ := Option.map_eq_some_iff.1 hl
      exact ⟨id, Line.eq_of_mem_operands_bare ho ▸ ho'⟩

theorem writable (hp : p.Ready) (htexts : ∀ t ∈ p.texts, FitsInCode t) {id : NodeId} {l : Line}
    (hl : p.line? id = some l) : l.Writable := by
  refine ⟨fun value hvalue => ?_, ?_⟩
  · obtain ⟨c, hc⟩ := hp.exists_operand?_eq hl hvalue
    exact htexts value (mem_texts.2 ⟨c, _, kind?_of_operand?_string hc, List.mem_cons_self⟩)
  · rintro name os body rfl
    obtain ⟨arguments, hk, hos⟩ := kind?_of_line?_directive hl
    have htext {t : String} (ht : t ∈ [name, body]) : FitsInCode t := htexts t (mem_texts.2 ⟨id, _, hk, ht⟩)
    refine ⟨htext List.mem_cons_self, htext (List.mem_cons_of_mem _ List.mem_cons_self), ?_⟩
    rw [length_mapM hos]
    exact hp.fits id name arguments body hk

theorem writable_plainCode (hp : p.Ready) (htexts : ∀ t ∈ p.texts, FitsInCode t) {ls : List Line}
    (hls : p.lines? = some ls) : ∀ i ∈ plainCode ls, i.Writable := by
  intro i hi
  rcases List.mem_append.1 hi with hi | hi
  · refine (Slots.run_lines (List.Subset.refl ls) (s := {}) nofun).writable (fun l hl => ?_) i hi
    obtain ⟨id, -, hline⟩ := (mem_mapM_iff hls).1 hl
    exact hp.writable htexts hline
  · obtain rfl := List.mem_singleton.1 hi
    exact ⟨nofun, nofun⟩

/-- A place that is written is a register or a local. -/
theorem store_written (hp : p.Ready) {id : NodeId} {place : Place} (h : p.operand? id = some (.written place)) :
    place.store ≠ .static := by
  unfold operand? at h
  split at h
  · cases h
  · cases h
  · cases h
  · cases h
  · rename_i store index hk
    cases h
    rcases hp.written id store index hk with rfl | rfl <;> simp
  · cases h

/-- A statement is a part of a program once, and so is no statement twice. -/
theorem nodup_declarations (hp : p.Ready) : (p.statements.filter (p.declares ·)).Nodup := by
  refine List.nodup_iff_count.2 fun id => ?_
  by_cases hid : p.declares id = true
  · obtain ⟨name, label, hk⟩ := declares_iff.1 hid
    have hlabel : ¬ p.IsLabel id := by
      rintro ⟨other, hother⟩
      cases hk.symm.trans hother
    exact ((List.filter_sublist.trans (sublist_parts p p.statements)).count_le id).trans (hp.once id hlabel)
  · rw [List.count_eq_zero.2 fun h => hid (List.mem_filter.1 h).2]
    exact Nat.zero_le 1

/-- There is a label instruction for each statement that declares a label. -/
theorem countP_label (hp : p.Ready) {ls : List Line} (hls : p.lines? = some ls) :
    (plainCode ls).countP (·.opcode = .label) = p.statements.countP (p.declares ·) := by
  obtain ⟨hnodup, hlength, hmem⟩ := (Slots.run_lines (List.Subset.refl ls) (s := {}) nofun).labels List.nodup_nil
  set labels := (({} : Slots).lines ls).2.labels.map (·.1) with hlabels
  -- Each label is declared by the statement after it.
  have hperm : (labels.map (· + 1)).Perm (p.statements.filter (p.declares ·)) := by
    refine (List.perm_ext_iff_of_nodup (hnodup.map Nat.succ_injective) hp.nodup_declarations).2 fun id => ?_
    rw [List.mem_map, List.mem_filter, declares_iff]
    constructor
    · rintro ⟨node, hnode, rfl⟩
      obtain ⟨l, hl, ho⟩ := (hmem node hnode).resolve_left (by simp)
      obtain ⟨line, -, hline⟩ := (mem_mapM_iff hls).1 hl
      obtain ⟨c, hc⟩ := hp.exists_operand?_eq hline ho
      obtain ⟨name, hname⟩ := hp.isLabel_of_operand? hc
      obtain ⟨hk, hstatement⟩ := hp.declared name node hname
      exact ⟨hstatement, name, node, hk⟩
    · rintro ⟨hid, name, label, hk⟩
      have hline : Line.declaration label ∈ ls := (mem_mapM_iff hls).2 ⟨id, hid, by simp [line?, hk]⟩
      exact ⟨label, Slots.isSome_lookup_iff.1 (Slots.lookup_lines_of_mem hline), (hp.declares id name label hk).1⟩
  have hcount := hperm.length_eq
  rw [List.length_map, hlabels, List.length_map, hlength, List.length_nil, Nat.zero_add, ← List.countP_eq_length_filter]
    at hcount
  rw [plainCode, List.countP_append, ← hcount]
  rfl

end Ready

end Program

/-! ## Code in order -/

/-- Code that gives the slots of the static area their values in order, each before it is used, and ends with its
only halt. -/
structure Orderly (code : List Instruction) (statics : List Static) : Prop where
  halt : ∃ init, code = init ++ [.halt] ∧ .halt ∉ init
  slot : ∀ k i, (code.filter (·.isDefinition))[k]? = some i →
    ∃ slot : UInt32, slot.toNat = k ∧ i.defined? = some (.static slot)
  entry : List.Forall₂ Instruction.Defines (code.filter (·.isDefinition)) statics
  earlier : ∀ pre i post, code = pre ++ i :: post → ∀ place ∈ i.uses, place.store = .static →
    ∃ j ∈ pre, j.defined? = some place

/-- The plain code of the lines of a ready program is in order. -/
theorem Program.Ready.orderly {p : Program} (hp : p.Ready) {ls : List Line} (hls : p.lines? = some ls)
    {statics : List Static} (hstatics : statics.length < 2 ^ 32)
    (hdefines : List.Forall₂ Instruction.Defines ((plainCode ls).filter (·.isDefinition)) statics) :
    Orderly (plainCode ls) statics := by
  have hrun := Slots.run_lines (List.Subset.refl ls) (s := {}) nofun
  have hoperand {l : Line} (hl : l ∈ ls) {o : Operand} (ho : o ∈ l.operands) : ∃ c, p.operand? c = some o := by
    obtain ⟨id, -, hline⟩ := (mem_mapM_iff hls).1 hl
    exact hp.exists_operand?_eq hline ho
  refine ⟨⟨_, rfl, hrun.halt_not_mem⟩, fun k i hi => ?_, hdefines, ?_⟩
  · have hk : k < 2 ^ 32 := by
      obtain ⟨hlt, -⟩ := List.getElem?_eq_some_iff.1 hi
      exact Nat.lt_trans (hdefines.length_eq ▸ hlt) hstatics
    exact ⟨.ofNat k, UInt32.toNat_ofNat_of_lt' hk, hrun.defined?_eq (Slots.filter_isDefinition_plainCode ls ▸ hi)⟩
  · intro pre i post hcode place hplace hstatic
    -- The halt uses nothing, so the instruction is one of the lines.
    rcases List.eq_nil_or_concat post with rfl | ⟨post, last, rfl⟩
    · obtain ⟨-, rfl⟩ : _ ∧ .halt = i := by simpa using List.append_inj' hcode rfl
      cases hplace
    · have hinit : (({} : Slots).lines ls).1 = pre ++ i :: post := by
        have hcode' : plainCode ls = (pre ++ i :: post) ++ [last] := by simpa using hcode
        exact (List.append_inj' hcode' rfl).1
      rw [hinit] at hrun
      refine hrun.exists_definition (fun l hl place hw => ?_) hplace hstatic
      obtain ⟨c, hc⟩ := hoperand hl hw
      exact hp.store_written hc

/-! ## Sources -/

namespace Workspace.Later

variable {w w' : Workspace}

theorem mem_texts (h : Later w w') {t : String} (ht : t ∈ w'.program.texts) : t ∈ w.program.texts := by
  obtain ⟨id, k, hk, ht⟩ := Program.mem_texts.1 ht
  have hname : ∀ name b, k ≠ .identifier name b := by
    rintro name b rfl
    cases ht
  exact Program.mem_texts.2 ⟨id, k, (h.kind?_iff hname).1 hk, ht⟩

theorem declares_eq (h : Later w w') : w'.program.declares = w.program.declares := by
  funext id
  rw [Bool.eq_iff_iff, Program.declares_iff, Program.declares_iff]
  exact exists_congr fun name => exists_congr fun label => h.kind?_iff (by simp)

end Workspace.Later

/-- The code of an assembled source is read back as instructions in order, one of which is a label for each label
that was declared. -/
theorem Source.assemble_orderly {s : Source} {settings : Settings} {a : Assembly}
    (h : (s.assemble settings).1 = .ok a) (htexts : ∀ t ∈ s.parse.program.texts, FitsInCode t)
    (hstatics : a.statics.size < 2 ^ 32) :
    ∃ code, decodeFrom 0 a.chunk.code = Instruction.located 0 code ∧ Orderly code a.statics.toList ∧
      code.countP (·.opcode = .label) = s.parse.program.statements.countP (s.parse.program.declares ·) := by
  have hlater : s.parse.Later s.analyze := s.bound_parse.resolve.2
  by_cases hnone : s.analyze.diagnostics = []
  · obtain ⟨ls, chunk, statics, hls, hok, hcode, hdefines⟩ := s.assemble_of_no_diagnostics settings hnone
    cases hok.symm.trans h
    have hp := s.ready_analyze hnone
    refine ⟨plainCode ls, ?_, hp.orderly hls hstatics hdefines, ?_⟩
    · rw [hcode]
      exact decodeFrom_flatMap_encode (hp.writable_plainCode (fun t ht => htexts t (hlater.mem_texts ht)) hls) 0
    · rw [hp.countP_label hls, hlater.statements, hlater.declares_eq]
  · rw [s.assemble_of_diagnostics settings hnone] at h
    cases h

/-- A directive before the label that it is given. -/
theorem Source.assemble_orderly_of_directive_forward :
    let s := ofChars "a" ".m \"t\" e { x }\ne:\n".toList
    ∃ a code, (s.assemble {}).1 = .ok a ∧ decodeFrom 0 a.chunk.code = Instruction.located 0 code ∧
      Orderly code a.statics.toList ∧ code.countP (·.opcode = .label) = 1 := by
  intro s
  have hnone : s.analyze.diagnostics = [] := by decide +kernel
  have hlines : s.analyze.program.lines? =
      some [.directive "m" [.string "t", .label 3] "x ", .declaration 3] := by decide +kernel
  have htexts : ∀ t ∈ s.parse.program.texts, FitsInCode t := by decide +kernel
  have hcount : s.parse.program.statements.countP (s.parse.program.declares ·) = 1 := by decide +kernel
  obtain ⟨ls, chunk, statics, hls, hok, -, hdefines⟩ := s.assemble_of_no_diagnostics {} hnone
  obtain rfl := Option.some.inj (hlines.symm.trans hls)
  have hstatics : 2 = statics.toList.length := hdefines.length_eq
  obtain ⟨code, hread, horderly, hlabels⟩ := assemble_orderly hok htexts (by simp [← Array.length_toList, ← hstatics])
  exact ⟨_, code, hok, hread, horderly, hlabels.trans hcount⟩

end Assembler
