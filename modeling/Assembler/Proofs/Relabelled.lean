import Mathlib.Logic.Relator
import Mathlib.Data.List.Forall2
import Assembler.Proofs.PlainCode
/-!
# Labels that are other nodes

The code of lines does not depend on which nodes their labels are, only on which of them are the same.
So lines that are alike but for a pairing of their labels have one code (`plainCode_alike`), and one
static area if paired labels have one name (`plainStatics_alike`).
-/

namespace Assembler

/-- Operands that are the same, or labels that are paired. -/
inductive Operand.Alike (R : NodeId → NodeId → Prop) : Operand → Operand → Prop
  | integer (value : Int64) : Alike R (.integer value) (.integer value)
  | string (value : String) : Alike R (.string value) (.string value)
  | label {a b : NodeId} (h : R a b) : Alike R (.label a) (.label b)
  | written (place : Place) : Alike R (.written place) (.written place)

/-- Lines that do the same with operands that are alike. -/
structure Line.Alike (R : NodeId → NodeId → Prop) (l l' : Line) : Prop where
  operands : List.Forall₂ (Operand.Alike R) l.operands l'.operands
  own : l.own = l'.own

namespace Line.Alike

variable {R : NodeId → NodeId → Prop}

theorem directive {os os' : List Operand} (h : List.Forall₂ (Operand.Alike R) os os') (name body : String) :
    Alike R (.directive name os body) (.directive name os' body) :=
  ⟨h, rfl⟩

theorem declaration {a b : NodeId} (h : R a b) : Alike R (.declaration a) (.declaration b) := ⟨.cons (.label h) .nil, rfl⟩

theorem jump {o o' : Operand} (h : o.Alike R o') (condition : Condition) : Alike R (.jump condition o) (.jump condition o') := by
  refine ⟨.cons h .nil, ?_⟩
  funext places
  rcases places with _ | ⟨_, _ | _⟩ <;> rfl

theorem compare {l l' r r' : Operand} (hl : l.Alike R l') (hr : r.Alike R r') : Alike R (.compare l r) (.compare l' r') := by
  refine ⟨.cons hl (.cons hr .nil), ?_⟩
  funext places
  rcases places with _ | ⟨_, _ | ⟨_, _ | _⟩⟩ <;> rfl

theorem bare {o o' : Operand} (h : o.Alike R o') : Alike R (.bare o) (.bare o') := by
  refine ⟨?_, rfl⟩
  cases h with
  | integer value => exact .cons (.integer value) .nil
  | string value => exact .cons (.string value) .nil
  | label | written => exact .nil

end Line.Alike

namespace Slots

/-- Slots that are taken by labels that are paired. -/
structure Alike (R : NodeId → NodeId → Prop) (s s' : Slots) : Prop where
  taken : s.taken = s'.taken
  labels : List.Forall₂ (fun x y => R x.1 y.1 ∧ x.2 = y.2) s.labels s'.labels

variable {R : NodeId → NodeId → Prop} (hR : Relator.BiUnique R) {s s' : Slots}
include hR

theorem Alike.lookup_eq (h : Alike R s s') {a b : NodeId} (hab : R a b) : s.labels.lookup a = s'.labels.lookup b := by
  obtain ⟨taken, labels⟩ := s
  obtain ⟨taken', labels'⟩ := s'
  have hlabels : List.Forall₂ (fun x y => R x.1 y.1 ∧ x.2 = y.2) labels labels' := h.labels
  clear h
  change labels.lookup a = labels'.lookup b
  induction hlabels with
  | nil => rfl
  | @cons x y xs ys hxy _ ih =>
    obtain ⟨⟨node, slot⟩, ⟨node', slot'⟩⟩ := x, y
    obtain ⟨hnode, rfl⟩ : R node node' ∧ slot = slot' := hxy
    rw [List.lookup_cons, List.lookup_cons, ih]
    by_cases heq : a = node
    · obtain rfl : b = node' := hR.2 hab (heq ▸ hnode)
      simp [heq]
    · have heq' : b ≠ node' := by
        rintro rfl
        exact heq (hR.1 hab hnode)
      rw [beq_false_of_ne heq, beq_false_of_ne heq']

/-- Operands that are alike have one place, and are defined by one code. -/
theorem Alike.define (h : Alike R s s') {o o' : Operand} (ho : o.Alike R o') :
    (s.define o).1 = (s'.define o').1 ∧ (s.define o).2.1 = (s'.define o').2.1 ∧
      Alike R (s.define o).2.2 (s'.define o').2.2 := by
  have hnext : s.next = s'.next := congrArg (fun taken => Place.static (.ofNat taken)) h.taken
  have htake : Alike R s.take s'.take := ⟨congrArg (· + 1) h.taken, h.labels⟩
  cases ho with
  | integer value | string value => exact ⟨hnext, by simp [Slots.define, hnext], htake⟩
  | @label a b hab =>
    have hlookup := h.lookup_eq hR hab
    simp only [Slots.define, ← hlookup]
    cases s.labels.lookup a with
    | some slot => exact ⟨rfl, rfl, h⟩
    | none => exact ⟨hnext, by rw [hnext], congrArg (· + 1) h.taken, .cons ⟨hab, h.taken⟩ h.labels⟩
  | written place => exact ⟨rfl, rfl, h⟩

theorem Alike.defineAll (h : Alike R s s') {os os' : List Operand} (hos : List.Forall₂ (Operand.Alike R) os os') :
    (s.defineAll os).1 = (s'.defineAll os').1 ∧ (s.defineAll os).2.1 = (s'.defineAll os').2.1 ∧
      Alike R (s.defineAll os).2.2 (s'.defineAll os').2.2 := by
  induction hos generalizing s s' with
  | nil => exact ⟨rfl, rfl, h⟩
  | cons ho _ ih =>
    obtain ⟨hplace, hcode, hslots⟩ := h.define hR ho
    obtain ⟨hplaces, hmore, hslots'⟩ := ih hslots
    exact ⟨congrArg₂ List.cons hplace hplaces, congrArg₂ List.append hcode hmore, hslots'⟩

theorem Alike.line (h : Alike R s s') {l l' : Line} (hl : l.Alike R l') :
    (s.line l).1 = (s'.line l').1 ∧ Alike R (s.line l).2 (s'.line l').2 := by
  obtain ⟨hplaces, hcode, hslots⟩ := h.defineAll hR hl.operands
  refine ⟨?_, hslots⟩
  simp only [Slots.line, hplaces, hcode, hl.own]

theorem Alike.lines (h : Alike R s s') {ls ls' : List Line} (hls : List.Forall₂ (Line.Alike R) ls ls') :
    (s.lines ls).1 = (s'.lines ls').1 := by
  induction hls generalizing s s' with
  | nil => rfl
  | cons hl _ ih =>
    obtain ⟨hcode, hslots⟩ := h.line hR hl
    exact congrArg₂ List.append hcode (ih hslots)

theorem Alike.entries (h : Alike R s s') {name name' : NodeId → String} (hname : ∀ a b, R a b → name a = name' b)
    {os os' : List Operand} (hos : List.Forall₂ (Operand.Alike R) os os') : s.entries name os = s'.entries name' os' := by
  induction hos generalizing s s' with
  | nil => rfl
  | @cons o o' os os' ho _ ih =>
    have hentry : o.entry? name = o'.entry? name' := by
      cases ho with
      | label hab => exact congrArg (fun n => some (Static.label n)) (hname _ _ hab)
      | integer | string | written => rfl
    obtain ⟨-, hcode, hslots⟩ := h.define hR ho
    rw [Slots.entries, Slots.entries, hcode, hentry, ih hslots]

end Slots

section Plain
variable {R : NodeId → NodeId → Prop} (hR : Relator.BiUnique R) {ls ls' : List Line}
include hR

theorem plainCode_alike (h : List.Forall₂ (Line.Alike R) ls ls') : plainCode ls = plainCode ls' := by
  have hempty : Slots.Alike R {} {} := ⟨rfl, .nil⟩
  rw [plainCode, plainCode, hempty.lines hR h]

theorem plainStatics_alike {name name' : NodeId → String} (hname : ∀ a b, R a b → name a = name' b)
    (h : List.Forall₂ (Line.Alike R) ls ls') : plainStatics name ls = plainStatics name' ls' := by
  have hempty : Slots.Alike R {} {} := ⟨rfl, .nil⟩
  refine hempty.entries hR hname ?_
  induction h with
  | nil => exact .nil
  | cons hl _ ih => exact List.rel_append hl.operands ih

end Plain

end Assembler
