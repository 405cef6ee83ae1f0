import Assembler.Bytecode.Instruction
import Assembler.Program
import Assembler.Session
/-!
# Plain code

The code of a program as a function of its lines alone. A line is a statement with its operands; an
operand is a literal, a label or a place that is written out. Each literal and each label gets a
slot of the static area where it is met first, and the instruction that defines it stands there.
So the lines and the names of labels tell the static area as well (`plainStatics`).
-/

namespace Assembler

/-! ## Definitions and uses -/

namespace Instruction

/-- The place that an instruction gives its value. -/
def defined? : Instruction → Option Place
  | loadInt place _ | loadString place _ | label place => some place
  | _ => none

def isDefinition (i : Instruction) : Bool := i.defined?.isSome

/-- The places that an instruction finds its operands in. -/
def uses : Instruction → List Place
  | directive _ arguments _ => arguments
  | jump _ target => [target]
  | compare left right => [left, right]
  | _ => []

/-- An instruction gives its place the value of an entry of the static area. -/
inductive Defines : Instruction → Static → Prop
  | integer (place : Place) (value : Int64) : Defines (.loadInt place value) (.integer value)
  | string (place : Place) (value : String) : Defines (.loadString place value) (.string value)
  | label (place : Place) (name : String) : Defines (.label place) (.label name)

theorem Defines.isDefinition {i : Instruction} {s : Static} (h : i.Defines s) : i.isDefinition := by
  cases h <;> rfl

end Instruction

/-! ## Lines -/

/-- What an operand stands for. -/
inductive Operand
  | integer (value : Int64)
  | string (value : String)
  | label (node : NodeId)
  | written (place : Place)
  deriving DecidableEq, Repr

/-- A statement with its operands. -/
inductive Line
  | directive (name : String) (arguments : List Operand) (body : String)
  | declaration (label : NodeId)
  | jump (condition : Condition) (target : Operand)
  | compare (left right : Operand)
  | bare (operand : Operand)
  deriving DecidableEq, Repr

namespace Program

/-- The operand that a node is; a name is what it is bound to. -/
def operand? (p : Program) (id : NodeId) : Option Operand :=
  match p.kind? id with
  | some (.integer value) => some (.integer value)
  | some (.string value) => some (.string value)
  | some (.label _) => some (.label id)
  | some (.identifier _ (some label)) => some (.label label)
  | some (.slot store index) => some (.written ⟨store, index⟩)
  | _ => none

/-- The line that a node is. -/
def line? (p : Program) (id : NodeId) : Option Line :=
  match p.kind? id with
  | some (.directive name arguments body) => (arguments.mapM p.operand?).map (.directive name · body)
  | some (.labelDecl _ label) => some (.declaration label)
  | some (.jump condition target) => (p.operand? target).map (.jump condition)
  | some (.compare left right) => do return .compare (← p.operand? left) (← p.operand? right)
  | _ => (p.operand? id).map .bare

/-- The name of a label; no other node has one. -/
def labelName (p : Program) (id : NodeId) : String :=
  match p.kind? id with
  | some (.label name) => name
  | _ => ""

/-- The lines of a program in the order in which they take effect. -/
def lines? (p : Program) : Option (List Line) := p.statements.mapM p.line?

end Program

namespace Line

/-- The operands that are defined for a line; a name or a place by itself needs none. -/
def operands : Line → List Operand
  | directive _ arguments _ => arguments
  | declaration label => [.label label]
  | jump _ target => [target]
  | compare left right => [left, right]
  | bare (.integer value) => [.integer value]
  | bare (.string value) => [.string value]
  | bare _ => []

/-- The instruction of a line itself, given where its operands are. -/
def own : Line → List Place → List Instruction
  | directive name _ body, places => [.directive name places body]
  | jump condition _, [target] => [.jump condition target]
  | compare .., [left, right] => [.compare left right]
  | _, _ => []

end Line

/-! ## Slots -/

/-- The slots of the static area that are taken, and those of labels, the latest first. -/
structure Slots where
  taken : Nat := 0
  labels : List (NodeId × Nat) := []
  deriving DecidableEq, Repr

namespace Slots

/-- The place that is free next. -/
def next (s : Slots) : Place := .static (.ofNat s.taken)

def take (s : Slots) : Slots := { s with taken := s.taken + 1 }

/-- Where an operand is, with the instruction that defines it unless it was defined before. -/
def define (s : Slots) : Operand → Place × List Instruction × Slots
  | .integer value => (s.next, [.loadInt s.next value], s.take)
  | .string value => (s.next, [.loadString s.next value], s.take)
  | .label node =>
    match s.labels.lookup node with
    | some slot => (.static (.ofNat slot), [], s)
    | none => (s.next, [.label s.next], { s.take with labels := (node, s.taken) :: s.labels })
  | .written place => (place, [], s)

/-- Where some operands are, defined from left to right. -/
def defineAll (s : Slots) : List Operand → List Place × List Instruction × Slots
  | [] => ([], [], s)
  | o :: os =>
    let (place, code, s) := s.define o
    let (places, more, s) := s.defineAll os
    (place :: places, code ++ more, s)

/-- The code of a line: its operands' first, then its own. -/
def line (s : Slots) (l : Line) : List Instruction × Slots :=
  let (places, code, s) := s.defineAll l.operands
  (code ++ l.own places, s)

def lines (s : Slots) : List Line → List Instruction × Slots
  | [] => ([], s)
  | l :: ls =>
    let (code, s) := s.line l
    let (more, s) := s.lines ls
    (code ++ more, s)

/-- An operand by itself is defined, unless it is a label, which was defined before. -/
theorem line_bare {s : Slots} {o : Operand} (ho : ∀ node, o = .label node → (s.labels.lookup node).isSome) :
    s.line (.bare o) = (s.define o).2 := by
  cases o with
  | label node =>
    obtain ⟨slot, hslot⟩ := Option.isSome_iff_exists.1 (ho node rfl)
    simp [line, Line.operands, defineAll, Line.own, define, hslot]
  | integer | string | written => simp [line, Line.operands, defineAll, Line.own, define]

/-! ## Slots of labels -/

variable {s : Slots} {node : NodeId} {slot : Nat}

theorem lookup_define (h : s.labels.lookup node = some slot) (o : Operand) :
    (s.define o).2.2.labels.lookup node = some slot := by
  cases o with
  | label other =>
    simp only [define]
    split
    · exact h
    · rename_i hnone
      have hne : node ≠ other := by
        rintro rfl
        cases h.symm.trans hnone
      rw [List.lookup_cons, beq_false_of_ne hne, h]
  | integer | string | written => exact h

theorem lookup_define_self (s : Slots) (node : NodeId) : ((s.define (.label node)).2.2.labels.lookup node).isSome := by
  simp only [define]
  split
  · simp [*]
  · simp

theorem lookup_defineAll (h : s.labels.lookup node = some slot) (os : List Operand) :
    (s.defineAll os).2.2.labels.lookup node = some slot := by
  induction os generalizing s with
  | nil => exact h
  | cons o os ih => exact ih (lookup_define h o)

theorem lookup_line (h : s.labels.lookup node = some slot) (l : Line) : (s.line l).2.labels.lookup node = some slot :=
  lookup_defineAll h l.operands

theorem lookup_lines (h : s.labels.lookup node = some slot) (ls : List Line) :
    (s.lines ls).2.labels.lookup node = some slot := by
  induction ls generalizing s with
  | nil => exact h
  | cons l ls ih => exact ih (lookup_line h l)

/-- A label that was declared has a slot. -/
theorem lookup_lines_of_mem {ls : List Line} (h : .declaration node ∈ ls) :
    ((s.lines ls).2.labels.lookup node).isSome := by
  induction ls generalizing s with
  | nil => cases h
  | cons l ls ih =>
    rcases List.mem_cons.1 h with rfl | h
    · obtain ⟨slot, hslot⟩ := Option.isSome_iff_exists.1 (lookup_define_self s node)
      have hline : (s.line (.declaration node)).2.labels.lookup node = some slot := hslot
      simp [lines, lookup_lines hline ls]
    · exact ih h

theorem lines_append (s : Slots) (ls ls' : List Line) :
    s.lines (ls ++ ls') = ((s.lines ls).1 ++ ((s.lines ls).2.lines ls').1, ((s.lines ls).2.lines ls').2) := by
  induction ls generalizing s with
  | nil => simp [lines]
  | cons l ls ih => simp [lines, ih]

theorem defineAll_append (s : Slots) (os os' : List Operand) :
    (s.defineAll (os ++ os')).2 = ((s.defineAll os).2.1 ++ ((s.defineAll os).2.2.defineAll os').2.1,
      ((s.defineAll os).2.2.defineAll os').2.2) := by
  induction os generalizing s with
  | nil => rfl
  | cons o os ih => simp [defineAll, ih]

end Slots

/-- The code of lines, with the halt that ends it. -/
def plainCode (ls : List Line) : List Instruction := (({} : Slots).lines ls).1 ++ [.halt]

/-! ## Static data -/

/-- The entry of the static area for an operand that is defined, where labels have names. -/
def Operand.entry? (name : NodeId → String) : Operand → Option Static
  | integer value => some (.integer value)
  | string value => some (.string value)
  | label node => some (.label (name node))
  | written _ => none

/-- The entries for some operands, one for each that is defined. -/
def Slots.entries (name : NodeId → String) (s : Slots) : List Operand → List Static
  | [] => []
  | o :: os =>
    (if (s.define o).2.1.isEmpty then [] else (o.entry? name).toList) ++ (s.define o).2.2.entries name os

/-- The static area of lines. -/
def plainStatics (name : NodeId → String) (ls : List Line) : List Static :=
  ({} : Slots).entries name (ls.flatMap Line.operands)

namespace Slots

theorem isDefinition_of_mem_defineAll {s : Slots} {os : List Operand} {i : Instruction}
    (hi : i ∈ (s.defineAll os).2.1) : i.isDefinition := by
  induction os generalizing s with
  | nil => cases hi
  | cons o os ih =>
    rcases List.mem_append.1 hi with hi | hi
    · cases o with
      | label node =>
        change i ∈ (s.define (.label node)).2.1 at hi
        rw [define] at hi
        split at hi
        · cases hi
        · obtain rfl := List.mem_singleton.1 hi
          rfl
      | written place => cases hi
      | integer | string =>
        obtain rfl := List.mem_singleton.1 hi
        rfl
    · exact ih hi

theorem filter_isDefinition_own (l : Line) (places : List Place) : (l.own places).filter (·.isDefinition) = [] := by
  unfold Line.own
  split <;> rfl

/-- Lines define their operands, one line after the other. -/
theorem filter_isDefinition_lines (s : Slots) (ls : List Line) :
    ((s.lines ls).1.filter (·.isDefinition), (s.lines ls).2) = (s.defineAll (ls.flatMap Line.operands)).2 := by
  induction ls generalizing s with
  | nil => rfl
  | cons l ls ih =>
    have hcode : (s.defineAll l.operands).2.1.filter (·.isDefinition) = (s.defineAll l.operands).2.1 :=
      List.filter_eq_self.2 fun i hi => isDefinition_of_mem_defineAll hi
    obtain ⟨hmore, hslots⟩ := Prod.mk.inj (ih (s.line l).2)
    rw [List.flatMap_cons, defineAll_append]
    simp only [lines, line, List.filter_append, hcode, filter_isDefinition_own, List.append_nil] at hmore hslots ⊢
    rw [hmore, hslots]

end Slots

end Assembler
