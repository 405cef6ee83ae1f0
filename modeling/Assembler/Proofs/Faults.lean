import Assembler.Proofs.Bindings
/-!
# Faults

What resolving the names of a program reports, statement by statement and operand by operand, each fault at its own
node: a name that no label is declared under, and a jump to a string literal (`Program.faults`). Nothing else is
reported, and nothing is left out: `Workspace.IsRead.diagnostics_resolve`. A name is declared if a label of that name
stands anywhere in the source. Main statement: `Source.analyze_reports`.
-/

namespace Assembler

namespace Program

variable (p : Program)

/-- What is reported of a name that is not declared. -/
def nameFault (declared : String → Bool) (id : NodeId) : List Diagnostic :=
  match p.kind? id with
  | some (.identifier name _) =>
    if declared name then [] else [{ cause := .undeclaredIdentifier, location := p.location id, context := some name }]
  | _ => []

/-- What is reported of a string literal as the target of a jump. -/
def targetFault (id : NodeId) : List Diagnostic :=
  match p.kind? id with
  | some (.string value) =>
    [{ cause := .illegalExpression, location := p.location id,
        context := some ("cannot jump to string literal " ++ Text.quoted value) }]
  | _ => []

/-- What is reported of a statement. -/
def faults (declared : String → Bool) (id : NodeId) : List Diagnostic :=
  match p.kind? id with
  | some (.directive _ arguments _) => arguments.flatMap (p.nameFault declared)
  | some (.identifier ..) => p.nameFault declared id
  | some (.jump _ target) => p.nameFault declared target ++ p.targetFault target
  | some (.compare left right) => p.nameFault declared left ++ p.nameFault declared right
  | _ => []

variable {p}

/-! ## Faults are at nodes -/

theorem location_of_node? {id : NodeId} {n : Node} (h : p.node? id = some n) : p.location id = n.location := by
  simp [location, h]

/-- A fault is at a node of the program. -/
theorem exists_node_of_mem_nameFault {declared : String → Bool} {id : NodeId} {d : Diagnostic} (h : d ∈ p.nameFault declared id) :
    ∃ c n, p.node? c = some n ∧ d.location = n.location := by
  unfold nameFault at h
  split at h
  · rename_i hk
    obtain ⟨n, hn, -⟩ := kind?_eq_some.1 hk
    split at h
    · cases h
    · obtain rfl := List.mem_singleton.1 h
      exact ⟨id, n, hn, location_of_node? hn⟩
  · cases h

theorem exists_node_of_mem_targetFault {id : NodeId} {d : Diagnostic} (h : d ∈ p.targetFault id) :
    ∃ c n, p.node? c = some n ∧ d.location = n.location := by
  unfold targetFault at h
  split at h
  · rename_i hk
    obtain ⟨n, hn, -⟩ := kind?_eq_some.1 hk
    obtain rfl := List.mem_singleton.1 h
    exact ⟨id, n, hn, location_of_node? hn⟩
  · cases h

/-- A fault of a statement is one of the statement's own node or of an operand of it. -/
theorem exists_part_of_mem_faults {declared : String → Bool} {id : NodeId} {d : Diagnostic} (h : d ∈ p.faults declared id) :
    ∃ c ∈ id :: p.children id, d ∈ p.nameFault declared c ∨ d ∈ p.targetFault c := by
  unfold faults at h
  split at h
  · rename_i hk
    obtain ⟨a, ha, hd⟩ := List.mem_flatMap.1 h
    exact ⟨a, List.mem_cons_of_mem _ (by rwa [children_of_kind? hk]), .inl hd⟩
  · exact ⟨id, List.mem_cons_self, .inl h⟩
  · rename_i condition target hk
    exact ⟨target, by simp [children_of_kind? hk, Node.Kind.children], List.mem_append.1 h⟩
  · rename_i left right hk
    rcases List.mem_append.1 h with hd | hd
    · exact ⟨left, by simp [children_of_kind? hk, Node.Kind.children], .inl hd⟩
    · exact ⟨right, by simp [children_of_kind? hk, Node.Kind.children], .inl hd⟩
  · cases h

theorem exists_node_of_mem_faults {declared : String → Bool} {id : NodeId} {d : Diagnostic} (h : d ∈ p.faults declared id) :
    ∃ c n, p.node? c = some n ∧ d.location = n.location := by
  obtain ⟨c, -, hd | hd⟩ := exists_part_of_mem_faults h
  · exact exists_node_of_mem_nameFault hd
  · exact exists_node_of_mem_targetFault hd

/-! ## Binding names leaves faults as they are -/

theorem location_setBinding (p : Program) (id target i : NodeId) : (p.setBinding id target).location i = p.location i := by
  simp only [location, setBinding, node?_modify]
  split
  · cases p.node? i with
    | none => rfl
    | some n =>
      simp only [Option.map_some, Option.getD_some]
      split <;> rfl
  · rfl

end Program

namespace Workspace

/-- The names that something is bound to. -/
def declared (w : Workspace) (name : String) : Bool := (w.find? name).isSome

/-- One workspace comes of another as names are looked up: nodes stay where they are, no name is declared that was not,
and some diagnostics are added. -/
structure Walks (w : Workspace) (ds : List Diagnostic) (w' : Workspace) : Prop where
  bound : w'.Bound
  later : w.Later w'
  location : w'.program.location = w.program.location
  declared : w'.declared = w.declared
  diagnostics : w'.diagnostics = w.diagnostics ++ ds

variable {w w' w'' : Workspace} {ds ds' : List Diagnostic}

namespace Walks

theorem refl (h : w.Bound) : Walks w [] w := ⟨h, .refl w, rfl, rfl, (List.append_nil _).symm⟩

theorem trans (h : Walks w ds w') (h' : Walks w' ds' w'') : Walks w (ds ++ ds') w'' where
  bound := h'.bound
  later := h.later.trans h'.later
  location := h'.location.trans h.location
  declared := h'.declared.trans h.declared
  diagnostics := by rw [h'.diagnostics, h.diagnostics, List.append_assoc]

/-- What a node is but for what it is bound to. -/
theorem cases_kind? (h : Walks w ds w') (id : NodeId) :
    w'.program.kind? id = w.program.kind? id ∨
      ∃ name b b', w.program.kind? id = some (.identifier name b) ∧ w'.program.kind? id = some (.identifier name b') := by
  cases hk : w.program.kind? id with
  | none =>
    have hkind := h.later.kind id
    rw [hk, Option.map_none, Option.map_eq_none_iff] at hkind
    exact .inl hkind
  | some k =>
    cases k with
    | identifier name b =>
      obtain ⟨b', hb'⟩ := h.later.name_iff.2 ⟨b, hk⟩
      exact .inr ⟨name, b, b', rfl, hb'⟩
    | directive | labelDecl | label | integer | string | slot | jump | compare =>
      exact .inl ((h.later.kind?_iff (by simp)).2 hk)

theorem nameFault_eq (h : Walks w ds w') : w'.program.nameFault w'.declared = w.program.nameFault w.declared := by
  funext id
  unfold Program.nameFault
  rw [h.location, h.declared]
  rcases h.cases_kind? id with hk | ⟨name, b, b', hk, hk'⟩
  · rw [hk]
  · rw [hk, hk']

theorem targetFault_eq (h : Walks w ds w') : w'.program.targetFault = w.program.targetFault := by
  funext id
  unfold Program.targetFault
  rw [h.location]
  rcases h.cases_kind? id with hk | ⟨name, b, b', hk, hk'⟩
  · rw [hk]
  · rw [hk, hk']

theorem faults_eq (h : Walks w ds w') : w'.program.faults w'.declared = w.program.faults w.declared := by
  funext id
  unfold Program.faults
  rw [h.nameFault_eq, h.targetFault_eq]
  rcases h.cases_kind? id with hk | ⟨name, b, b', hk, hk'⟩
  · rw [hk]
  · rw [hk, hk']

end Walks

/-! ## Walking a statement -/

theorem walks_report (hb : w.Bound) {d : Diagnostic} (hd : d.severity = .error) : Walks w [d] (w.report d) := by
  obtain ⟨hbound, hlater⟩ := hb.report hd
  exact ⟨hbound, hlater, rfl, rfl, rfl⟩

theorem walks_resolveIdentifier (hb : w.Bound) {id : NodeId} {name : String} {b : Option NodeId}
    (hk : w.program.kind? id = some (.identifier name b)) :
    Walks w (w.program.nameFault w.declared id) (w.resolveIdentifier id name) := by
  obtain ⟨hbound, hlater, -⟩ := hb.resolveIdentifier hk
  have hfault : w.program.nameFault w.declared id = if w.declared name then []
      else [{ cause := .undeclaredIdentifier, location := w.program.location id, context := some name }] := by
    rw [Program.nameFault, hk]
  rw [hfault]
  revert hbound hlater
  unfold resolveIdentifier
  split
  · rename_i target hfind
    intro hbound hlater
    rw [if_pos (by simp [declared, hfind])]
    exact ⟨hbound, hlater, funext (Program.location_setBinding w.program id target), rfl, (List.append_nil _).symm⟩
  · rename_i hfind
    intro hbound hlater
    rw [if_neg (by simp [declared, hfind])]
    exact ⟨hbound, hlater, rfl, rfl, rfl⟩

theorem walks_operand (hb : w.Bound) {id depth : Nat} (hdepth : id < depth) (h : w.program.IsOperand id) :
    Walks w (w.program.nameFault w.declared id) (resolveWithin depth id w) := by
  obtain ⟨depth, rfl⟩ := Nat.exists_eq_succ_of_ne_zero (Nat.ne_zero_of_lt hdepth)
  obtain ⟨k, hk, he⟩ := h
  rw [resolveWithin, hk]
  cases k with
  | identifier name b => exact walks_resolveIdentifier hb hk
  | label | integer | string | slot =>
    rw [Program.nameFault, hk]
    exact .refl hb
  | directive | labelDecl | jump | compare => cases he

theorem walks_arguments (hb : w.Bound) {ids : List NodeId} {depth : Nat} (h : ∀ id ∈ ids, id < depth ∧ w.program.IsOperand id) :
    Walks w (ids.flatMap (w.program.nameFault w.declared)) (ids.foldl (fun w id => resolveWithin depth id w) w) := by
  induction ids generalizing w with
  | nil => exact .refl hb
  | cons id ids ih =>
    obtain ⟨⟨hdepth, hid⟩, hids⟩ := List.forall_mem_cons.1 h
    have hfirst := walks_operand hb hdepth hid
    have hrest := ih hfirst.bound fun i hi => (hids i hi).imp_right hfirst.later.isOperand
    rw [hfirst.nameFault_eq] at hrest
    exact hfirst.trans hrest

/-- An operand stands for a string literal only if it is one: a name stands for a label or for itself. -/
theorem walks_checkTarget (hb : w.Bound) {id : NodeId} (h : w.program.IsOperand id) :
    Walks w (w.program.targetFault id) (w.checkTarget id) := by
  obtain ⟨k, hk, he⟩ := h
  have hself (hvalue : w.program.valueOf id = id) : (w.program.deepValueOf id).bind w.program.kind? = some k := by
    rw [Program.deepValueOf_of_valueOf hvalue, Option.bind_some, hk]
  rw [checkTarget, Program.targetFault, hk]
  cases k with
  | identifier name b =>
    cases b with
    | none =>
      rw [hself (by rw [Program.valueOf, hk])]
      exact .refl hb
    | some t =>
      rw [(hb.deepValueOf_eq hk).2, Option.bind_some, hb.name_label id name t hk]
      exact .refl hb
  | string value =>
    rw [hself (by rw [Program.valueOf, hk])]
    exact walks_report hb rfl
  | label | integer | slot =>
    rw [hself (by rw [Program.valueOf, hk])]
    exact .refl hb
  | directive | labelDecl | jump | compare => cases he

/-- A declaration of a name that is declared already reports nothing and declares nothing new. -/
theorem walks_bind (hb : w.Bound) {id label : NodeId} {name : String} (hk : w.program.kind? id = some (.labelDecl name label))
    (hname : w.declared name) : Walks w [] (w.bind name label).2 := by
  obtain ⟨hbound, hlater⟩ := hb.declare hk
  refine ⟨hbound, hlater, rfl, funext fun other => ?_, (List.append_nil _).symm⟩
  rw [declared, (hb.toRooted.bind name label).2]
  split
  · subst_vars
    exact hname.symm
  · rfl

theorem walks_resolveStatement (hb : w.Bound) {id : NodeId} (h : w.IsStatement id)
    (hdeclared : ∀ name label, w.program.kind? id = some (.labelDecl name label) → w.declared name) :
    Walks w (w.program.faults w.declared id) (w.resolveStatement id) := by
  obtain ⟨hlt, hchild⟩ := h
  obtain ⟨depth, hdepth⟩ := Nat.exists_eq_succ_of_ne_zero (Nat.ne_zero_of_lt hlt)
  obtain ⟨n, hn⟩ := Program.node?_of_lt hlt
  have hk : w.program.kind? id = some n.kind := Program.kind?_eq_some.2 ⟨n, hn, rfl⟩
  have hpart : ∀ c ∈ n.kind.children, c < depth ∧ w.program.IsOperand c := by
    intro c hc
    obtain ⟨hc', hoperand⟩ := hchild c (Program.children_of_kind? hk ▸ hc)
    exact ⟨Nat.lt_of_lt_of_le hc' (Nat.le_of_lt_succ (hdepth ▸ hlt)), hoperand⟩
  rw [resolveStatement, hdepth, resolveWithin, Program.faults, hk]
  cases hkind : n.kind with
  | directive name arguments body =>
    rw [hkind] at hpart
    exact walks_arguments hb hpart
  | labelDecl name label => exact walks_bind hb (hkind ▸ hk) (hdeclared name label (hkind ▸ hk))
  | identifier name b => exact walks_resolveIdentifier hb (hkind ▸ hk)
  | jump condition target =>
    obtain ⟨htarget, hoperand⟩ := hpart target (by simp [hkind, Node.Kind.children])
    have hwalk := walks_operand hb htarget hoperand
    have hcheck := walks_checkTarget hwalk.bound (hwalk.later.isOperand hoperand)
    rw [hwalk.targetFault_eq] at hcheck
    exact hwalk.trans hcheck
  | compare left right =>
    obtain ⟨hleft, hoperand⟩ := hpart left (by simp [hkind, Node.Kind.children])
    obtain ⟨hright, hoperand'⟩ := hpart right (by simp [hkind, Node.Kind.children])
    have hwalk := walks_operand hb hleft hoperand
    have hwalk' := walks_operand hwalk.bound hright (hwalk.later.isOperand hoperand')
    rw [hwalk.nameFault_eq] at hwalk'
    exact hwalk.trans hwalk'
  | label | integer | string | slot => exact .refl hb

/-! ## Walking all statements -/

/-- Statements are walked one after the other, if all labels that they declare were bound before. -/
theorem walks_foldl (hb : w.Bound) {ids : List NodeId} (hids : ∀ id ∈ ids, w.IsStatement id)
    (hdeclared : ∀ id ∈ ids, ∀ name label, w.program.kind? id = some (.labelDecl name label) → w.declared name) :
    Walks w (ids.flatMap (w.program.faults w.declared)) (ids.foldl resolveStatement w) := by
  induction ids generalizing w with
  | nil => exact .refl hb
  | cons id ids ih =>
    obtain ⟨hid, hids⟩ := List.forall_mem_cons.1 hids
    obtain ⟨hname, hnames⟩ := List.forall_mem_cons.1 hdeclared
    have hfirst := walks_resolveStatement hb hid hname
    have hrest := ih hfirst.bound (fun i hi => hfirst.later.isStatement (hids i hi)) fun i hi name label hk => by
      rw [hfirst.declared]
      exact hnames i hi name label ((hfirst.later.kind?_iff (by simp)).1 hk)
    rw [hfirst.faults_eq] at hrest
    exact hfirst.trans hrest

theorem walks_resolve (hb : w.Bound) (hst : ∀ id ∈ w.program.statements, w.IsStatement id)
    (hdeclared : ∀ id ∈ w.program.statements, ∀ name label, w.program.kind? id = some (.labelDecl name label) →
      w.declared name) :
    Walks w (w.program.statements.flatMap (w.program.faults w.declared)) w.resolve := by
  obtain ⟨hbound, hlater⟩ := hb.resolve
  have hwalk := walks_foldl hb hst hdeclared
  exact ⟨hbound, hlater, hwalk.location, hwalk.declared, hwalk.diagnostics⟩

/-- A name that a statement declares has a last declaration, and is bound to that. -/
theorem IsRead.declared_of_labelDecl (h : w.IsRead) :
    ∀ id ∈ w.program.statements, ∀ name label, w.program.kind? id = some (.labelDecl name label) → w.declared name := by
  intro id hid name label hk
  rw [declared, h.latest]
  exact Program.isSome_lastDeclared?_iff.2 ⟨id, hid, label, hk⟩

/-- Resolving the names of a program adds the faults of its statements, in their order, and nothing else. -/
theorem IsRead.diagnostics_resolve (h : w.IsRead) :
    w.resolve.diagnostics = w.diagnostics ++ w.program.statements.flatMap (w.program.faults w.declared) :=
  (walks_resolve h.bound h.isStatement h.declared_of_labelDecl).diagnostics

end Workspace

/-! ## Sources -/

namespace Source

variable (s : Source)

/-- Whether some line of a source declares a label of a name, wherever the line stands. -/
def declares (name : String) : Bool := s.lines.any fun id => (s.parse.program.declared? name id).isSome

theorem declared_parse : s.parse.declared = s.declares := by
  funext name
  rw [Workspace.declared, latest_parse, Bool.eq_iff_iff, Program.isSome_lastDeclared?_iff, declares, List.any_eq_true]
  simp only [Option.isSome_iff_exists, Program.declared?_eq_some]

/-- Analysis adds the faults of the statements, in the order of the statements and of the operands in each, and counts
them: a name that no line of the source declares, and a jump to a string literal. Each of them is at a node that a
statement is or is made of, so a line that was given up adds none. -/
theorem analyze_reports (s : Source) :
    let p := s.parse.program
    let added := p.statements.flatMap (p.faults s.declares)
    s.analyze.diagnostics = s.parse.diagnostics ++ added ∧ s.parse.resolveCounting = (added.length, s.analyze) ∧
      ∀ d ∈ added, ∃ id ∈ p.parts p.statements, d ∈ p.nameFault s.declares id ∨ d ∈ p.targetFault id := by
  intro p added
  have hreports : s.parse.resolve.diagnostics = s.parse.diagnostics ++ added := by
    rw [s.isRead_parse.diagnostics_resolve, declared_parse]
  refine ⟨hreports, ?_, fun d hd => ?_⟩
  · rw [Workspace.resolveCounting, hreports, List.length_append, Nat.add_sub_cancel_left]
    rfl
  · obtain ⟨st, hst, hfault⟩ := List.mem_flatMap.1 hd
    obtain ⟨c, hc, hd⟩ := Program.exists_part_of_mem_faults hfault
    exact ⟨c, Program.mem_parts.2 ⟨st, hst, List.mem_cons.1 hc⟩, hd⟩

/-- A name before its label and one of a line that was given up are not reported; a name without a label and a jump to a
string are. -/
example : (ofChars "a" "jmp e\ncmp x )\njmp \"e\"\n.d y e\ne:\n".toList).parse.resolveCounting.1 = 2 := by decide +kernel

end Source

end Assembler
