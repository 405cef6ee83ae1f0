import Assembler.Program.Resolution
import Assembler.Proofs.Formed
/-!
# Names that were resolved

Resolving names binds identifiers to the labels of their names and reports errors; it changes
nothing else (`Workspace.Later`). Every name that a statement is or is made of is bound in the end
or something was reported, so a program without diagnostics is ready to be made into bytecode
(`Workspace.ready_resolve`).
-/

namespace Assembler

namespace Workspace

/-! ## What stays -/

/-- A workspace after names of its program were bound and errors reported. -/
structure Later (w w' : Workspace) : Prop where
  size : w'.program.size = w.program.size
  kind : ∀ id, (w'.program.kind? id).map (·.unbound) = (w.program.kind? id).map (·.unbound)
  stays : ∀ id name t, w.program.kind? id = some (.identifier name (some t)) →
    ∃ t', w'.program.kind? id = some (.identifier name (some t'))
  place : ∀ id, w'.program.place? id = w.program.place? id
  statements : w'.program.statements = w.program.statements
  statics : w'.shared.statics = w.shared.statics
  diagnostics : ∃ ds, w'.diagnostics = w.diagnostics ++ ds ∧ ∀ d ∈ ds, d.severity = .error

namespace Later

variable {w w' w'' : Workspace}

theorem refl (w : Workspace) : Later w w :=
  ⟨rfl, fun _ => rfl, fun _ _ t h => ⟨t, h⟩, fun _ => rfl, rfl, rfl, [], by simp⟩

theorem trans (h : Later w w') (h' : Later w' w'') : Later w w'' := by
  refine ⟨h'.size.trans h.size, fun id => (h'.kind id).trans (h.kind id), fun id name t hid => ?_,
    fun id => (h'.place id).trans (h.place id), h'.statements.trans h.statements, h'.statics.trans h.statics, ?_⟩
  · obtain ⟨t', ht'⟩ := h.stays id name t hid
    exact h'.stays id name t' ht'
  · obtain ⟨ds, hds, he⟩ := h.diagnostics
    obtain ⟨ds', hds', he'⟩ := h'.diagnostics
    refine ⟨ds ++ ds', by rw [hds', hds, List.append_assoc], fun d hd => ?_⟩
    rcases List.mem_append.1 hd with hd | hd
    · exact he d hd
    · exact he' d hd

/-- A node that is no name is what it was. -/
theorem kind?_iff (h : Later w w') {id : NodeId} {k : Node.Kind} (hk : ∀ name b, k ≠ .identifier name b) :
    w'.program.kind? id = some k ↔ w.program.kind? id = some k := by
  have hiff (o : Option Node.Kind) : o.map (·.unbound) = some k ↔ o = some k := by
    simp [Option.map_eq_some_iff, Node.Kind.unbound_eq_iff hk]
  rw [← hiff, h.kind, hiff]

theorem name_iff (h : Later w w') {id : NodeId} {name : String} :
    (∃ b, w'.program.kind? id = some (.identifier name b)) ↔ ∃ b, w.program.kind? id = some (.identifier name b) := by
  have hiff (o : Option Node.Kind) :
      o.map (·.unbound) = some (.identifier name none) ↔ ∃ b, o = some (.identifier name b) := by
    cases o <;> simp [Node.Kind.unbound_eq_identifier_iff]
  rw [← hiff, h.kind, hiff]

theorem children_eq (h : Later w w') (id : NodeId) : w'.program.children id = w.program.children id := by
  have hmap (p : Program) : ((p.kind? id).map (·.unbound)).map (·.children) = (p.kind? id).map (·.children) := by
    cases p.kind? id <;> simp
  rw [Program.children, Program.children, ← hmap, h.kind, hmap]

theorem isHoisted_eq (h : Later w w') (id : NodeId) : w'.program.isHoisted id = w.program.isHoisted id := by
  have hany := congrArg (Option.any (·.isHoisted)) (h.kind id)
  simpa [Program.isHoisted, Option.any_map, Function.comp_def] using hany

theorem isLabel_iff (h : Later w w') {id : NodeId} : w'.program.IsLabel id ↔ w.program.IsLabel id :=
  exists_congr fun _ => h.kind?_iff (by simp)

theorem isOperand (h : Later w w') {id : NodeId} (hid : w.program.IsOperand id) : w'.program.IsOperand id := by
  obtain ⟨k, hk, he⟩ := hid
  obtain ⟨k', hk', heq⟩ := Option.map_eq_some_iff.1 ((h.kind id).trans (by rw [hk]; rfl))
  exact ⟨k', hk', by rw [← Node.Kind.isExpression_unbound, heq, Node.Kind.isExpression_unbound, he]⟩

end Later

/-! ## What is bound -/

/-- Names stand for labels of that name, in the scope and in the program. -/
structure Bound (w : Workspace) : Prop extends w.Rooted where
  scope_label : ∀ name id, w.find? name = some id → w.program.kind? id = some (.label name)
  name_label : ∀ id name t, w.program.kind? id = some (.identifier name (some t)) → w.program.kind? t = some (.label name)
  declares : ∀ id name label, w.program.kind? id = some (.labelDecl name label) →
    w.program.kind? label = some (.label name)

/-- A node that is no name, or is bound, or something was reported. -/
def Settled (w : Workspace) (id : NodeId) : Prop :=
  ∀ name, w.program.kind? id = some (.identifier name none) → w.diagnostics ≠ []

theorem Settled.later {w w' : Workspace} {id : NodeId} (hid : w.Settled id) (h : w.Later w') : w'.Settled id := by
  intro name hname
  obtain ⟨b, hb⟩ := h.name_iff.1 ⟨_, hname⟩
  obtain ⟨ds, hds, -⟩ := h.diagnostics
  cases b with
  | none =>
    rw [hds]
    exact List.append_ne_nil_of_left_ne_nil (hid name hb) ds
  | some t =>
    obtain ⟨t', ht'⟩ := h.stays id name t hb
    rw [ht'] at hname
    cases hname

theorem settled_of_isLabel {w : Workspace} {id : NodeId} (h : w.program.IsLabel id) : w.Settled id := by
  obtain ⟨label, hk⟩ := h
  intro name hname
  rw [hk] at hname
  cases hname

/-! ## Steps of resolution -/

theorem Bound.report {w : Workspace} (h : w.Bound) {d : Diagnostic} (hd : d.severity = .error) :
    (w.report d).Bound ∧ w.Later (w.report d) :=
  ⟨⟨⟨h.scope, h.only⟩, h.scope_label, h.name_label, h.declares⟩,
    { Later.refl w with diagnostics := ⟨[d], rfl, by simpa using hd⟩ }⟩

section SetBinding
variable {w : Workspace} {id target : NodeId} {name : String} {b : Option NodeId}

theorem Bound.setBinding (h : w.Bound) (hid : w.program.kind? id = some (.identifier name b))
    (htarget : w.program.kind? target = some (.label name)) :
    Bound { w with program := w.program.setBinding id target } := by
  have hkind := Program.kind?_setBinding w.program id hid target
  -- A label stays a label, as the changed node is a name.
  have hlabel {i : NodeId} {other : String} (hi : w.program.kind? i = some (.label other)) :
      (w.program.setBinding id target).kind? i = some (.label other) := by
    rw [hkind, if_neg, hi]
    rintro rfl
    cases hi.symm.trans hid
  refine ⟨⟨h.scope, h.only⟩, fun other i hi => hlabel (h.scope_label other i hi), ?_, ?_⟩
  · intro i other t hi
    change (w.program.setBinding id target).kind? i = _ at hi
    rw [hkind] at hi
    split at hi
    · cases hi
      exact hlabel htarget
    · exact hlabel (h.name_label i other t hi)
  · intro i other label hi
    change (w.program.setBinding id target).kind? i = _ at hi
    rw [hkind] at hi
    split at hi
    · cases hi
    · exact hlabel (h.declares i other label hi)

theorem later_setBinding (hid : w.program.kind? id = some (.identifier name b)) (target : NodeId) :
    w.Later { w with program := w.program.setBinding id target } := by
  have hkind := Program.kind?_setBinding w.program id hid target
  refine { Later.refl w with size := Program.size_setBinding .., kind := ?_, stays := ?_, place := ?_ }
  · intro i
    rw [hkind]
    split
    · subst_vars
      simp [hid, Node.Kind.unbound]
    · rfl
  · intro i other t hi
    rw [hkind]
    split
    · subst_vars
      cases hid.symm.trans hi
      exact ⟨target, rfl⟩
    · exact ⟨t, hi⟩
  · exact Program.place?_setBinding w.program id target

end SetBinding

theorem Bound.resolveIdentifier {w : Workspace} (h : w.Bound) {id : NodeId} {name : String} {b : Option NodeId}
    (hid : w.program.kind? id = some (.identifier name b)) :
    (w.resolveIdentifier id name).Bound ∧ w.Later (w.resolveIdentifier id name) ∧
      (w.resolveIdentifier id name).Settled id := by
  unfold Workspace.resolveIdentifier
  split
  · rename_i target htarget
    obtain ⟨hrooted, hscope, hname, hdeclares⟩ := h.setBinding hid (h.scope_label name target htarget)
    refine ⟨⟨⟨hrooted.scope, hrooted.only⟩, hscope, hname, hdeclares⟩, { later_setBinding hid target with }, ?_⟩
    intro other hi
    change (w.program.setBinding id target).kind? id = _ at hi
    rw [Program.kind?_setBinding _ _ hid, if_pos rfl] at hi
    cases hi
  · rw [← and_assoc]
    refine ⟨h.report rfl, fun _ _ => ?_⟩
    simp [Workspace.report, Session.report, diagnostics]

theorem Bound.checkTarget {w : Workspace} (h : w.Bound) (target : NodeId) :
    (w.checkTarget target).Bound ∧ w.Later (w.checkTarget target) := by
  unfold Workspace.checkTarget
  split
  · exact h.report rfl
  · exact ⟨h, Later.refl _⟩

theorem Bound.declare {w : Workspace} (h : w.Bound) {id label : NodeId} {name : String}
    (hid : w.program.kind? id = some (.labelDecl name label)) :
    (w.bind name label).2.Bound ∧ w.Later (w.bind name label).2 := by
  obtain ⟨hrooted, hfind⟩ := h.bind name label
  refine ⟨⟨hrooted, fun other i hi => ?_, h.name_label, h.declares⟩, { Later.refl w with statics := rfl }⟩
  rw [hfind] at hi
  split at hi
  · cases hi
    subst_vars
    exact h.declares id _ label hid
  · exact h.scope_label other i hi

theorem Bound.foldl {f : Workspace → NodeId → Workspace}
    (hf : ∀ w id, w.Bound → (f w id).Bound ∧ w.Later (f w id)) (ids : List NodeId) {w : Workspace} (h : w.Bound) :
    (ids.foldl f w).Bound ∧ w.Later (ids.foldl f w) := by
  induction ids generalizing w with
  | nil => exact ⟨h, Later.refl w⟩
  | cons id ids ih =>
    obtain ⟨hbound, hlater⟩ := hf w id h
    obtain ⟨hbound', hlater'⟩ := ih hbound
    exact ⟨hbound', hlater.trans hlater'⟩

/-- What is settled by one of several steps is settled after all of them. -/
theorem settled_foldl {f : Workspace → NodeId → Workspace} {w₀ w : Workspace} {ids : List NodeId} {id c : NodeId}
    (hf : ∀ w id, w.Bound → (f w id).Bound ∧ w.Later (f w id)) (hw : w₀.Later w) (h : w.Bound) (hid : id ∈ ids)
    (hc : ∀ w, w₀.Later w → w.Bound → (f w id).Settled c) : (ids.foldl f w).Settled c := by
  induction ids generalizing w with
  | nil => cases hid
  | cons i ids ih =>
    obtain ⟨hbound, hlater⟩ := hf w i h
    rcases List.mem_cons.1 hid with rfl | hid
    · exact (hc w hw h).later (Bound.foldl hf ids hbound).2
    · exact ih (hw.trans hlater) hbound hid

theorem Bound.resolveWithin (depth : Nat) (id : NodeId) {w : Workspace} (h : w.Bound) :
    (resolveWithin depth id w).Bound ∧ w.Later (resolveWithin depth id w) := by
  induction depth generalizing id w with
  | zero => exact ⟨h, Later.refl w⟩
  | succ depth ih =>
    unfold Workspace.resolveWithin
    split
    · exact Bound.foldl (fun w a hw => ih a hw) _ h
    · exact h.declare ‹_›
    · obtain ⟨hbound, hlater, -⟩ := h.resolveIdentifier ‹_›
      exact ⟨hbound, hlater⟩
    · rename_i target _
      obtain ⟨hbound, hlater⟩ := ih target h
      obtain ⟨hbound', hlater'⟩ := hbound.checkTarget target
      exact ⟨hbound', hlater.trans hlater'⟩
    · rename_i left right _
      obtain ⟨hbound, hlater⟩ := ih left h
      obtain ⟨hbound', hlater'⟩ := ih right hbound
      exact ⟨hbound', hlater.trans hlater'⟩
    · exact ⟨h, Later.refl w⟩

/-- A node is settled once it was walked. -/
theorem Bound.settled_self (depth : Nat) (id : NodeId) {w : Workspace} (h : w.Bound) :
    (Workspace.resolveWithin (depth + 1) id w).Settled id := by
  by_cases hname : ∃ name b, w.program.kind? id = some (.identifier name b)
  · obtain ⟨name, b, hk⟩ := hname
    simp only [Workspace.resolveWithin, hk]
    exact (h.resolveIdentifier hk).2.2
  · refine Settled.later (fun name hk => ?_) (h.resolveWithin (depth + 1) id).2
    exact absurd ⟨name, none, hk⟩ hname

/-- So are the nodes it is made of. -/
theorem Bound.settled_child (depth : Nat) {id c : NodeId} {w : Workspace} (h : w.Bound)
    (hc : c ∈ w.program.children id) : (Workspace.resolveWithin (depth + 2) id w).Settled c := by
  cases hk : w.program.kind? id with
  | none => simp [Program.children, hk] at hc
  | some k =>
    rw [Program.children_of_kind? hk] at hc
    cases k with
    | directive name arguments body =>
      simp only [Workspace.resolveWithin, hk]
      exact settled_foldl (fun w a hw => hw.resolveWithin (depth + 1) a) (Later.refl w) h hc
        fun w _ hw => hw.settled_self depth c
    | labelDecl name label =>
      obtain rfl := List.mem_singleton.1 hc
      exact (settled_of_isLabel ⟨name, h.declares id name c hk⟩).later (h.resolveWithin _ _).2
    | jump condition target =>
      obtain rfl := List.mem_singleton.1 hc
      obtain ⟨hbound, -⟩ := h.resolveWithin (depth + 1) c
      have hlater := (hbound.checkTarget c).2
      rw [Workspace.resolveWithin, hk]
      exact (h.settled_self depth c).later hlater
    | compare left right =>
      obtain ⟨hbound, -⟩ := h.resolveWithin (depth + 1) left
      rw [Workspace.resolveWithin, hk]
      rcases List.mem_cons.1 hc with rfl | hc
      · exact (h.settled_self depth c).later (hbound.resolveWithin (depth + 1) right).2
      · obtain rfl := List.mem_singleton.1 hc
        exact hbound.settled_self depth c
    | label | identifier | integer | string | slot => cases hc

theorem Bound.resolve {w : Workspace} (h : w.Bound) : w.resolve.Bound ∧ w.Later w.resolve := by
  obtain ⟨hbound, hlater⟩ := Bound.foldl (f := resolveStatement) (fun w id hw => hw.resolveWithin _ id) w.program.statements h
  exact ⟨⟨⟨hbound.scope, hbound.only⟩, hbound.scope_label, hbound.name_label, hbound.declares⟩,
    ⟨hlater.size, hlater.kind, hlater.stays, hlater.place, hlater.statements, hlater.statics, hlater.diagnostics⟩⟩

/-- All that statements are made of is settled in the end. -/
theorem Bound.settled_resolve {w : Workspace} (h : w.Bound) (hsize : ∀ id ∈ w.program.statements, id < w.program.size)
    (hchild : ∀ id, ∀ c ∈ w.program.children id, c < id) {c : NodeId}
    (hc : c ∈ w.program.parts w.program.statements) : w.resolve.Settled c := by
  obtain ⟨id, hid, hc⟩ := Program.mem_parts.1 hc
  have hlt := hsize id hid
  refine settled_foldl (f := resolveStatement) (fun w id hw => hw.resolveWithin _ id) (Later.refl w) h hid
    fun w' hw' hbound => ?_
  obtain ⟨more, hmore⟩ := Nat.exists_eq_add_of_lt hlt
  -- The depth of the walk is the size of the program, which is enough for a statement and what it is made of.
  rw [resolveStatement, hw'.size, hmore]
  rcases hc with rfl | hc
  · exact hbound.settled_self (c + more) c
  · obtain ⟨more', rfl⟩ := Nat.exists_eq_add_of_lt (hchild id c hc)
    have hdepth (a b c : Nat) : a + b + 1 + c + 1 = a + b + c + 2 := by omega
    rw [hdepth]
    exact hbound.settled_child _ (by rwa [hw'.children_eq])

end Workspace

/-! ## Programs -/

/-- A program that bytecode can be made of. -/
structure Program.Ready (p : Program) : Prop where
  place : ∀ id, p.place? id = none
  statement : ∀ id ∈ p.statements, id < p.size
  child : ∀ id, ∀ c ∈ p.children id, c < id ∧ p.IsOperand c
  /-- No node but a label is needed twice. -/
  once : ∀ id, ¬ p.IsLabel id → (p.parts p.statements).count id ≤ 1
  bound : ∀ id ∈ p.parts p.statements, ∀ name, p.kind? id ≠ some (.identifier name none)
  name_label : ∀ id name t, p.kind? id = some (.identifier name (some t)) → p.kind? t = some (.label name)
  declares : ∀ id name label, p.kind? id = some (.labelDecl name label) →
    label + 1 = id ∧ p.kind? label = some (.label name)
  declared : ∀ name id, p.kind? id = some (.label name) →
    p.kind? (id + 1) = some (.labelDecl name id) ∧ id + 1 ∈ p.statements
  fits : ∀ id name arguments body, p.kind? id = some (.directive name arguments body) → arguments.length ≤ maxArguments
  written : ∀ id store index, p.kind? id = some (.slot store index) → store = .register ∨ store = .localSlot
  hoisted_first : p.statements = p.statements.filter (p.isHoisted ·) ++ p.statements.filter (!p.isHoisted ·)

namespace Workspace

variable {w : Workspace}

theorem bound_of_sound {os ss : List NodeId} (h : Stage.Sound ⟨w, os, ss⟩) : w.Bound where
  toRooted := h.named.toRooted
  scope_label := h.named.bound
  name_label id name t hid := by
    obtain ⟨n, hn, hk⟩ := Program.kind?_eq_some.1 hid
    have := (h.formed.node id n hn).unbound
    rw [hk] at this
    cases this
  declares id name label hid := by
    obtain ⟨n, hn, hk⟩ := Program.kind?_eq_some.1 hid
    exact ((h.formed.node id n hn).declares name label hk).2

/-- A program that was read well and whose names were resolved without a diagnostic is ready. -/
theorem ready_resolve (h : Stage.Sound ⟨w, [], w.program.statements⟩)
    (horder : w.program.statements =
      w.program.statements.filter (w.program.isHoisted ·) ++ w.program.statements.filter (!w.program.isHoisted ·))
    (hnone : w.resolve.diagnostics = []) : w.resolve.program.Ready := by
  have hbound := bound_of_sound h
  obtain ⟨hbound', hlater⟩ := hbound.resolve
  have hparts : w.resolve.program.parts w.resolve.program.statements = w.program.parts w.program.statements := by
    rw [hlater.statements]
    exact Program.parts_congr fun id _ => hlater.children_eq id
  refine
    { place := fun id => ?_
      statement := fun id hid => ?_
      child := fun id c hc => ?_
      once := fun id hid => ?_
      bound := fun id hid name hk => ?_
      name_label := hbound'.name_label
      declares := fun id name label hk => ?_
      declared := fun name id hk => ?_
      fits := fun id name arguments body hk => ?_
      written := fun id store index hk => ?_
      hoisted_first := ?_ }
  · rw [hlater.place]
    cases hn : w.program.node? id with
    | none => simp [Program.place?, hn]
    | some n => simp [Program.place?, hn, (h.formed.node id n hn).place]
  · rw [hlater.size]
    exact h.formed.statement id (hlater.statements ▸ hid)
  · rw [hlater.children_eq] at hc
    exact (h.formed.child hc).imp_right hlater.isOperand
  · rw [hparts]
    simpa using h.formed.once id (mt hlater.isLabel_iff.2 hid)
  · rw [hparts] at hid
    exact hbound.settled_resolve h.formed.statement (fun id c hc => (h.formed.child hc).1) hid name hk hnone
  · refine ⟨?_, hbound'.declares id name label hk⟩
    obtain ⟨n, hn, hnk⟩ := Program.kind?_eq_some.1 ((hlater.kind?_iff (by simp)).1 hk)
    exact ((h.formed.node id n hn).declares name label hnk).1
  · obtain ⟨hdecl, hmem⟩ := h.named.declared name id ((hlater.kind?_iff (by simp)).1 hk)
    exact ⟨(hlater.kind?_iff (by simp)).2 hdecl, hlater.statements ▸ hmem⟩
  · -- A list that is too long was reported, and nothing was.
    refine (h.formed.fits id _ ((hlater.kind?_iff (by simp)).1 hk)).resolve_right fun hne => hne ?_
    obtain ⟨ds, hds, -⟩ := hlater.diagnostics
    rw [hnone] at hds
    exact (List.append_eq_nil_iff.1 hds.symm).1
  · obtain ⟨n, hn, hnk⟩ := Program.kind?_eq_some.1 ((hlater.kind?_iff (by simp)).1 hk)
    exact (h.formed.node id n hn).written store index hnk
  · rw [hlater.statements]
    simp only [hlater.isHoisted_eq]
    exact horder

end Workspace

end Assembler
