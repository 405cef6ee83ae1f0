import Mathlib.Data.List.Induction
import Assembler.Proofs.Faults
import Assembler.Proofs.Scopes
/-!
# Names resolved again

Resolution binds labels again as it walks the statements, so half way through, the scope binds a name
that is declared twice to another label than at the start. But it ends where it began, and so comes to
each statement a second time as it came to it the first time. There each name is bound already to what
it is to be bound to (`Workspace.IsRead.kind?_foldl_resolve`), and the same is reported again. Main
statement: `Source.analyze_again`.
-/

namespace Assembler

/-! ## What is read from a table or a program, and whether it is the same -/

/-- Two tables have the same scopes inside each other, and the same names bound in them. -/
structure SymbolTable.Agrees (t t' : SymbolTable) : Prop where
  scopeCount : t'.scopeCount = t.scopeCount
  parent? : ∀ scope, t'.parent? scope = t.parent? scope
  findLocal? : ∀ scope name, t'.findLocal? scope name = t.findLocal? scope name

/-- A program is what is read from its nodes, and its statements. -/
theorem Program.eq_of_reads {p q : Program} (hsize : q.size = p.size) (hkind : ∀ id, q.kind? id = p.kind? id)
    (hlocation : q.location = p.location) (hplace : ∀ id, q.place? id = p.place? id)
    (hstatements : q.statements = p.statements) : q = p := by
  have hnode (id : NodeId) (hq : id < q.nodes.size) (hp : id < p.nodes.size) : q.nodes[id] = p.nodes[id] := by
    have hkind := hkind id
    have hlocation := congrFun hlocation id
    have hplace := hplace id
    simp only [kind?, location, place?, node?, Array.getElem?_eq_getElem hq, Array.getElem?_eq_getElem hp, Option.map_some,
      Option.getD_some, Option.bind_some, Option.some.injEq] at hkind hlocation hplace
    cases hn : q.nodes[id]
    cases hm : p.nodes[id]
    simp_all
  cases p
  cases q
  exact congrArg₂ Program.mk (Array.ext hsize hnode) hstatements

namespace Workspace

variable {w w' : Workspace}

abbrev symbols (w : Workspace) : SymbolTable := w.shared.symbols

/-- The scope of the workspace is the only one, and binds what is found. -/
theorem Rooted.findLocal? (h : w.Rooted) (scope : ScopeId) (name : String) :
    w.symbols.findLocal? scope name = if scope = SymbolTable.root then w.find? name else none := by
  obtain ⟨root, hroot⟩ := h.only
  rw [SymbolTable.findLocal?, hroot, h.find? hroot]
  cases scope <;> rfl

theorem Rooted.agrees (h : w.Rooted) (h' : w'.Rooted) (hparent : ∀ scope, w'.symbols.parent? scope = w.symbols.parent? scope)
    (hfind : w'.find? = w.find?) : w.symbols.Agrees w'.symbols where
  scopeCount := by
    obtain ⟨root, hroot⟩ := h.only
    obtain ⟨root', hroot'⟩ := h'.only
    rw [SymbolTable.scopeCount, SymbolTable.scopeCount, hroot, hroot']
    rfl
  parent? := hparent
  findLocal? scope name := by rw [h.findLocal?, h'.findLocal?, hfind]

/-! ### Scopes stay where they are -/

theorem parent?_foldl {f : Workspace → NodeId → Workspace} {scope : ScopeId}
    (hf : ∀ w id, (f w id).symbols.parent? scope = w.symbols.parent? scope) (ids : List NodeId) (w : Workspace) :
    (ids.foldl f w).symbols.parent? scope = w.symbols.parent? scope := by
  induction ids generalizing w with
  | nil => rfl
  | cons id ids ih => exact (ih (f w id)).trans (hf w id)

theorem parent?_resolveWithin (scope : ScopeId) (depth : Nat) (w : Workspace) (id : NodeId) :
    (resolveWithin depth id w).symbols.parent? scope = w.symbols.parent? scope := by
  have hidentifier (w : Workspace) (id : NodeId) (name : String) : (w.resolveIdentifier id name).symbols = w.symbols := by
    unfold resolveIdentifier
    split <;> rfl
  have htarget (w : Workspace) (target : NodeId) : (w.checkTarget target).symbols = w.symbols := by
    unfold checkTarget
    split <;> rfl
  induction depth generalizing w id with
  | zero => rfl
  | succ depth ih =>
    unfold resolveWithin
    split
    · exact parent?_foldl ih _ w
    · exact SymbolTable.parent?_bind ..
    · rw [hidentifier]
    · rw [htarget, ih]
    · rw [ih, ih]
    · rfl

theorem parent?_resolve (w : Workspace) (scope : ScopeId) : w.resolve.symbols.parent? scope = w.symbols.parent? scope :=
  parent?_foldl (fun w => parent?_resolveWithin scope w.program.size w) ..

/-! ## A second resolution -/

theorem find?_resolve (hb : w.Bound) (hst : ∀ id ∈ w.program.statements, w.IsStatement id) (name : String) :
    w.resolve.find? name = (w.program.lastDeclared? name w.program.statements).or (w.find? name) :=
  ((Resolved.refl hb).foldl hst).find? name

namespace IsRead

variable (h : w.IsRead)
include h

/-- In the end each name is found as it was in the beginning, at the label of its last declaration. -/
theorem find?_once : w.resolve.find? = w.find? := by
  funext name
  rw [find?_resolve h.bound h.isStatement, ← h.latest, Option.or_self]

theorem isStatement_resolve : ∀ id ∈ w.resolve.program.statements, w.resolve.IsStatement id := by
  obtain ⟨-, hlater⟩ := h.bound.resolve
  rw [hlater.statements]
  exact fun id hid => hlater.isStatement (h.isStatement id hid)

theorem find?_twice : w.resolve.resolve.find? = w.find? := by
  obtain ⟨hbound, hlater⟩ := h.bound.resolve
  funext name
  rw [find?_resolve hbound h.isStatement_resolve, hlater.statements,
    Program.lastDeclared?_congr fun i _ => hlater.declared?_eq name i, h.find?_once, ← h.latest, Option.or_self]

/-- As statements are resolved again, all nodes stay what they are. -/
theorem kind?_foldl_resolve {pre post : List NodeId} (hpre : w.program.statements = pre ++ post) (id : NodeId) :
    (pre.foldl resolveStatement w.resolve).program.kind? id = w.resolve.program.kind? id := by
  obtain ⟨hbound, hlater⟩ := h.bound.resolve
  induction pre using List.reverseRecOn generalizing post with
  | nil => rfl
  | append_singleton pre st ih =>
    rw [List.append_assoc, List.singleton_append] at hpre
    have hst : ∀ i ∈ pre ++ st :: post, w.resolve.IsStatement i := fun i hi =>
      hlater.isStatement (h.isStatement i (hpre ▸ hi))
    have hbefore : Resolved w.resolve pre (pre.foldl resolveStatement w.resolve) :=
      (Resolved.refl hbound).foldl fun i hi => hst i (List.mem_append_left _ hi)
    obtain ⟨-, hkind⟩ := resolveStatement_eq hbefore.bound (hbefore.later.isStatement (hst st (by simp)))
    rw [List.foldl_append, List.foldl_cons, List.foldl_nil, hkind, ih hpre]
    split
    · rename_i hid
      rw [hbefore.later.children_eq, hlater.children_eq] at hid
      cases hk : w.resolve.program.kind? id with
      | none => rfl
      | some k =>
        cases k with
        | identifier name b =>
          -- The name was bound here the first time, and is found now where it was found then.
          obtain ⟨b', hb'⟩ := hlater.name_iff.1 ⟨b, hk⟩
          have hfirst := h.kind?_resolve hpre hid (h.unbound hb')
          have hfind : (pre.foldl resolveStatement w.resolve).find? name =
              (w.program.lastDeclared? name pre).or (w.program.lastDeclared? name w.program.statements) := by
            rw [hbefore.find?, h.find?_once, h.latest,
              Program.lastDeclared?_congr fun i _ => hlater.declared?_eq name i]
          obtain rfl : b = _ := (Node.Kind.identifier.inj (Option.some.inj (hk.symm.trans hfirst))).2
          simp [Node.Kind.rebound, hfind]
        | directive | labelDecl | label | integer | string | slot | jump | compare => rfl
    · rfl

/-- A second resolution leaves the program as it is, and adds the faults of the statements again. -/
theorem resolve_resolve : w.resolve.resolve.program = w.resolve.program ∧
    Walks w.resolve (w.program.statements.flatMap (w.program.faults w.declared)) w.resolve.resolve := by
  have hfirst := walks_resolve h.bound h.isStatement h.declared_of_labelDecl
  have hlater := hfirst.later
  have hdeclared : ∀ id ∈ w.resolve.program.statements, ∀ name label,
      w.resolve.program.kind? id = some (.labelDecl name label) → w.resolve.declared name := by
    rw [hlater.statements, hfirst.declared]
    exact fun id hid name label hk => h.declared_of_labelDecl id hid name label ((hlater.kind?_iff (by simp)).1 hk)
  have hsecond := walks_resolve hfirst.bound h.isStatement_resolve hdeclared
  rw [hlater.statements, hfirst.faults_eq] at hsecond
  refine ⟨Program.eq_of_reads hsecond.later.size (fun id => ?_) hsecond.location hsecond.later.place hsecond.later.statements,
    hsecond⟩
  rw [← h.kind?_foldl_resolve (List.append_nil _).symm id, ← hlater.statements]
  rfl

end IsRead

end Workspace

/-! ## Sources -/

/-- Resolving the names of a source a second time leaves the program as it is after the first time, adds the same
diagnostics again and counts them again. Both times the symbol table is left as it was: there is no scope but the root,
and a name is bound to the label of its last declaration in the source. -/
theorem Source.analyze_again (s : Source) :
    let once := s.analyze
    let twice := once.resolve
    let added := s.parse.program.statements.flatMap (s.parse.program.faults s.declares)
    twice.program = once.program ∧
    (once.diagnostics = s.parse.diagnostics ++ added ∧ s.parse.resolveCounting = (added.length, once)) ∧
    (twice.diagnostics = once.diagnostics ++ added ∧ once.resolveCounting = (added.length, twice)) ∧
    s.parse.symbols.Agrees once.symbols ∧ s.parse.symbols.Agrees twice.symbols ∧
    ∀ scope name, twice.symbols.findLocal? scope name =
      if scope = SymbolTable.root then s.parse.program.lastDeclared? name s.lines else none := by
  intro once twice added
  have hread := s.isRead_parse
  obtain ⟨hprogram, hsecond⟩ := hread.resolve_resolve
  have hfirst := Workspace.walks_resolve hread.bound hread.isStatement hread.declared_of_labelDecl
  rw [s.declared_parse] at hfirst hsecond
  have hcount {w w' : Workspace} (h : Workspace.Walks w added w') : w'.diagnostics.length - w.diagnostics.length = added.length := by
    rw [h.diagnostics, List.length_append, Nat.add_sub_cancel_left]
  have hparent (scope : ScopeId) : once.symbols.parent? scope = s.parse.symbols.parent? scope := Workspace.parent?_resolve ..
  have hparent' (scope : ScopeId) : twice.symbols.parent? scope = s.parse.symbols.parent? scope :=
    (Workspace.parent?_resolve ..).trans (hparent scope)
  refine ⟨hprogram, ⟨hfirst.diagnostics, ?_⟩, ⟨hsecond.diagnostics, ?_⟩, ?_, ?_, fun scope name => ?_⟩
  · exact Prod.ext (hcount hfirst) rfl
  · exact Prod.ext (hcount hsecond) rfl
  · exact hread.bound.toRooted.agrees hfirst.bound.toRooted hparent hread.find?_once
  · exact hread.bound.toRooted.agrees hsecond.bound.toRooted hparent' hread.find?_twice
  · rw [← s.latest_parse, ← hread.find?_twice]
    exact hsecond.bound.toRooted.findLocal? scope name

-- The name in the directive is bound to the first label, which is not what it is found at before and after.
example :
    let once := (Source.ofChars "a" "a:\n.d a\na:\njmp b\n".toList).analyze
    once.find? "a" = some 4 ∧ once.program.kind? 2 = some (.identifier "a" (some 0)) ∧
      once.resolve.program.kind? 2 = some (.identifier "a" (some 0)) ∧ once.resolve.diagnostics.length = 2 := by decide +kernel

end Assembler
