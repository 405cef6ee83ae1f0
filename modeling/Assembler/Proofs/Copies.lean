import Mathlib.Data.List.Forall2
import Mathlib.Logic.Relation
import Assembler.Proofs.WellFormed
/-!
# Copies

Where nodes are made of nodes before them, a node unfolds to a tree (`Program.occurrences`). A copy of
a node is new throughout: the program has one more node for each occurrence in the tree, in the order
in which the tree is gone through, each like the node that occurs there but made of copies
(`Program.Copies`). Main statement: `Program.ChildrenFirst.copy_exact`.
-/

namespace Assembler

open Relation (ReflTransGen)

/-! ## Nodes with other children -/

namespace Node.Kind

/-- A kind with other children, and standing for nothing. -/
def withChildren : Kind → List NodeId → Kind
  | directive name _ body, ids => directive name ids body
  | labelDecl name _, [declared] => labelDecl name declared
  | identifier name _, _ => identifier name none
  | jump condition _, [target] => jump condition target
  | compare _ _, [left, right] => compare left right
  | kind, _ => kind

theorem children_withChildren {k : Kind} {ids : List NodeId} (h : ids.length = k.children.length) :
    (k.withChildren ids).children = ids := by
  cases k with
  | directive => rfl
  | labelDecl | jump =>
    obtain ⟨c, rfl⟩ := List.length_eq_one_iff.1 h
    rfl
  | compare =>
    obtain ⟨left, right, rfl⟩ := List.length_eq_two.1 h
    rfl
  | label | identifier | integer | string | slot => exact (List.eq_nil_of_length_eq_zero h).symm

theorem unbound_withChildren {k : Kind} {ids : List NodeId} (h : ids.length = k.children.length) :
    (k.withChildren ids).unbound = k.withChildren ids := by
  cases k with
  | labelDecl | jump =>
    obtain ⟨c, rfl⟩ := List.length_eq_one_iff.1 h
    rfl
  | compare =>
    obtain ⟨left, right, rfl⟩ := List.length_eq_two.1 h
    rfl
  | directive | label | identifier | integer | string | slot => rfl

end Node.Kind

namespace Program

variable {p q r s : Program} {id c d : NodeId} {ids ids' cs cs' : List NodeId} {depth depth' : Nat}

/-! ## What a node says and what its children say -/

theorem kindText_withChildren {f g : NodeId → String} {k : Node.Kind} (h : ids.map f = k.children.map g) :
    kindText f (k.withChildren ids) = kindText g k := by
  cases k with
  | directive name arguments body =>
    have hblank : ids.map (fun a => " " ++ f a) = arguments.map fun a => " " ++ g a := by
      simpa [Function.comp_def, Node.Kind.children] using congrArg (List.map (" " ++ ·)) h
    simp only [Node.Kind.withChildren, kindText, hblank]
  | labelDecl name label =>
    obtain ⟨c, rfl⟩ := List.length_eq_one_iff.1 (by simpa [Node.Kind.children] using congrArg List.length h)
    rfl
  | jump condition target =>
    obtain ⟨c, rfl⟩ := List.length_eq_one_iff.1 (by simpa [Node.Kind.children] using congrArg List.length h)
    simp only [Node.Kind.withChildren, kindText, List.singleton_inj.1 h]
  | compare left right =>
    obtain ⟨a, b, rfl⟩ := List.length_eq_two.1 (by simpa [Node.Kind.children] using congrArg List.length h)
    obtain ⟨ha, hb⟩ := List.cons_eq_cons.1 h
    simp only [Node.Kind.withChildren, kindText, ha, List.singleton_inj.1 hb]
  | label | identifier | integer | string | slot => rfl

theorem kindText_congr {f g : NodeId → String} {k : Node.Kind} (h : k.children.map f = k.children.map g) :
    kindText f k = kindText g k :=
  (kindText_withChildren rfl).symm.trans (kindText_withChildren h)

/-! ## Trees -/

/-- Each node is made of nodes before it. -/
def ChildrenFirst (p : Program) : Prop := ∀ id, ∀ c ∈ p.children id, c < id

theorem childrenFirst_iff : p.ChildrenFirst ↔ ∀ id < p.size, ∀ c ∈ p.children id, c < id :=
  ⟨fun h id _ => h id, fun h id c hc => h id (lt_of_mem_children hc) c hc⟩

instance : Decidable p.ChildrenFirst := decidable_of_iff _ childrenFirst_iff.symm

/-- The nodes of the tree that a node unfolds to, down to a depth. -/
def occurrencesWithin (p : Program) : (depth : Nat) → NodeId → List NodeId
  | 0, _ => []
  | depth + 1, id => (p.children id).flatMap (occurrencesWithin p depth) ++ [id]

/-- The nodes of the tree that a node unfolds to, each after what it is made of, and as often as it occurs. -/
def occurrences (p : Program) (id : NodeId) : List NodeId := p.occurrencesWithin (id + 1) id

namespace ChildrenFirst

theorem occurrencesWithin_eq (h : p.ChildrenFirst) (hdepth : id < depth) (hdepth' : id < depth') :
    p.occurrencesWithin depth id = p.occurrencesWithin depth' id := by
  induction id using Nat.strongRecOn generalizing depth depth' with
  | ind id ih =>
    obtain ⟨depth, rfl⟩ := Nat.exists_eq_succ_of_ne_zero (Nat.ne_zero_of_lt hdepth)
    obtain ⟨depth', rfl⟩ := Nat.exists_eq_succ_of_ne_zero (Nat.ne_zero_of_lt hdepth')
    rw [occurrencesWithin, occurrencesWithin]
    congr 1
    refine List.flatMap_congr fun c hc => ?_
    have hlt := h id c hc
    exact ih c hlt (Nat.lt_of_lt_of_le hlt (Nat.le_of_lt_succ hdepth)) (Nat.lt_of_lt_of_le hlt (Nat.le_of_lt_succ hdepth'))

/-- The tree of a node is made of those of its children, and the node. -/
theorem occurrences_eq (h : p.ChildrenFirst) (id : NodeId) : p.occurrences id = (p.children id).flatMap p.occurrences ++ [id] := by
  rw [occurrences, occurrencesWithin]
  congr 1
  exact List.flatMap_congr fun c hc => h.occurrencesWithin_eq (h id c hc) (Nat.lt_succ_self c)

/-- A node occurs in the tree just if it is reached from children to children. -/
theorem mem_occurrences_iff (h : p.ChildrenFirst) :
    d ∈ p.occurrences id ↔ ReflTransGen (fun id c => c ∈ p.children id) id d := by
  induction id using Nat.strongRecOn with
  | ind id ih =>
    rw [h.occurrences_eq, List.mem_append, List.mem_flatMap, List.mem_singleton, ReflTransGen.cases_head_iff, or_comm, eq_comm]
    refine or_congr_right ⟨?_, ?_⟩
    · rintro ⟨c, hc, hd⟩
      exact ⟨c, hc, (ih c (h id c hc)).1 hd⟩
    · rintro ⟨c, hc, hd⟩
      exact ⟨c, hc, (ih c (h id c hc)).2 hd⟩

theorem textWithin_eq (h : p.ChildrenFirst) (hdepth : id < depth) (hdepth' : id < depth') :
    p.textWithin depth id = p.textWithin depth' id := by
  induction id using Nat.strongRecOn generalizing depth depth' with
  | ind id ih =>
    obtain ⟨depth, rfl⟩ := Nat.exists_eq_succ_of_ne_zero (Nat.ne_zero_of_lt hdepth)
    obtain ⟨depth', rfl⟩ := Nat.exists_eq_succ_of_ne_zero (Nat.ne_zero_of_lt hdepth')
    rw [textWithin, textWithin]
    cases hk : p.kind? id with
    | none => rfl
    | some k =>
      refine kindText_congr (List.map_congr_left fun c hc => ?_)
      have hlt := h id c (children_of_kind? hk ▸ hc)
      exact ih c hlt (Nat.lt_of_lt_of_le hlt (Nat.le_of_lt_succ hdepth)) (Nat.lt_of_lt_of_le hlt (Nat.le_of_lt_succ hdepth'))

/-- A node's text is made of its children's texts. -/
theorem text_eq (h : p.ChildrenFirst) {k : Node.Kind} (hk : p.kind? id = some k) : p.text id = kindText p.text k := by
  have hid := lt_of_kind? hk
  rw [text, h.textWithin_eq hid (Nat.lt_succ_self id), textWithin, hk]
  refine kindText_congr (List.map_congr_left fun c hc => ?_)
  have hlt := h id c (children_of_kind? hk ▸ hc)
  exact h.textWithin_eq hlt (Nat.lt_trans hlt hid)

theorem push (h : p.ChildrenFirst) {k : Node.Kind} (hk : ∀ c ∈ k.children, c < p.size) (location : Location) :
    (p.push k location).2.ChildrenFirst := by
  intro d c hc
  by_cases hd : d = p.size
  · subst hd
    rw [children_push] at hc
    exact hk c hc
  · rw [children, kind?_push, if_neg hd] at hc
    exact h d c hc

end ChildrenFirst

/-! ## More nodes leave a tree as it is -/

namespace Extends

theorem occurrences_eq (h : p.Extends q) (hp : p.ChildrenFirst) (hq : q.ChildrenFirst) (hid : id < p.size) :
    q.occurrences id = p.occurrences id := by
  induction id using Nat.strongRecOn with
  | ind id ih =>
    rw [hp.occurrences_eq, hq.occurrences_eq, h.children_eq hid]
    congr 1
    refine List.flatMap_congr fun c hc => ?_
    have hlt := hp id c hc
    exact ih c hlt (Nat.lt_trans hlt hid)

theorem text_eq (h : p.Extends q) (hp : p.ChildrenFirst) (hq : q.ChildrenFirst) (hid : id < p.size) :
    q.text id = p.text id := by
  induction id using Nat.strongRecOn with
  | ind id ih =>
    obtain ⟨n, hn⟩ := node?_of_lt hid
    have hk : p.kind? id = some n.kind := kind?_eq_some.2 ⟨n, hn, rfl⟩
    rw [hp.text_eq hk, hq.text_eq (h.kind? hk)]
    refine kindText_congr (List.map_congr_left fun c hc => ?_)
    have hlt := hp id c (children_of_kind? hk ▸ hc)
    exact ih c hlt (Nat.lt_trans hlt hid)

end Extends

/-! ## What a copy is -/

/-- A node is the copy of another among new nodes, which begin at an index and copy some nodes in their order. -/
def IsCopy (start : NodeId) (nodes : List NodeId) (new old : NodeId) : Prop :=
  ∃ k, new = start + k ∧ nodes[k]? = some old

theorem isCopy_append {start new old : NodeId} {nodes more : List NodeId} :
    IsCopy start (nodes ++ more) new old ↔
      IsCopy start nodes new old ∨ IsCopy (start + nodes.length) more new old := by
  constructor
  · rintro ⟨k, rfl, hk⟩
    rcases Nat.lt_or_ge k nodes.length with hlt | hge
    · exact .inl ⟨k, rfl, by rwa [List.getElem?_append_left hlt] at hk⟩
    · exact .inr ⟨k - nodes.length, by rw [Nat.add_assoc, Nat.add_sub_of_le hge], by rwa [List.getElem?_append_right hge] at hk⟩
  · rintro (⟨k, rfl, hk⟩ | ⟨k, rfl, hk⟩)
    · obtain ⟨hlt, -⟩ := List.getElem?_eq_some_iff.1 hk
      exact ⟨k, rfl, by rwa [List.getElem?_append_left hlt]⟩
    · refine ⟨nodes.length + k, Nat.add_assoc .., ?_⟩
      rwa [List.getElem?_append_right (Nat.le_add_right ..), Nat.add_sub_cancel_left]

/-- What copying some nodes of a program, one after the other, makes of a program that has those nodes. -/
structure Copies (p r : Program) (ids cs : List NodeId) (q : Program) : Prop where
  grows : r.Extends q
  statements : q.statements = r.statements
  size : q.size = r.size + (ids.flatMap p.occurrences).length
  childrenFirst : q.ChildrenFirst
  /-- Every new node occurs once in the trees of the copies. -/
  unfolded : cs.flatMap q.occurrences = List.range' r.size (ids.flatMap p.occurrences).length
  copies : List.Forall₂ (IsCopy r.size (ids.flatMap p.occurrences)) cs ids
  /-- A new node is like the one it copies, but made of copies, and without a place or a binding. -/
  node : ∀ new old, IsCopy r.size (ids.flatMap p.occurrences) new old →
    ∃ n children, p.node? old = some n
      ∧ q.node? new = some { kind := n.kind.withChildren children, location := n.location }
      ∧ List.Forall₂ (IsCopy r.size (ids.flatMap p.occurrences)) children n.kind.children
  text : cs.map q.text = ids.map p.text

namespace Copies

theorem nil (p : Program) (h : r.ChildrenFirst) : Copies p r [] [] r where
  grows := .refl r
  statements := rfl
  size := rfl
  childrenFirst := h
  unfolded := rfl
  copies := .nil
  node := by
    rintro new old ⟨k, -, hk⟩
    cases hk
  text := rfl

theorem lt_size (h : Copies p r ids cs q) (hc : c ∈ cs) : c < q.size := by
  have hmem : c ∈ cs.flatMap q.occurrences :=
    List.mem_flatMap.2 ⟨c, hc, h.childrenFirst.mem_occurrences_iff.2 .refl⟩
  rw [h.unfolded, List.mem_range'_1] at hmem
  rw [h.size]
  exact hmem.2

theorem unfolded_extends (h : Copies p r ids cs q) (hs : q.Extends s) (hfirst : s.ChildrenFirst) :
    cs.flatMap s.occurrences = List.range' r.size (ids.flatMap p.occurrences).length := by
  rw [← h.unfolded]
  exact List.flatMap_congr fun c hc => hs.occurrences_eq h.childrenFirst hfirst (h.lt_size hc)

theorem text_extends (h : Copies p r ids cs q) (hs : q.Extends s) (hfirst : s.ChildrenFirst) : cs.map s.text = ids.map p.text := by
  rw [← h.text]
  exact List.map_congr_left fun c hc => hs.text_eq h.childrenFirst hfirst (h.lt_size hc)

/-- Copying some nodes, and then some others. -/
theorem append (h : Copies p r ids cs q) (h' : Copies p q ids' cs' s) : Copies p r (ids ++ ids') (cs ++ cs') s := by
  have hocc : (ids ++ ids').flatMap p.occurrences = ids.flatMap p.occurrences ++ ids'.flatMap p.occurrences :=
    List.flatMap_append
  have hleft {new old : NodeId} (hcopy : IsCopy r.size (ids.flatMap p.occurrences) new old) :
      IsCopy r.size ((ids ++ ids').flatMap p.occurrences) new old := by
    rw [hocc, isCopy_append]
    exact .inl hcopy
  have hright {new old : NodeId} (hcopy : IsCopy q.size (ids'.flatMap p.occurrences) new old) :
      IsCopy r.size ((ids ++ ids').flatMap p.occurrences) new old := by
    rw [hocc, isCopy_append, ← h.size]
    exact .inr hcopy
  constructor
  case grows => exact h.grows.trans h'.grows
  case statements => rw [h'.statements, h.statements]
  case size => rw [h'.size, h.size, hocc, List.length_append, Nat.add_assoc]
  case childrenFirst => exact h'.childrenFirst
  case unfolded =>
    rw [List.flatMap_append, h.unfolded_extends h'.grows h'.childrenFirst, h'.unfolded, h.size, hocc, List.length_append,
      List.range'_append_1]
  case copies => exact List.rel_append (h.copies.imp fun _ _ => hleft) (h'.copies.imp fun _ _ => hright)
  case node =>
    intro new old hcopy
    rw [hocc, isCopy_append, ← h.size] at hcopy
    rcases hcopy with hcopy | hcopy
    · obtain ⟨n, children, hn, hnew, hchildren⟩ := h.node new old hcopy
      exact ⟨n, children, hn, h'.grows.node? hnew, hchildren.imp fun _ _ => hleft⟩
    · obtain ⟨n, children, hn, hnew, hchildren⟩ := h'.node new old hcopy
      exact ⟨n, children, hn, hnew, hchildren.imp fun _ _ => hright⟩
  case text =>
    rw [List.map_append, List.map_append, h.text_extends h'.grows h'.childrenFirst, h'.text]

/-- Once its children are copied, a node is copied by one more node made of the copies. -/
theorem push (hp : p.ChildrenFirst) {n : Node} (hn : p.node? id = some n) (h : Copies p r n.kind.children cs q) :
    Copies p r [id] [q.size] (q.push (n.kind.withChildren cs) n.location).2 := by
  have hk : p.kind? id = some n.kind := kind?_eq_some.2 ⟨n, hn, rfl⟩
  have hocc : [id].flatMap p.occurrences = n.kind.children.flatMap p.occurrences ++ [id] := by
    rw [List.flatMap_singleton, hp.occurrences_eq, children_of_kind? hk]
  have hsame : (n.kind.withChildren cs).children = cs := Node.Kind.children_withChildren h.copies.length_eq
  have hextends := extends_push q (n.kind.withChildren cs) n.location
  have hchildren : (q.push (n.kind.withChildren cs) n.location).2.children q.size = cs := by
    rw [children_push, hsame]
  have hleft {new old : NodeId} (hcopy : IsCopy r.size (n.kind.children.flatMap p.occurrences) new old) :
      IsCopy r.size ([id].flatMap p.occurrences) new old := by
    rw [hocc, isCopy_append]
    exact .inl hcopy
  have hfirst : (q.push (n.kind.withChildren cs) n.location).2.ChildrenFirst :=
    h.childrenFirst.push (fun c hc => h.lt_size (hsame ▸ hc)) n.location
  have hlast : IsCopy r.size ([id].flatMap p.occurrences) q.size id :=
    ⟨(n.kind.children.flatMap p.occurrences).length, h.size, by rw [hocc, List.getElem?_concat_length]⟩
  constructor
  case grows => exact h.grows.trans hextends
  case statements => exact h.statements
  case size => rw [size_push, h.size, hocc, List.length_append, List.length_singleton, Nat.add_assoc]
  case childrenFirst => exact hfirst
  case unfolded =>
    rw [List.flatMap_singleton, hfirst.occurrences_eq, hchildren, h.unfolded_extends hextends hfirst, h.size, hocc,
      List.length_append, List.length_singleton, List.range'_1_concat]
  case copies => exact .cons hlast .nil
  case node =>
    intro new old hcopy
    rw [hocc, isCopy_append, ← h.size] at hcopy
    rcases hcopy with hcopy | ⟨k, rfl, hk⟩
    · obtain ⟨m, children, hm, hnew, hchildren⟩ := h.node new old hcopy
      exact ⟨m, children, hm, hextends.node? hnew, hchildren.imp fun _ _ => hleft⟩
    · obtain ⟨rfl, rfl⟩ : k = 0 ∧ id = old := by simpa [List.getElem?_singleton] using hk
      exact ⟨n, cs, hn, by rw [node?_push, Nat.add_zero, if_pos rfl], h.copies.imp fun _ _ => hleft⟩
  case text =>
    have hnew : (q.push (n.kind.withChildren cs) n.location).2.kind? q.size = some (n.kind.withChildren cs) := by
      rw [kind?_push, if_pos rfl]
    rw [List.map_singleton, List.map_singleton, hp.text_eq hk, hfirst.text_eq hnew,
      kindText_withChildren (h.text_extends hextends hfirst)]

end Copies

/-! ## Copying -/

/-- A kind is copied by copying its children one after the other. -/
theorem copyKind_run (copyChild : NodeId → StateM Program NodeId) (k : Node.Kind) (r : Program) :
    (copyKind copyChild k).run r =
      (k.withChildren ((k.children.mapM copyChild).run r).1, ((k.children.mapM copyChild).run r).2) := by
  cases k with
  | labelDecl | jump | compare =>
    simp only [Node.Kind.children, List.mapM_cons, List.mapM_nil]
    rfl
  | directive | label | identifier | integer | string | slot => rfl

theorem copyWithin_run {n : Node} (h : r.node? id = some n) (depth : Nat) :
    (copyWithin (depth + 1) id).run r =
      let children := (n.kind.children.mapM (copyWithin depth)).run r
      children.2.push (n.kind.withChildren children.1) n.location := by
  have hrun : (copyWithin (depth + 1) id).run r =
      ((copyKind (copyWithin depth) n.kind).run r).2.push ((copyKind (copyWithin depth) n.kind).run r).1 n.location := by
    simp only [copyWithin, StateT.run_bind, StateT.run_get, pure_bind, h]
    rfl
  rw [hrun, copyKind_run]

/-- What copying each of some nodes does, copying them one after the other does. -/
theorem copies_mapM {copyChild : NodeId → StateM Program NodeId}
    (hstep : ∀ id ∈ ids, ∀ r, p.Extends r → r.ChildrenFirst →
      Copies p r [id] [((copyChild id).run r).1] ((copyChild id).run r).2)
    (hr : p.Extends r) (hfirst : r.ChildrenFirst) :
    Copies p r ids ((ids.mapM copyChild).run r).1 ((ids.mapM copyChild).run r).2 := by
  induction ids generalizing r with
  | nil => exact .nil p hfirst
  | cons id ids ih =>
    have hone := hstep id List.mem_cons_self r hr hfirst
    have hrest := ih (fun i hi => hstep i (List.mem_cons_of_mem _ hi)) (hr.trans hone.grows) hone.childrenFirst
    rw [List.mapM_cons]
    exact hone.append hrest

/-- Copying a node down to a depth beyond its index copies its tree. -/
theorem copies_copyWithin (hp : p.ChildrenFirst) (hid : id < p.size) (hdepth : id < depth) (hr : p.Extends r)
    (hfirst : r.ChildrenFirst) :
    Copies p r [id] [((copyWithin depth id).run r).1] ((copyWithin depth id).run r).2 := by
  induction depth generalizing id r with
  | zero => exact absurd hdepth (Nat.not_lt_zero id)
  | succ depth ih =>
    obtain ⟨n, hn⟩ := node?_of_lt hid
    rw [copyWithin_run (hr.node? hn)]
    refine Copies.push hp hn (copies_mapM (fun c hc r hr hfirst => ?_) hr hfirst)
    have hlt := hp id c (children_of_kind? (kind?_eq_some.2 ⟨n, hn, rfl⟩) ▸ hc)
    exact ih (Nat.lt_trans hlt hid) (Nat.lt_of_lt_of_le hlt (Nat.le_of_lt_succ hdepth)) hr hfirst

/-- Copying a node adds one node for each occurrence in its tree, and nothing else. All that is reached from the copy
is new and reached in one way; each new node has the location of the one it copies and is like it, but for having the
copies of its children, no place and no binding; and the copy reads the same. -/
theorem ChildrenFirst.copy_exact (h : p.ChildrenFirst) (hid : id < p.size) :
    let nodes := p.occurrences id
    let c := (p.copy id).1
    let q := (p.copy id).2
    p.Extends q ∧ q.statements = p.statements ∧ q.size = p.size + nodes.length ∧ q.ChildrenFirst
      ∧ IsCopy p.size nodes c id
      ∧ q.occurrences c = List.range' p.size nodes.length
      ∧ (∀ d, ReflTransGen (fun id c => c ∈ q.children id) c d → p.size ≤ d ∧ d < q.size)
      ∧ (∀ new, p.size ≤ new → new < q.size → ∃ old n m, IsCopy p.size nodes new old
          ∧ p.node? old = some n ∧ q.node? new = some m
          ∧ m.kind = n.kind.withChildren m.kind.children
          ∧ List.Forall₂ (IsCopy p.size nodes) m.kind.children n.kind.children
          ∧ m.location = n.location ∧ m.place = none ∧ m.kind.unbound = m.kind)
      ∧ q.text c = p.text id := by
  intro nodes c q
  have hcopies : Copies p p [id] [c] q := copies_copyWithin h hid hid (.refl p) h
  have hsize := hcopies.size
  have hunfolded := hcopies.unfolded
  have hcopy := hcopies.copies
  have hnode := hcopies.node
  rw [List.flatMap_singleton] at hsize hunfolded hcopy hnode
  rw [List.flatMap_singleton] at hunfolded
  refine ⟨hcopies.grows, hcopies.statements, hsize, hcopies.childrenFirst, (List.forall₂_cons.1 hcopy).1, hunfolded,
    fun d hd => ?reached, fun new hge hlt => ?new, List.singleton_inj.1 hcopies.text⟩
  case reached =>
    rw [hsize]
    rwa [← hcopies.childrenFirst.mem_occurrences_iff, hunfolded, List.mem_range'_1] at hd
  case new =>
    have hk : new - p.size < nodes.length := Nat.sub_lt_left_of_lt_add hge (hsize ▸ hlt)
    have hcopy : IsCopy p.size nodes new nodes[new - p.size] :=
      ⟨new - p.size, (Nat.add_sub_of_le hge).symm, List.getElem?_eq_getElem hk⟩
    obtain ⟨n, children, hn, hnew, hchildren⟩ := hnode new _ hcopy
    have hlength := hchildren.length_eq
    have hsame := Node.Kind.children_withChildren hlength
    exact ⟨_, n, _, hcopy, hn, hnew, by rw [hsame], hsame.symm ▸ hchildren, rfl, rfl, Node.Kind.unbound_withChildren hlength⟩

/-- Here a directive has a comparison of a jump with itself, the jump's name and the label it is bound to as arguments:
eight nodes are added, two of them copies of the jump, and neither a place nor a binding is taken over. -/
theorem ChildrenFirst.copy_exact_of_shared :
    let p : Program := { nodes := #[{ kind := .label "a", location := { line := 1 }, place := some (.static 7) },
      { kind := .identifier "a" (some 0), location := { line := 2 } }, { kind := .jump .equal 1, location := { line := 2 } },
      { kind := .compare 2 2, location := { line := 3 } },
      { kind := .directive "d" [3, 1, 0] "", location := { line := 4 } }], statements := [4, 2] }
    let q := (p.copy 4).2
    p.ChildrenFirst ∧ 4 < p.size ∧ p.occurrences 4 = [1, 2, 1, 2, 3, 1, 0, 4] ∧ q.size = 13 ∧ q.children 9 = [6, 8]
      ∧ q.kind? 10 = some (.identifier "a" none) ∧ q.place? 11 = none ∧ q.text (p.copy 4).1 = p.text 4 := by
  intro p q
  have h : p.ChildrenFirst := by decide
  have hid : 4 < p.size := by decide
  have hoccurrences : p.occurrences 4 = [1, 2, 1, 2, 3, 1, 0, 4] := by decide
  obtain ⟨-, -, hsize, -, -, -, -, -, htext⟩ := h.copy_exact hid
  rw [hoccurrences] at hsize
  exact ⟨h, hid, hoccurrences, hsize, by decide +kernel, by decide +kernel, by decide +kernel, htext⟩

end Program

/-- What is read from a source can be copied so. -/
theorem Workspace.WellFormed.childrenFirst {w : Workspace} {lines : List NodeId} (h : w.WellFormed lines) :
    w.program.ChildrenFirst :=
  fun id c hc => (h.child id c hc).1

end Assembler
