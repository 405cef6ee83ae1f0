import Assembler.Proofs.WriteOnce
/-!
# Which programs are made into bytecode

Emission fails on a program whose references do not go round just if some node that the statements
lead to cannot be built: a name without a binding, a directive with too many arguments, or a node
that refers to one that is no operand. No node escapes by being shared: a node has a place only if
it and all that it leads to could be built (`Emission.Settled`), so a node that is skipped was
looked at before. Each step decides whether what it was asked for can be built
(`Emission.Decides`). Main statement: `Workspace.emit_ok_iff`.
-/

namespace Assembler

open Relation (ReflTransGen)

/-! ## Nodes that can be built -/

namespace Node.Kind

/-- A name is bound, and a directive has no more arguments than a byte can count. -/
def IsComplete : Kind → Prop
  | identifier _ binding => binding.isSome
  | directive _ arguments _ => arguments.length ≤ 255
  | _ => True

end Node.Kind

namespace Program

variable {p : Program} {id : NodeId}

/-- A node that can be built if the nodes that it refers to can: these have to be operands. -/
structure Buildable (p : Program) (id : NodeId) : Prop where
  complete : ∀ k, p.kind? id = some k → k.IsComplete
  operand : ∀ ref, p.Refers id ref → p.IsOperand ref

/-- A node that can be built, and so can all nodes that it leads to. -/
def Sound (p : Program) (id : NodeId) : Prop := ∀ n, ReflTransGen p.Refers id n → p.Buildable n

/-- An operand for which a place can be found. -/
def Locatable (p : Program) (id : NodeId) : Prop := p.IsOperand id ∧ p.Sound id

theorem sound_iff : p.Sound id ↔ p.Buildable id ∧ ∀ ref, p.Refers id ref → p.Sound ref := by
  constructor
  · intro h
    exact ⟨h id .refl, fun ref href n hn => h n (hn.head href)⟩
  · rintro ⟨hid, hrefs⟩ n hn
    rcases hn.cases_head with rfl | ⟨ref, href, hn⟩
    · exact hid
    · exact hrefs ref href n hn

/-- A node can be built if it is complete and places can be found for all that it refers to. -/
theorem sound_iff_of_kind? {k : Node.Kind} (hk : p.kind? id = some k) :
    p.Sound id ↔ k.IsComplete ∧ ∀ ref ∈ k.refs, p.Locatable ref := by
  have hrefers (ref : NodeId) : p.Refers id ref ↔ ref ∈ k.refs := by simp [Refers, hk]
  rw [sound_iff]
  simp only [hrefers]
  constructor
  · rintro ⟨⟨hcomplete, hoperand⟩, hsound⟩
    exact ⟨hcomplete k hk, fun ref href => ⟨hoperand ref ((hrefers ref).2 href), hsound ref href⟩⟩
  · rintro ⟨hcomplete, hrefs⟩
    refine ⟨⟨fun k' hk' => ?_, fun ref href => (hrefs ref ((hrefers ref).1 href)).1⟩, fun ref href => (hrefs ref href).2⟩
    cases hk.symm.trans hk'
    exact hcomplete

theorem sound_of_kind?_eq_none (h : p.kind? id = none) : p.Sound id := by
  have hnone (ref : NodeId) : ¬ p.Refers id ref := by simp [Refers, h]
  exact sound_iff.2 ⟨⟨by simp [h], fun ref href => absurd href (hnone ref)⟩, fun ref href => absurd href (hnone ref)⟩

theorem isOperand_iff_of_kind? {k : Node.Kind} (hk : p.kind? id = some k) : p.IsOperand id ↔ k.isExpression := by
  simp [IsOperand, hk]

end Program

namespace Emission

/-! ## Steps that decide -/

/-- An emission of a program in which only nodes have places for which these could be found. -/
structure Settled (p : Program) (e : Emission) : Prop where
  unplaced : e.program.unplaced = p.unplaced
  placed : ∀ id, (e.program.place? id).isSome → p.Locatable id

/-- An emission in which a node was built: it has a place if it is an operand. -/
structure Built (p : Program) (id : NodeId) (e : Emission) : Prop extends Settled p e where
  place : p.IsOperand id → (e.program.place? id).isSome

/-- A step succeeds just if something holds, and something is known of the state that it then ends in. -/
def Decides {α : Type} (m : Emit α) (P : Prop) (Q : Emission → Prop) (e : Emission) : Prop :=
  Ends m (fun e' => P ∧ Q e') (fun _ _ => ¬ P) e

namespace Decides

variable {α β : Type} {P P' : Prop} {Q Q' : Emission → Prop} {e e' : Emission}

theorem of_makes {m : Emit α} {a : α} {code : List Instruction} (h : Makes m e a code e') (hP : P) (hQ : Q e') :
    Decides m P Q e :=
  Ends.of_makes h ⟨hP, hQ⟩

theorem pure (a : α) (hP : P) (hQ : Q e) : Decides (Pure.pure a : Emit α) P Q e := of_makes (.pure a e) hP hQ

theorem throw {error : EmitError} (hP : ¬ P) : Decides (MonadExcept.throw error : Emit α) P Q e := hP

theorem iff {m : Emit α} (h : Decides m P Q e) (hP : P ↔ P') : Decides m P' Q e := by
  rwa [← hP]

theorem mono {m : Emit α} (h : Decides m P Q e) (hQ : ∀ e', Q e' → Q' e') : Decides m P Q' e :=
  Ends.mono h (fun e' hok => hok.imp_right (hQ e')) fun _ _ hP => hP

/-- One step after another decides whether both things hold. -/
theorem bind {m : Emit α} {f : α → Emit β} (h : Decides m P Q e)
    (h' : ∀ a e', m.run e = .ok a e' → P → Q e' → Decides (f a) P' Q' e') : Decides (m >>= f) (P ∧ P') Q' e := by
  refine Ends.bind h (fun a e' hrun hok => ?_) fun _ _ hP hboth => hP hboth.1
  exact Ends.mono (h' a e' hrun hok.1 hok.2) (fun _ hrest => ⟨⟨hok.1, hrest.1⟩, hrest.2⟩) fun _ _ hP' hboth => hP' hboth.2

/-- The first step is known to succeed. -/
theorem after {m : Emit α} {f : α → Emit β} {a : α} {code : List Instruction} (h : Makes m e a code e')
    (h' : Decides (f a) P Q e') : Decides (m >>= f) P Q e :=
  Ends.after h h'

theorem discard {m : Emit α} (h : Decides m P Q e) : Decides (Functor.discard m) P Q e := Ends.discard h

variable {P : NodeId → Prop} {ids : List NodeId}

theorem mapM {f : NodeId → Emit α} (he : Q e) (h : ∀ id ∈ ids, ∀ e, Q e → Decides (f id) (P id) Q e) :
    Decides (ids.mapM f) (∀ id ∈ ids, P id) Q e := by
  induction ids generalizing e with
  | nil => exact pure [] (by simp) he
  | cons id ids ih =>
    obtain ⟨hid, hids⟩ := List.forall_mem_cons.1 h
    have hmap : Decides ((id :: ids).mapM f) (P id ∧ (∀ i ∈ ids, P i) ∧ True) Q e := by
      rw [List.mapM_cons]
      refine (hid e he).bind fun a e₁ _ _ h₁ => ?_
      exact (ih h₁ hids).bind fun as e₂ _ _ h₂ => pure _ trivial h₂
    exact hmap.iff (by rw [and_true, List.forall_mem_cons])

theorem forM {f : NodeId → Emit Unit} (he : Q e) (h : ∀ id ∈ ids, ∀ e, Q e → Decides (f id) (P id) Q e) :
    Decides (ids.forM f) (∀ id ∈ ids, P id) Q e := by
  induction ids generalizing e with
  | nil => exact pure () (by simp) he
  | cons id ids ih =>
    obtain ⟨hid, hids⟩ := List.forall_mem_cons.1 h
    have hall : Decides ((id :: ids).forM f) (P id ∧ ∀ i ∈ ids, P i) Q e :=
      (hid e he).bind fun _ e₁ _ _ h₁ => ih h₁ hids
    exact hall.iff List.forall_mem_cons.symm

end Decides

/-! ## Building -/

section Build

variable {p : Program} {e e' : Emission} {id : NodeId}

theorem Settled.kind?_eq (h : Settled p e) (id : NodeId) : e.program.kind? id = p.kind? id :=
  Program.kind?_eq_of_unplaced h.unplaced id

/-- A change to nothing but the code and the log. -/
theorem Settled.of_eq (h : Settled p e) (hprogram : e'.program = e.program) : Settled p e' := by
  constructor
  · rw [hprogram, h.unplaced]
  · rw [hprogram]
    exact h.placed

/-- A node for which a place can be found is given one. -/
theorem Settled.setPlace (h : Settled p e) (hid : p.Locatable id) {place : Place}
    (hprogram : e'.program = e.program.setPlace id place) : Built p id e' where
  unplaced := by rw [hprogram, Program.unplaced_setPlace, h.unplaced]
  placed i hi := by
    by_cases he : id = i
    · exact he ▸ hid
    · rw [hprogram, Program.place?_setPlace_of_ne _ _ he] at hi
      exact h.placed i hi
  place _ := by
    obtain ⟨k, hk, -⟩ := hid.1
    rw [hprogram, Program.place?_setPlace _ _ _ _ (Program.lt_of_kind? ((h.kind?_eq id).trans hk)), if_pos rfl]
    rfl

/-- A statement that was built has no place. -/
theorem Settled.built (h : Settled p e) (hid : ¬ p.IsOperand id) : Built p id e := { h with place := fun ho => absurd ho hid }

/-- An instruction is made after places were found for all that a statement needs. -/
theorem decides_emit (h : Settled p e) (hid : ¬ p.IsOperand id) (i : Instruction) (line : Nat) :
    Decides (emit i line) True (Built p id) e := by
  have h' : Settled p { e with code := e.code.push (i, line) } := h.of_eq rfl
  exact .of_makes (makes_emit i line e) trivial (h'.built hid)

/-- Building a node decides whether it can be built, if looking for the places of what it refers to does the same. -/
theorem decides_buildKind {locate : NodeId → Emit Place} {k : Node.Kind} (hk : p.kind? id = some k)
    (hlocate : ∀ ref, p.Refers id ref → ∀ e, Settled p e → Decides (locate ref) (p.Locatable ref) (Settled p) e)
    (hfree : ∀ ref, p.Refers id ref → ∀ e e' place, Settled p e → (locate ref).run e = .ok place e' →
      e'.program.place? id = e.program.place? id)
    (he : Settled p e) (hnone : e.program.place? id = none) (location : Location) :
    Decides (buildKind locate id location k) (p.Sound id) (Built p id) e := by
  have hrefers {ref : NodeId} (href : ref ∈ k.refs) : p.Refers id ref := ⟨k, hk, href⟩
  have hoperand := Program.isOperand_iff_of_kind? hk
  have hsound := Program.sound_iff_of_kind? hk
  have hdefine (entry : Static) (i : Place → Instruction) (hid : p.Locatable id) :
      Decides (do let place ← allocate entry; assign id place; emit (i place) location.line) (p.Sound id) (Built p id) e :=
    .of_makes (makes_define entry i location.line hnone) hid.2 (he.setPlace hid rfl)
  have hself (hexpression : k.isExpression) (hcomplete : k.IsComplete) (hrefs : k.refs = []) : p.Locatable id :=
    ⟨hoperand.2 hexpression, hsound.2 ⟨hcomplete, by simp [hrefs]⟩⟩
  cases k with
  | directive name arguments body =>
    rw [buildKind]
    split
    · rename_i hmany
      exact .throw fun h => absurd (hsound.1 h).1 (Nat.not_le.2 hmany)
    · rename_i hfits
      have hno : ¬ p.IsOperand id := by simp [hoperand, Node.Kind.isExpression]
      refine Decides.iff ?_ (P := (∀ a ∈ arguments, p.Locatable a) ∧ True) ?_
      · refine (Decides.mapM he fun a ha e he => hlocate a (hrefers ha) e he).bind fun places e₁ _ _ h₁ => ?_
        exact decides_emit h₁ hno _ _
      · rw [hsound, and_true]
        exact (and_iff_right (Nat.not_lt.1 hfits)).symm
  | labelDecl name label =>
    have hno : ¬ p.IsOperand id := by simp [hoperand, Node.Kind.isExpression]
    have hlabel := (hlocate label (hrefers List.mem_cons_self) e he).discard
    refine (hlabel.mono fun e' h' => h'.built hno).iff ?_
    simp [hsound, Node.Kind.IsComplete, Node.Kind.refs, Node.Kind.children]
  | label name => exact hdefine (.label name) .label (hself rfl trivial rfl)
  | identifier name binding =>
    cases binding with
    | none => exact .throw fun h => absurd (hsound.1 h).1 (by simp [Node.Kind.IsComplete])
    | some target =>
      have htarget : p.Refers id target := hrefers (by simp [Node.Kind.refs])
      refine Decides.iff ?_ (P := p.Locatable target ∧ True) (by simp [hsound, Node.Kind.IsComplete, Node.Kind.refs])
      refine (hlocate target htarget e he).bind fun place e₁ hrun hlocatable h₁ => ?_
      -- Looking for the target's place leaves the name without one, so it can be given the same place.
      have hnone₁ : e₁.program.place? id = none := (hfree target htarget e e₁ place he hrun).trans hnone
      have hid : p.Locatable id := ⟨hoperand.2 rfl, hsound.2 ⟨rfl, by simpa [Node.Kind.refs] using hlocatable⟩⟩
      exact .of_makes (makes_assign place hnone₁) trivial (h₁.setPlace hid rfl)
  | integer value => exact hdefine (.integer value) (.loadInt · value) (hself rfl trivial rfl)
  | string value => exact hdefine (.string value) (.loadString · value) (hself rfl trivial rfl)
  | slot store index =>
    have hid := hself rfl trivial rfl
    exact .of_makes (makes_assign _ hnone) hid.2 (he.setPlace hid rfl)
  | jump condition target =>
    have hno : ¬ p.IsOperand id := by simp [hoperand, Node.Kind.isExpression]
    refine Decides.iff ?_ (P := p.Locatable target ∧ True)
      (by simp [hsound, Node.Kind.IsComplete, Node.Kind.refs, Node.Kind.children])
    refine (hlocate target (hrefers List.mem_cons_self) e he).bind fun place e₁ _ _ h₁ => ?_
    exact decides_emit h₁ hno _ _
  | compare left right =>
    have hno : ¬ p.IsOperand id := by simp [hoperand, Node.Kind.isExpression]
    refine Decides.iff ?_ (P := p.Locatable left ∧ p.Locatable right ∧ True)
      (by simp [hsound, Node.Kind.IsComplete, Node.Kind.refs, Node.Kind.children])
    refine (hlocate left (hrefers List.mem_cons_self) e he).bind fun _ e₁ _ _ h₁ => ?_
    refine (hlocate right (hrefers (List.mem_cons_of_mem _ List.mem_cons_self)) e₁ h₁).bind fun _ e₂ _ _ h₂ => ?_
    exact decides_emit h₂ hno _ _

/-- A node without a place is built just if it can be. -/
theorem decides_build {locate : NodeId → Emit Place}
    (hlocate : ∀ ref, p.Refers id ref → ∀ e, Settled p e → Decides (locate ref) (p.Locatable ref) (Settled p) e)
    (hfree : ∀ ref, p.Refers id ref → ∀ e e' place, Settled p e → (locate ref).run e = .ok place e' →
      e'.program.place? id = e.program.place? id)
    (he : Settled p e) (hnone : e.program.place? id = none) : Decides (build locate id) (p.Sound id) (Built p id) e := by
  have hbegin : Settled p (e.begin id) := he.of_eq rfl
  refine .after (makes_start id e) (.after (makes_get _) ?_)
  simp only [hbegin.kind?_eq id]
  cases hk : p.kind? id with
  | none =>
    have hno : ¬ p.IsOperand id := by simp [Program.IsOperand, hk]
    exact .pure () (Program.sound_of_kind?_eq_none hk) (hbegin.built hno)
  | some k => exact decides_buildKind hk hlocate hfree hbegin hnone _

/-- Looking for a node's place leaves the nodes that refer to it without one. -/
theorem place?_of_locate (hp : p.Acyclic) {depth : Nat} {ref : NodeId} (href : p.Refers id ref) (hroom : p.HasRoom depth ref)
    {place : Place} (he : Settled p e) (hrun : (locate depth ref).run e = .ok place e') :
    e'.program.place? id = e.program.place? id := by
  have hcareful := careful_locate hp depth hroom he.unplaced
  rw [Careful, hrun] at hcareful
  exact hcareful.outside id fun hback => hp id (Relation.TransGen.head' href hback)

/-- A place is found for a node just if it is an operand that can be built. -/
theorem decides_locate (hp : p.Acyclic) (depth : Nat) (hroom : p.HasRoom depth id) (he : Settled p e) :
    Decides (locate depth id) (p.Locatable id) (Settled p) e := by
  induction depth generalizing id e with
  | zero => exact absurd rfl hroom.ne_zero
  | succ depth ih =>
    cases hplace : e.program.place? id with
    | some place => exact .of_makes (makes_locate_of_place depth hplace) (he.placed id (by simp [hplace])) he
    | none =>
      have hrefs {ref : NodeId} (href : p.Refers id ref) : p.HasRoom depth ref := hroom.refers hp href
      have hbuild := decides_build (fun ref href e he => ih (hrefs href) he)
        (fun ref href e e' place he hrun => place?_of_locate hp href (hrefs href) he hrun) he hplace
      refine .after (makes_place? id e) ?_
      rw [hplace]
      refine Decides.iff (P := p.Sound id ∧ p.IsOperand id) ?_ and_comm
      refine hbuild.bind fun _ e₁ _ _ h₁ => .after (makes_place? id e₁) ?_
      cases hplace₁ : e₁.program.place? id with
      | some place => exact .pure place (h₁.placed id (by simp [hplace₁])).1 h₁.toSettled
      | none =>
        refine .after (makes_get e₁) (.throw fun hoperand => ?_)
        have hsome := h₁.place hoperand
        rw [hplace₁] at hsome
        cases hsome

/-- A statement is built, or was as an operand, just if it can be. -/
theorem decides_statement (hp : p.Acyclic) (he : Settled p e) : Decides (statement p.size id) (p.Sound id) (Settled p) e := by
  refine .after (makes_place? id e) ?_
  cases hplace : e.program.place? id with
  | some place => exact .pure () (he.placed id (by simp [hplace])).2 he
  | none =>
    refine (decides_build (fun ref href e he => ?_) (fun ref href e e' place he hrun => ?_) he hplace).mono fun _ h => h.toSettled
    · exact decides_locate hp p.size (.of_refers href) he
    · exact place?_of_locate hp href (.of_refers href) he hrun

/-- All statements are built just if all of them can be. -/
theorem decides_all (hp : p.Acyclic) (he : Settled p e) (hprogram : e.program = p) {diagnostics : List Diagnostic}
    (hfatal : Diagnostics.hasFatal diagnostics = false) :
    Decides (all diagnostics) (∀ id ∈ p.statements, p.Sound id) (Settled p) e := by
  subst hprogram
  have hstatements {e' : Emission} (he' : Settled e.program e') :
      Decides (e.program.statements.forM (statement e.program.size)) (∀ id ∈ e.program.statements, e.program.Sound id)
        (Settled e.program) e' :=
    .forM he' fun id _ e' h' => decides_statement hp h'
  rw [all, if_neg (by simp [hfatal])]
  refine .after (makes_get e) (.after (makes_tell _ e) ?_)
  refine Decides.iff ?_ (and_true _).to_iff
  refine Decides.bind (hstatements ?_) fun _ e₁ _ _ h₁ => ?_
  · exact he.of_eq rfl
  · refine .after (makes_get e₁) (.of_makes (makes_emit _ _ e₁) trivial ?_)
    exact h₁.of_eq rfl

end Build

end Emission

/-! ## Programs -/

namespace Workspace

/-- Bytecode is made of a program without circles and without errors just if every node that its statements lead to can be
built: names are bound, directives have at most 255 arguments, and what a node refers to is an operand. -/
theorem emit_ok_iff {w : Workspace} (hacyclic : w.program.Acyclic) (hplace : ∀ id, w.program.place? id = none)
    (hfatal : Diagnostics.hasFatal w.diagnostics = false) (tracksLines : Bool) :
    (∃ chunk, (w.emit tracksLines).1 = .ok chunk) ↔
      ∀ st ∈ w.program.statements, ∀ id, ReflTransGen w.program.Refers st id → w.program.Buildable id := by
  have hsettled : Emission.Settled w.program { program := w.program, shared := w.shared } :=
    ⟨rfl, fun id hid => by simp [hplace] at hid⟩
  have hall := Emission.decides_all hacyclic hsettled rfl hfatal
  cases hrun : (Emission.all w.diagnostics).run { program := w.program, shared := w.shared } with
  | ok _ e =>
    rw [Emission.Decides, Emission.Ends, hrun] at hall
    simp only [emit, hrun, Except.ok.injEq, exists_eq', true_iff]
    exact hall.1
  | error error e =>
    rw [Emission.Decides, Emission.Ends, hrun] at hall
    simp only [emit, hrun, reduceCtorEq, exists_false, false_iff]
    exact hall

/-- Here a comparison needs one name twice, which stands for a number through another name. It can be built with all that it
leads to, but not so the jump to a name without a binding, with which no bytecode is made. -/
theorem emit_ok_iff_of_shared :
    let w (statements : List NodeId) : Workspace := { program := {
      nodes := #[⟨.integer 7, {}, none⟩, ⟨.identifier "b" (some 0), {}, none⟩, ⟨.identifier "a" (some 1), {}, none⟩,
        ⟨.compare 2 2, {}, none⟩, ⟨.identifier "ghost" none, {}, none⟩, ⟨.jump .always 4, {}, none⟩]
      statements } }
    (∀ statements, (w statements).program.Acyclic ∧ (∀ id, (w statements).program.place? id = none) ∧
      Diagnostics.hasFatal (w statements).diagnostics = false) ∧
    (∀ id, ReflTransGen (w [3]).program.Refers 3 id → (w [3]).program.Buildable id) ∧
    ¬ ∃ chunk, ((w [3, 5]).emit true).1 = .ok chunk := by
  intro w
  have hacyclic (statements : List NodeId) : (w statements).program.Acyclic := by
    refine Program.acyclic_of_rank (fun id => id) fun id ref ⟨k, hk, href⟩ => ?_
    have hlt : id < 6 := Program.lt_of_kind? hk
    have hrefs : ∀ id < 6, ∀ k ∈ (w []).program.kind? id, ∀ ref ∈ k.refs, ref < id := by decide
    exact hrefs id hlt k hk ref href
  have hplace (statements : List NodeId) (id : NodeId) : (w statements).program.place? id = none := by
    match id with
    | 0 | 1 | 2 | 3 | 4 | 5 => rfl
    | _ + 6 => rfl
  refine ⟨fun statements => ⟨hacyclic statements, hplace statements, rfl⟩, ?_, ?_⟩
  · have hok : ∃ chunk, ((w [3]).emit true).1 = .ok chunk := by
      have hsome : ((w [3]).emit true).1.isOk := by decide +kernel
      cases hemit : ((w [3]).emit true).1 with
      | ok chunk => exact ⟨chunk, rfl⟩
      | error error => simp [hemit, Except.isOk, Except.toBool] at hsome
    exact (emit_ok_iff (hacyclic [3]) (hplace [3]) rfl true).1 hok 3 List.mem_cons_self
  · intro hok
    have hrefers : (w [3, 5]).program.Refers 5 4 := ⟨_, rfl, List.mem_cons_self⟩
    have hghost := (emit_ok_iff (hacyclic [3, 5]) (hplace [3, 5]) rfl true).1 hok 5 (by simp [w]) 4 (.single hrefers)
    have hbound : (none : Option NodeId).isSome := hghost.complete (.identifier "ghost" none) rfl
    cases hbound

end Workspace

end Assembler
