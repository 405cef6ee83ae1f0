import Mathlib.Data.List.Perm.Subperm
import Mathlib.Data.List.Range
import Mathlib.Logic.Relation
import Assembler.Proofs.Emitted
/-!
# Places are given once

Whatever comes of an emission, and whatever places were given before it, it leaves the nodes as they
are but for places, gives no place twice, and adds to the static area at its end only. Each of its
steps is `Emission.Careful`: it keeps what is to be kept (`Emission.Keeps`) and does not fail for a
place given twice. Names may stand for names, so a step may reach any node that its own node refers
to in the end, but no other; where no node refers to itself, the place that a name is to be given
is still free when that of its target is known. So emissions may follow each other, failed ones
too: `Workspace.emitEach_keeps`.
-/

namespace Assembler

open Relation (ReflTransGen TransGen)

/-! ## References -/

namespace Node.Kind

/-- The nodes that a node refers to: those it is made of, and what it stands for. -/
def refs : Kind → List NodeId
  | identifier _ binding => binding.toList
  | kind => kind.children

/-- The entry of the static area that a literal or a label has for its value. -/
def entry? : Kind → Option Static
  | integer value => some (.integer value)
  | string value => some (.string value)
  | label name => some (.label name)
  | _ => none

end Node.Kind

namespace Program

/-- One node refers to another. -/
def Refers (p : Program) (id ref : NodeId) : Prop := ∃ k, p.kind? id = some k ∧ ref ∈ k.refs

/-- No node refers to itself, directly or through others. -/
def Acyclic (p : Program) : Prop := ∀ id, ¬ TransGen p.Refers id id

theorem acyclic_of_rank {p : Program} (rank : NodeId → Nat) (h : ∀ id ref, p.Refers id ref → rank ref < rank id) :
    p.Acyclic := by
  have hrank : ∀ id ref, TransGen p.Refers id ref → rank ref < rank id := fun id ref hrefs => by
    induction hrefs with
    | single hrefers => exact h _ _ hrefers
    | tail _ hrefers ih => exact Nat.lt_trans (h _ _ hrefers) ih
  exact fun id hrefs => Nat.lt_irrefl _ (hrank id id hrefs)

theorem Refers.lt {p : Program} {id ref : NodeId} (h : p.Refers id ref) : id < p.size := by
  obtain ⟨k, hk, -⟩ := h
  exact lt_of_kind? hk

/-- The depth left to look for a node's place is not used up: the nodes on the way to it are distinct, as many as levels are
gone, and no more than there are nodes. -/
def HasRoom (p : Program) (depth : Nat) (id : NodeId) : Prop :=
  ∃ path : List NodeId, path.Nodup ∧ (∀ n ∈ path, n < p.size) ∧ (∀ n ∈ path, TransGen p.Refers n id) ∧
    p.size < depth + path.length

namespace HasRoom

variable {p : Program} {depth : Nat} {id ref : NodeId}

theorem of_refers (h : p.Refers id ref) : p.HasRoom p.size ref :=
  ⟨[id], by simp, List.forall_mem_singleton.2 h.lt, List.forall_mem_singleton.2 (.single h), Nat.lt_succ_self _⟩

theorem ne_zero (h : p.HasRoom depth id) : depth ≠ 0 := by
  obtain ⟨path, hnodup, hlt, -, hdepth⟩ := h
  have hsub : path ⊆ List.range p.size := fun n hn => List.mem_range.2 (hlt n hn)
  have hle := (List.subperm_of_subset hnodup hsub).length_le
  rw [List.length_range] at hle
  omega

/-- One level less is enough for a node that is referred to, as no node refers to itself. -/
theorem refers (hp : p.Acyclic) (h : p.HasRoom (depth + 1) id) (href : p.Refers id ref) : p.HasRoom depth ref := by
  obtain ⟨path, hnodup, hlt, hto, hdepth⟩ := h
  have hnew : id ∉ path := fun hmem => hp id (hto id hmem)
  refine ⟨id :: path, List.nodup_cons.2 ⟨hnew, hnodup⟩, List.forall_mem_cons.2 ⟨href.lt, hlt⟩, ?_, ?_⟩
  · exact List.forall_mem_cons.2 ⟨.single href, fun n hn => (hto n hn).tail href⟩
  · rw [List.length_cons]
    omega

end HasRoom

/-- The program without the places of its nodes. -/
def unplaced (p : Program) : Program := { p with nodes := p.nodes.map fun n => { n with place := none } }

theorem node?_unplaced (p : Program) (id : NodeId) :
    p.unplaced.node? id = (p.node? id).map fun n => { n with place := none } := by
  simp [unplaced, node?]

@[simp] theorem kind?_unplaced (p : Program) (id : NodeId) : p.unplaced.kind? id = p.kind? id := by
  simp [kind?, node?_unplaced, Function.comp_def]

theorem kind?_eq_of_unplaced {p q : Program} (h : q.unplaced = p.unplaced) (id : NodeId) : q.kind? id = p.kind? id := by
  rw [← kind?_unplaced, h, kind?_unplaced]

theorem acyclic_of_unplaced {p q : Program} (h : q.unplaced = p.unplaced) (hp : p.Acyclic) : q.Acyclic := by
  have hrefers : q.Refers = p.Refers := by
    funext id ref
    simp only [Refers, kind?_eq_of_unplaced h]
  rwa [Acyclic, hrefers]

@[simp] theorem unplaced_setPlace (p : Program) (id : NodeId) (place : Place) :
    (p.setPlace id place).unplaced = p.unplaced := by
  have hnodes : (p.setPlace id place).unplaced.nodes = p.unplaced.nodes := by
    refine Array.ext_getElem? fun i => ?_
    change (p.setPlace id place).unplaced.node? i = p.unplaced.node? i
    rw [node?_unplaced, node?_unplaced, setPlace, node?_modify]
    split
    · rw [Option.map_map]
      rfl
    · rfl
  exact congrArg (Program.mk · p.statements) hnodes

theorem place?_setPlace_of_ne (p : Program) {id i : NodeId} (place : Place) (h : id ≠ i) :
    (p.setPlace id place).place? i = p.place? i := by
  simp only [place?, setPlace, node?_modify, if_neg h]

end Program

/-- The reasons that an emission of a program without circles may have to fail. -/
def EmitError.IsProper : EmitError → Prop
  | placeReassigned _ | endless _ => False
  | _ => True

namespace Emission

/-! ## What is kept -/

/-- A later emission has the same nodes and statements, the places that were given, and the entries of the static area
at its head. Places are given to nodes in a set only, and a literal or label that is given one has its value there. -/
structure Keeps (S : NodeId → Prop) (e e' : Emission) : Prop where
  unplaced : e'.program.unplaced = e.program.unplaced
  place : ∀ id place, e.program.place? id = some place → e'.program.place? id = some place
  outside : ∀ id, ¬ S id → e'.program.place? id = e.program.place? id
  statics : e.shared.statics.toList <+: e'.shared.statics.toList
  entry : ∀ id k entry place, e.program.kind? id = some k → k.entry? = some entry → e.program.place? id = none →
    e'.program.place? id = some place → e'.shared.statics.size ≤ UInt32.size →
    ∃ slot : UInt32, place = .static slot ∧ e'.shared.statics[slot.toNat]? = some entry

namespace Keeps

variable {S S' : NodeId → Prop} {e e' e'' : Emission} {id : NodeId}

theorem kind?_eq (h : Keeps S e e') (id : NodeId) : e'.program.kind? id = e.program.kind? id :=
  Program.kind?_eq_of_unplaced h.unplaced id

/-- A change to neither the program nor the static area. -/
theorem of_eq (hprogram : e'.program = e.program) (hstatics : e'.shared.statics = e.shared.statics) : Keeps S e e' where
  unplaced := by rw [hprogram]
  place _ _ h := hprogram ▸ h
  outside _ _ := by rw [hprogram]
  statics := hstatics ▸ List.prefix_rfl
  entry id _ _ _ _ _ hnone hsome := by
    rw [hprogram, hnone] at hsome
    cases hsome

theorem refl (e : Emission) : Keeps S e e := of_eq rfl rfl

theorem trans (h : Keeps S e e') (h' : Keeps S e' e'') : Keeps S e e'' where
  unplaced := h'.unplaced.trans h.unplaced
  place id place hplace := h'.place id place (h.place id place hplace)
  outside id hid := (h'.outside id hid).trans (h.outside id hid)
  statics := h.statics.trans h'.statics
  entry id k entry place hk hentry hnone hsome hsize := by
    cases hbetween : e'.program.place? id with
    | none => exact h'.entry id k entry place ((h.kind?_eq id).trans hk) hentry hbetween hsome hsize
    | some place' =>
      obtain rfl : place' = place := Option.some.inj ((h'.place id place' hbetween).symm.trans hsome)
      have hle : e'.shared.statics.size ≤ e''.shared.statics.size := by simpa using h'.statics.length_le
      obtain ⟨slot, hslot, hget⟩ := h.entry id k entry place' hk hentry hnone hbetween (Nat.le_trans hle hsize)
      refine ⟨slot, hslot, ?_⟩
      obtain ⟨more, hmore⟩ := h'.statics
      rw [← Array.getElem?_toList] at hget ⊢
      rw [← hmore, List.getElem?_append_left (List.getElem?_eq_some_iff.1 hget).1, hget]

theorem mono (h : Keeps S e e') (hS : ∀ id, S id → S' id) : Keeps S' e e' :=
  { h with outside := fun id hid => h.outside id fun hmem => hid (hS id hmem) }

/-- One node gets a place that it does not have yet; if it stands for a value of its own, the value is there. -/
theorem of_setPlace {place : Place} (hid : S id) (hnone : e.program.place? id = none)
    (hprogram : e'.program = e.program.setPlace id place) (hstatics : e.shared.statics.toList <+: e'.shared.statics.toList)
    (hentry : ∀ k entry, e.program.kind? id = some k → k.entry? = some entry → e'.shared.statics.size ≤ UInt32.size →
      ∃ slot : UInt32, place = .static slot ∧ e'.shared.statics[slot.toNat]? = some entry) : Keeps S e e' where
  unplaced := by rw [hprogram, Program.unplaced_setPlace]
  place i place' hplace := by
    have hne : id ≠ i := by
      rintro rfl
      rw [hnone] at hplace
      cases hplace
    rwa [hprogram, Program.place?_setPlace_of_ne _ _ hne]
  outside i hi := by
    have hne : id ≠ i := fun he => hi (he ▸ hid)
    rw [hprogram, Program.place?_setPlace_of_ne _ _ hne]
  statics := hstatics
  entry i k entry place' hk hentry' hnone' hsome hsize := by
    by_cases he : id = i
    · subst he
      rw [hprogram, Program.place?_setPlace _ _ _ _ (Program.lt_of_kind? hk), if_pos rfl] at hsome
      obtain rfl := Option.some.inj hsome
      exact hentry k entry hk hentry' hsize
    · rw [hprogram, Program.place?_setPlace_of_ne _ _ he, hnone'] at hsome
      cases hsome

/-- A node gets a place, and does not stand for a value of its own. -/
theorem setPlace {k : Node.Kind} (hk : e.program.kind? id = some k) (hentry : k.entry? = none) (hid : S id)
    (hnone : e.program.place? id = none) (place : Place) :
    Keeps S e { e with program := e.program.setPlace id place } := by
  refine of_setPlace hid hnone rfl List.prefix_rfl fun k' entry hk' hentry' => ?_
  obtain rfl : k = k' := Option.some.inj (hk.symm.trans hk')
  rw [hentry] at hentry'
  cases hentry'

/-- A literal or label gets the next slot of the static area, with its value. -/
theorem defined {k : Node.Kind} {entry : Static} (hk : e.program.kind? id = some k) (hentry : k.entry? = some entry) (hid : S id)
    (hnone : e.program.place? id = none) (i : Place → Instruction) (line : Nat) : Keeps S e (e.defined id entry i line) := by
  refine of_setPlace hid hnone rfl (by simp [Emission.defined]) fun k' entry' hk' hentry' hsize => ⟨_, rfl, ?_⟩
  obtain rfl : k = k' := Option.some.inj (hk.symm.trans hk')
  obtain rfl : entry = entry' := Option.some.inj (hentry.symm.trans hentry')
  have hlt : e.shared.statics.size < UInt32.size := by
    simp only [Emission.defined, Array.size_push] at hsize
    exact hsize
  have hslot : (UInt32.ofNat e.shared.statics.size).toNat = e.shared.statics.size := UInt32.toNat_ofNat_of_lt hlt
  rw [hslot]
  exact Array.getElem?_push_size

end Keeps

/-! ## Careful steps -/

/-- Whatever comes of a step: something holds of the state if it succeeds, and of the reason and the state if it fails. -/
def Ends {α : Type} (m : Emit α) (Q : Emission → Prop) (R : EmitError → Emission → Prop) (e : Emission) : Prop :=
  match m.run e with
  | .ok _ e' => Q e'
  | .error error e' => R error e'

namespace Ends

variable {α β : Type} {m : Emit α} {Q Q' : Emission → Prop} {R R' : EmitError → Emission → Prop} {e e' : Emission}

theorem of_makes {a : α} {code : List Instruction} (h : Makes m e a code e') (hQ : Q e') : Ends m Q R e := by
  rw [Ends, h.run]
  exact hQ

theorem mono (h : Ends m Q R e) (hQ : ∀ e', Q e' → Q' e') (hR : ∀ error e', R error e' → R' error e') : Ends m Q' R' e := by
  unfold Ends at h ⊢
  split at h
  · exact hQ _ h
  · exact hR _ _ h

/-- The second step begins where the first ended; if the first fails, so do both. -/
theorem bind {f : α → Emit β} (h : Ends m Q R e) (hok : ∀ a e', m.run e = .ok a e' → Q e' → Ends (f a) Q' R' e')
    (herror : ∀ error e', R error e' → R' error e') : Ends (m >>= f) Q' R' e := by
  cases hrun : m.run e with
  | ok a e' =>
    have hbind : (m >>= f).run e = (f a).run e' := by
      have hrun : m e = .ok a e' := hrun
      simp only [EStateM.run, Bind.bind, EStateM.bind, hrun]
    rw [Ends, hrun] at h
    rw [Ends, hbind]
    exact hok a e' hrun h
  | error error e' =>
    have hbind : (m >>= f).run e = .error error e' := by
      have hrun : m e = .error error e' := hrun
      simp only [EStateM.run, Bind.bind, EStateM.bind, hrun]
    rw [Ends, hrun] at h
    rw [Ends, hbind]
    exact herror error e' h

/-- The first step is known to succeed. -/
theorem after {f : α → Emit β} {a : α} {code : List Instruction} (h : Makes m e a code e') (h' : Ends (f a) Q R e') :
    Ends (m >>= f) Q R e := by
  have hfirst : Ends m (· = e') R e := of_makes h rfl
  refine hfirst.bind (fun b e'' hrun he => ?_) fun _ _ hR => hR
  subst he
  cases h.run.symm.trans hrun
  exact h'

theorem discard (h : Ends m Q R e) : Ends (Functor.discard m) Q R e := by
  cases hrun : m.run e <;>
  · have hm : m e = _ := hrun
    rw [Ends, hrun] at h
    simpa only [Ends, EStateM.run, Functor.discard, Functor.mapConst, Function.comp, EStateM.map, hm] using h

end Ends

/-- Whatever comes of a step, what is to be kept is kept, and if it fails, then for a proper reason. -/
def Careful {α : Type} (m : Emit α) (S : NodeId → Prop) (e : Emission) : Prop :=
  match m.run e with
  | .ok _ e' => Keeps S e e'
  | .error error e' => error.IsProper ∧ Keeps S e e'

namespace Careful

variable {α β : Type} {S S' : NodeId → Prop} {e e' : Emission}

theorem pure (a : α) : Careful (Pure.pure a : Emit α) S e := Keeps.refl e

theorem throw {error : EmitError} (h : error.IsProper) : Careful (MonadExcept.throw error : Emit α) S e :=
  ⟨h, Keeps.refl e⟩

theorem of_makes {m : Emit α} {a : α} {code : List Instruction} (h : Makes m e a code e') (hkeeps : Keeps S e e') :
    Careful m S e :=
  Ends.of_makes h hkeeps

theorem mono {m : Emit α} (h : Careful m S e) (hS : ∀ id, S id → S' id) : Careful m S' e :=
  Ends.mono h (fun _ hkeeps => hkeeps.mono hS) fun _ _ herror => ⟨herror.1, herror.2.mono hS⟩

/-- The second step begins where the first ended, which gave places in a smaller set only. -/
theorem bind_mono {m : Emit α} {f : α → Emit β} (h : Careful m S e) (hS : ∀ id, S id → S' id)
    (h' : ∀ a e', m.run e = .ok a e' → Keeps S e e' → Careful (f a) S' e') : Careful (m >>= f) S' e := by
  refine Ends.bind (h.mono hS) (fun a e' hrun hfirst => ?_) fun _ _ herror => herror
  have hkeeps : Keeps S e e' := by
    rw [Careful, hrun] at h
    exact h
  exact Ends.mono (h' a e' hrun hkeeps) (fun _ hrest => hfirst.trans hrest) fun _ _ hrest => ⟨hrest.1, hfirst.trans hrest.2⟩

theorem bind {m : Emit α} {f : α → Emit β} (h : Careful m S e) (h' : ∀ a e', Keeps S e e' → Careful (f a) S e') :
    Careful (m >>= f) S e :=
  h.bind_mono (fun _ hid => hid) fun a e' _ => h' a e'

/-- The first step is known to succeed. -/
theorem after {m : Emit α} {f : α → Emit β} {a : α} {code : List Instruction} (h : Makes m e a code e') (hkeeps : Keeps S e e')
    (h' : Careful (f a) S e') : Careful (m >>= f) S e :=
  Ends.after h (Ends.mono h' (fun _ hrest => hkeeps.trans hrest) fun _ _ hrest => ⟨hrest.1, hkeeps.trans hrest.2⟩)

theorem discard {m : Emit α} (h : Careful m S e) : Careful (Functor.discard m) S e := Ends.discard h

theorem mapM {f : NodeId → Emit α} {ids : List NodeId} (h : ∀ id ∈ ids, ∀ e', Keeps S e e' → Careful (f id) S e') :
    Careful (ids.mapM f) S e := by
  induction ids generalizing e with
  | nil => exact pure []
  | cons id ids ih =>
    rw [List.mapM_cons]
    refine (h id List.mem_cons_self e (Keeps.refl e)).bind fun a e₁ h₁ => ?_
    refine (ih fun id hid e' h' => h id (List.mem_cons_of_mem _ hid) e' (h₁.trans h')).bind fun _ _ _ => ?_
    exact pure _

theorem forM {f : NodeId → Emit Unit} {ids : List NodeId} (h : ∀ id ∈ ids, ∀ e', Keeps S e e' → Careful (f id) S e') :
    Careful (ids.forM f) S e := by
  induction ids generalizing e with
  | nil => exact pure ()
  | cons id ids ih =>
    refine (h id List.mem_cons_self e (Keeps.refl e)).bind fun _ e₁ h₁ => ?_
    exact ih fun id hid e' h' => h id (List.mem_cons_of_mem _ hid) e' (h₁.trans h')

end Careful

/-! ## Building -/

section Build

variable {p : Program} {e : Emission} {id : NodeId}

theorem careful_emit (S : NodeId → Prop) (i : Instruction) (line : Nat) : Careful (emit i line) S e :=
  .of_makes (makes_emit i line e) (.of_eq rfl rfl)

/-- Building a node gives places to nodes that it refers to in the end, if looking for the places of those it refers to
gives places to such nodes only. -/
theorem careful_buildKind (hp : p.Acyclic) {locate : NodeId → Emit Place} {k : Node.Kind} (hk : p.kind? id = some k)
    (hlocate : ∀ ref, p.Refers id ref → ∀ e, e.program.unplaced = p.unplaced →
      Careful (locate ref) (ReflTransGen p.Refers ref) e)
    (he : e.program.unplaced = p.unplaced) (hnone : e.program.place? id = none) (location : Location) :
    Careful (buildKind locate id location k) (ReflTransGen p.Refers id) e := by
  have hkind {e : Emission} (he : e.program.unplaced = p.unplaced) : e.program.kind? id = some k :=
    (Program.kind?_eq_of_unplaced he id).trans hk
  have hrefers {ref : NodeId} (href : ref ∈ k.refs) : p.Refers id ref := ⟨k, hk, href⟩
  have hoperand {ref : NodeId} (href : ref ∈ k.refs) (e : Emission) (he : e.program.unplaced = p.unplaced) :
      Careful (locate ref) (ReflTransGen p.Refers id) e :=
    (hlocate ref (hrefers href) e he).mono fun _ h => h.head (hrefers href)
  have hdefine (entry : Static) (hentry : k.entry? = some entry) (i : Place → Instruction) :
      Careful (do let place ← allocate entry; assign id place; emit (i place) location.line) (ReflTransGen p.Refers id) e :=
    .of_makes (makes_define entry i location.line hnone) (.defined (hkind he) hentry .refl hnone i location.line)
  cases k with
  | directive name arguments body =>
    rw [buildKind]
    split
    · exact Careful.throw trivial
    · exact (Careful.mapM fun a ha e' h' => hoperand ha e' (h'.unplaced.trans he)).bind fun _ _ _ => careful_emit ..
  | labelDecl name label => exact (hoperand List.mem_cons_self e he).discard
  | label name => exact hdefine (.label name) rfl .label
  | identifier name binding =>
    cases binding with
    | none => exact Careful.throw trivial
    | some target =>
      have htarget : p.Refers id target := hrefers (by simp [Node.Kind.refs])
      refine (hlocate target htarget e he).bind_mono (fun _ h => h.head htarget) fun place e₁ _ h₁ => ?_
      -- The name is not reached from its target, so the search for the target's place left the name without one.
      have hnone₁ : e₁.program.place? id = none := by
        rw [h₁.outside id fun hback => hp id (TransGen.head' htarget hback), hnone]
      exact .of_makes (makes_assign _ hnone₁) (.setPlace (hkind (h₁.unplaced.trans he)) rfl .refl hnone₁ _)
  | integer value => exact hdefine (.integer value) rfl (.loadInt · value)
  | string value => exact hdefine (.string value) rfl (.loadString · value)
  | slot store index => exact .of_makes (makes_assign _ hnone) (.setPlace (hkind he) rfl .refl hnone _)
  | jump condition target =>
    exact (hoperand List.mem_cons_self e he).bind fun _ _ _ => careful_emit ..
  | compare left right =>
    refine (hoperand List.mem_cons_self e he).bind fun _ e₁ h₁ => ?_
    refine (hoperand (List.mem_cons_of_mem _ List.mem_cons_self) e₁ (h₁.unplaced.trans he)).bind fun _ _ _ => ?_
    exact careful_emit ..

/-- A node without a place is built as its kind says. -/
theorem careful_build (hp : p.Acyclic) {locate : NodeId → Emit Place}
    (hlocate : ∀ ref, p.Refers id ref → ∀ e, e.program.unplaced = p.unplaced →
      Careful (locate ref) (ReflTransGen p.Refers ref) e)
    (he : e.program.unplaced = p.unplaced) (hnone : e.program.place? id = none) :
    Careful (build locate id) (ReflTransGen p.Refers id) e := by
  refine .after (makes_start id e) (.of_eq rfl rfl) (.after (makes_get _) (.refl _) ?_)
  have hkind : (e.begin id).program.kind? id = p.kind? id := Program.kind?_eq_of_unplaced he id
  simp only [hkind]
  cases hk : p.kind? id with
  | none => exact Careful.pure ()
  | some k => exact careful_buildKind (e := e.begin id) hp hk hlocate he hnone _

/-- Looking for the place of a node gives places to nodes that it refers to in the end, and never runs out of depth. -/
theorem careful_locate (hp : p.Acyclic) (depth : Nat) (hroom : p.HasRoom depth id) (he : e.program.unplaced = p.unplaced) :
    Careful (locate depth id) (ReflTransGen p.Refers id) e := by
  induction depth generalizing id e with
  | zero => exact absurd rfl hroom.ne_zero
  | succ depth ih =>
    cases hplace : e.program.place? id with
    | some place => exact .of_makes (makes_locate_of_place depth hplace) (.refl e)
    | none =>
      refine .after (makes_place? id e) (.refl e) ?_
      rw [hplace]
      refine (careful_build hp (fun ref href e he => ih (hroom.refers hp href) he) he hplace).bind fun _ e₁ _ => ?_
      refine .after (makes_place? id e₁) (.refl e₁) ?_
      split
      · exact Careful.pure _
      · exact .after (makes_get e₁) (.refl e₁) (Careful.throw trivial)

theorem careful_statement (hp : p.Acyclic) (he : e.program.unplaced = p.unplaced) :
    Careful (statement p.size id) (ReflTransGen p.Refers id) e := by
  refine .after (makes_place? id e) (.refl e) ?_
  cases hplace : e.program.place? id with
  | some place => exact Careful.pure ()
  | none =>
    exact careful_build hp (fun ref href e he => careful_locate hp p.size (.of_refers href) he) he hplace

/-- An emission is careful, whatever diagnostics it is begun with. -/
theorem careful_all (he : e.program.Acyclic) (diagnostics : List Diagnostic) : Careful (all diagnostics) (fun _ => True) e := by
  rw [all]
  split
  · exact Careful.throw trivial
  · refine .after (makes_get e) (.refl e) (.after (makes_tell _ e) (.of_eq rfl rfl) ?_)
    refine Careful.bind (Careful.forM fun id _ e' h' => ?_) fun _ e₁ _ => .after (makes_get e₁) (.refl e₁) (careful_emit ..)
    exact (careful_statement he h'.unplaced).mono fun _ _ => trivial

end Build

end Emission

/-! ## Emissions one after the other -/

namespace Workspace

/-- Emissions one after the other, each with the diagnostics of its own time, and with or without lines. -/
def emitEach (w : Workspace) : List (List Diagnostic × Bool) → List (Except EmitError Chunk) × Workspace
  | [] => ([], w)
  | (diagnostics, tracksLines) :: calls =>
    let (outcome, w) := { w with session := { w.session with diagnostics } }.emit tracksLines
    let (outcomes, w) := w.emitEach calls
    (outcome :: outcomes, w)

/-- The beginning of an emission. -/
def emission (w : Workspace) : Emission := { program := w.program, shared := w.shared }

theorem emit_keeps {w : Workspace} (hw : w.program.Acyclic) (tracksLines : Bool) :
    Emission.Keeps (fun _ => True) w.emission (w.emit tracksLines).2.emission ∧
      ∀ error, (w.emit tracksLines).1 = .error error → error.IsProper := by
  have hcareful : Emission.Careful (Emission.all w.diagnostics) (fun _ => True) w.emission := Emission.careful_all hw _
  cases hrun : (Emission.all w.diagnostics).run w.emission <;> rw [Emission.Careful, hrun] at hcareful
  · simp only [emission] at hrun
    simp only [emit, hrun]
    exact ⟨hcareful.trans (.of_eq rfl rfl), by simp⟩
  · simp only [emission] at hrun
    simp only [emit, hrun]
    exact ⟨hcareful.2.trans (.of_eq rfl rfl), by simpa using hcareful.1⟩

theorem emitEach_keeps_all {w : Workspace} (hw : w.program.Acyclic) (calls : List (List Diagnostic × Bool)) :
    Emission.Keeps (fun _ => True) w.emission (w.emitEach calls).2.emission ∧
      ∀ error, .error error ∈ (w.emitEach calls).1 → error.IsProper := by
  induction calls generalizing w with
  | nil => exact ⟨.refl _, by simp [emitEach]⟩
  | cons call calls ih =>
    obtain ⟨diagnostics, tracksLines⟩ := call
    obtain ⟨hfirst, hproper⟩ :=
      emit_keeps (w := { w with session := { w.session with diagnostics } }) hw tracksLines
    obtain ⟨hrest, hpropers⟩ := ih (Program.acyclic_of_unplaced hfirst.unplaced hw)
    refine ⟨hfirst.trans hrest, fun error herror => ?_⟩
    rcases List.mem_cons.1 herror with he | hmem
    · exact hproper error he.symm
    · exact hpropers error hmem

/-- Any emissions leave the nodes and statements of a program as they are, but for places, and places that were given
and the head of the static area as they were before the later ones of them. A literal or label that these gave a place
has its own value there. None of them fails because a place was given before, or because a node refers to itself. -/
theorem emitEach_keeps {w : Workspace} (hw : w.program.Acyclic) (calls calls' : List (List Diagnostic × Bool)) :
    let before := (w.emitEach calls).2
    let after := (before.emitEach calls').2
    after.program.unplaced = w.program.unplaced ∧
    (∀ id place, before.program.place? id = some place → after.program.place? id = some place) ∧
    before.shared.statics.toList <+: after.shared.statics.toList ∧
    (after.shared.statics.size ≤ UInt32.size → ∀ id k entry place, w.program.kind? id = some k → k.entry? = some entry →
      before.program.place? id = none → after.program.place? id = some place →
      ∃ slot : UInt32, place = .static slot ∧ after.shared.statics[slot.toNat]? = some entry) ∧
    ∀ outcome ∈ (w.emitEach calls).1 ++ (before.emitEach calls').1, ∀ id,
      outcome ≠ .error (.placeReassigned id) ∧ outcome ≠ .error (.endless id) := by
  intro before after
  obtain ⟨hbefore, hproper⟩ := emitEach_keeps_all hw calls
  obtain ⟨hafter, hproper'⟩ := emitEach_keeps_all (Program.acyclic_of_unplaced hbefore.unplaced hw) calls'
  refine ⟨hafter.unplaced.trans hbefore.unplaced, hafter.place, hafter.statics, ?_, ?_⟩
  · intro hsize id k entry place hk hentry hnone hplace
    exact hafter.entry id k entry place ((hbefore.kind?_eq id).trans hk) hentry hnone hplace hsize
  · intro outcome houtcome id
    have hall (error : EmitError) (he : outcome = .error error) : error.IsProper := by
      subst he
      exact (List.mem_append.1 houtcome).elim (hproper error) (hproper' error)
    exact ⟨fun he => hall _ he, fun he => hall _ he⟩

/-- Here two names stand for a number one after the other, a slot has its place from the start, and the second statement
fails after the first was emitted. It fails again in the same way, and the first one is emitted again from the places given. -/
theorem emitEach_keeps_of_failing :
    let w : Workspace := { program := {
      nodes := #[⟨.integer 7, {}, none⟩, ⟨.identifier "b" (some 0), {}, none⟩, ⟨.identifier "a" (some 1), {}, none⟩,
        ⟨.slot .register 3, {}, some ⟨.localSlot, 5⟩⟩, ⟨.compare 2 3, {}, none⟩, ⟨.identifier "ghost" none, {}, none⟩,
        ⟨.compare 2 5, {}, none⟩]
      statements := [4, 6] } }
    let calls := [([], true), ([], false)]
    w.program.Acyclic ∧ (w.emitEach calls).1 = List.replicate 2 (.error (.unresolvedReference "ghost" {})) ∧
      (w.emitEach calls).2.program.place? 2 = some (.static 0) ∧
      (w.emitEach calls).2.program.place? 3 = some ⟨.localSlot, 5⟩ ∧
      ∃ slot : UInt32, Place.static 0 = .static slot ∧
        (w.emitEach calls).2.shared.statics[slot.toNat]? = some (.integer 7) := by
  intro w calls
  have hacyclic : w.program.Acyclic := by
    refine Program.acyclic_of_rank (fun id => id) fun id ref ⟨k, hk, href⟩ => ?_
    have hlt : id < 7 := Program.lt_of_kind? hk
    have hrefs : ∀ id < 7, ∀ k ∈ w.program.kind? id, ∀ ref ∈ k.refs, ref < id := by decide
    exact hrefs id hlt k hk ref href
  have hnone : (w.emitEach []).2 = w := rfl
  obtain ⟨-, hplace, -, hentry, -⟩ := emitEach_keeps hacyclic [] calls
  rw [hnone] at hplace hentry
  have hslot : w.program.place? 3 = some ⟨.localSlot, 5⟩ := rfl
  refine ⟨hacyclic, by decide +kernel, by decide +kernel, hplace 3 _ hslot, ?_⟩
  exact hentry (by decide +kernel) 0 (.integer 7) _ (.static 0) rfl rfl (by decide) (by decide +kernel)

end Workspace

end Assembler
