import Assembler.Proofs.Bodies
/-!
# Clauses

What a line says, apart from where its tokens and nodes stand and what its names are bound to. A sentence
says a clause by its tokens (`Sentence.clause?`), wherever these are located (`Layout.of_said`), and the
statement that is made of the sentence holds the same clause (`Program.Says.holds`), also when its names
have been bound (`Program.Holds.later`).
-/

namespace Assembler

/-- What a line says. The terms are kinds of nodes without children and bindings. -/
inductive Clause
  | label (name : String)
  | directive (name : String) (terms : List Node.Kind) (body : String)
  | jump (condition : Condition) (target : Node.Kind)
  | compare (left right : Node.Kind)
  | bare (term : Node.Kind)
  deriving DecidableEq, Repr

def Clause.isHoisted : Clause → Bool
  | label _ | directive .. => true
  | _ => false

/-! ## Clauses of sentences -/

/-- The clause that a sentence says, if its terms say what they are. -/
def Sentence.clause? : Sentence → Option Clause
  | label name => some (.label name.value)
  | directive name terms body => (terms.mapM Token.leaf?).map (.directive name.value · (bodyText body))
  | jump condition _ target => target.leaf?.map (.jump condition)
  | compare _ left right => do return .compare (← left.leaf?) (← right.leaf?)
  | bare term => term.leaf?.map .bare

namespace Sentence

theorem exists_clause? {s : Sentence} (hs : s.IsLegal Token.IsLeaf) : ∃ c, s.clause? = some c := by
  have hleaf {t : Token} (ht : t.IsLeaf) : ∃ k, t.leaf? = some k := Option.isSome_iff_exists.1 ht
  cases s with
  | label name => exact ⟨_, rfl⟩
  | directive name terms body =>
    obtain ⟨-, hterms, -⟩ := hs
    obtain ⟨kinds, hkinds⟩ := exists_mapM_eq_some fun t ht => hleaf (hterms t ht)
    exact ⟨_, by rw [clause?, hkinds]; rfl⟩
  | jump condition mnemonic target =>
    obtain ⟨k, hk⟩ := hleaf hs.2.2
    exact ⟨_, by rw [clause?, hk]; rfl⟩
  | compare mnemonic left right =>
    obtain ⟨k, hk⟩ := hleaf hs.2.2.1
    obtain ⟨k', hk'⟩ := hleaf hs.2.2.2
    exact ⟨.compare k k', by simp [clause?, hk, hk']⟩
  | bare term =>
    obtain ⟨k, hk⟩ := hleaf hs.1
    exact ⟨_, by rw [clause?, hk]; rfl⟩

theorem isHoisted_of_clause? {s : Sentence} {c : Clause} (h : s.clause? = some c) : c.isHoisted = s.isHoisted := by
  cases s with
  | label name =>
    cases h
    rfl
  | directive name terms body =>
    obtain ⟨_, -, rfl⟩ := Option.map_eq_some_iff.1 h
    rfl
  | jump condition mnemonic target =>
    obtain ⟨_, -, rfl⟩ := Option.map_eq_some_iff.1 h
    rfl
  | compare mnemonic left right =>
    obtain ⟨k, -, h⟩ := Option.bind_eq_some_iff.1 h
    obtain ⟨k', -, h⟩ := Option.bind_eq_some_iff.1 h
    cases h
    rfl
  | bare term =>
    obtain ⟨_, -, rfl⟩ := Option.map_eq_some_iff.1 h
    rfl

end Sentence

/-! ## Clauses of statements -/

namespace Program

/-- A node is a leaf of a kind, whatever it is bound to. -/
structure IsOf (p : Program) (k : Node.Kind) (id : NodeId) : Prop where
  isLeaf : k.IsLeaf
  kind : (p.kind? id).map (·.unbound) = some k

/-- A statement says a clause. -/
def Holds (p : Program) (c : Clause) (id : NodeId) : Prop :=
  match c with
  | .label name => ∃ label, p.kind? id = some (.labelDecl name label)
  | .directive name terms body =>
    ∃ arguments, List.Forall₂ p.IsOf terms arguments ∧ p.kind? id = some (.directive name arguments body)
  | .jump condition target => ∃ a, p.IsOf target a ∧ p.kind? id = some (.jump condition a)
  | .compare left right => ∃ a b, p.IsOf left a ∧ p.IsOf right b ∧ p.kind? id = some (.compare a b)
  | .bare term => p.IsOf term id

theorem IsOf.name {p : Program} {name : String} {id : NodeId} (h : p.IsOf (.identifier name none) id) :
    ∃ b, p.kind? id = some (.identifier name b) := by
  obtain ⟨k, hk, hunbound⟩ := Option.map_eq_some_iff.1 h.kind
  obtain ⟨b, rfl⟩ := Node.Kind.unbound_eq_identifier_iff.1 hunbound
  exact ⟨b, hk⟩

/-- A leaf that is no name is bound to nothing. -/
theorem IsOf.kind? {p : Program} {k : Node.Kind} {id : NodeId} (h : p.IsOf k id) (hk : ∀ name b, k ≠ .identifier name b) :
    p.kind? id = some k := by
  obtain ⟨k', hk', hunbound⟩ := Option.map_eq_some_iff.1 h.kind
  rw [hk', (Node.Kind.unbound_eq_iff hk).1 hunbound]

theorem IsOf.isOperand {p : Program} {k : Node.Kind} {id : NodeId} (h : p.IsOf k id) : p.IsOperand id := by
  obtain ⟨k', hk', hunbound⟩ := Option.map_eq_some_iff.1 h.kind
  refine ⟨k', hk', ?_⟩
  rw [← Node.Kind.isExpression_unbound, hunbound]
  cases h.isLeaf <;> rfl

theorem isOf_of_leaf? {p : Program} {t : Token} {k : Node.Kind} {id : NodeId} (h : p.IsTerm t id) (hk : t.leaf? = some k) :
    p.IsOf k id := by
  have hleaf := Token.isLeaf_of_leaf? hk
  refine ⟨hleaf, ?_⟩
  rw [Program.kind?, h k hk, Option.map_some, Option.map_some]
  cases hleaf <;> rfl

theorem forall₂_isOf_of_leaf? {p : Program} {terms : List Token} {kinds : List Node.Kind} {ids : List NodeId}
    (h : List.Forall₂ p.IsTerm terms ids) (hkinds : terms.mapM Token.leaf? = some kinds) : List.Forall₂ p.IsOf kinds ids := by
  rw [mapM_eq_some_iff] at hkinds
  induction hkinds generalizing ids with
  | nil =>
    cases h
    exact .nil
  | cons hk _ ih =>
    cases h with
    | cons ha h => exact .cons (isOf_of_leaf? ha hk) (ih h)

/-- A statement that says what a sentence says holds the clause of the sentence. -/
theorem Says.holds {p : Program} {s : Sentence} {c : Clause} {id : NodeId} (h : p.Says s id) (hc : s.clause? = some c) :
    p.Holds c id := by
  have hkind {n : Node} (hn : p.node? id = some n) : p.kind? id = some n.kind := kind?_eq_some.2 ⟨n, hn, rfl⟩
  cases s with
  | label name =>
    obtain ⟨label, -, hid⟩ := h
    cases hc
    exact ⟨label, hkind hid⟩
  | directive name terms body =>
    obtain ⟨arguments, hterms, hid⟩ := h
    obtain ⟨kinds, hkinds, rfl⟩ := Option.map_eq_some_iff.1 hc
    exact ⟨arguments, forall₂_isOf_of_leaf? hterms hkinds, hkind hid⟩
  | jump condition mnemonic target =>
    obtain ⟨a, ha, hid⟩ := h
    obtain ⟨k, hk, rfl⟩ := Option.map_eq_some_iff.1 hc
    exact ⟨a, isOf_of_leaf? ha hk, hkind hid⟩
  | compare mnemonic left right =>
    obtain ⟨a, b, ha, hb, hid⟩ := h
    obtain ⟨k, hk, hc⟩ := Option.bind_eq_some_iff.1 hc
    obtain ⟨k', hk', hc⟩ := Option.bind_eq_some_iff.1 hc
    cases hc
    exact ⟨a, b, isOf_of_leaf? ha hk, isOf_of_leaf? hb hk', hkind hid⟩
  | bare term =>
    obtain ⟨k, hk, rfl⟩ := Option.map_eq_some_iff.1 hc
    exact isOf_of_leaf? h hk

end Program

namespace Workspace.Later

variable {w w' : Workspace}

theorem isOf (h : w.Later w') {k : Node.Kind} {id : NodeId} (hid : w.program.IsOf k id) : w'.program.IsOf k id :=
  ⟨hid.isLeaf, (h.kind id).trans hid.kind⟩

/-- Clauses do not tell what names are bound to. -/
theorem holds (h : w.Later w') {c : Clause} {id : NodeId} (hid : w.program.Holds c id) : w'.program.Holds c id := by
  cases c with
  | label name =>
    obtain ⟨label, hk⟩ := hid
    exact ⟨label, (h.kind?_iff (by simp)).2 hk⟩
  | directive name terms body =>
    obtain ⟨arguments, hterms, hk⟩ := hid
    exact ⟨arguments, hterms.imp fun _ _ => h.isOf, (h.kind?_iff (by simp)).2 hk⟩
  | jump condition target =>
    obtain ⟨a, ha, hk⟩ := hid
    exact ⟨a, h.isOf ha, (h.kind?_iff (by simp)).2 hk⟩
  | compare left right =>
    obtain ⟨a, b, ha, hb, hk⟩ := hid
    exact ⟨a, b, h.isOf ha, h.isOf hb, (h.kind?_iff (by simp)).2 hk⟩
  | bare term => exact h.isOf hid

end Workspace.Later

/-! ## Tokens that say the same -/

section Said
variable {t t' : Token}

theorem Token.leaf?_of_said (h : t.said = t'.said) : t.leaf? = t'.leaf? := by
  obtain ⟨kind, value, location⟩ := t
  obtain ⟨kind', value', location'⟩ := t'
  cases h
  rfl

theorem Token.repr_of_said (h : t.said = t'.said) : t.repr = t'.repr := by
  obtain ⟨kind, value, location⟩ := t
  obtain ⟨kind', value', location'⟩ := t'
  cases h
  rfl

theorem Token.kind_of_said (h : t.said = t'.said) : t.kind = t'.kind := congrArg Prod.fst h

theorem Token.value_of_said (h : t.said = t'.said) : t.value = t'.value := congrArg Prod.snd h

theorem Token.isLeaf_of_said (h : t.said = t'.said) (ht : t.IsLeaf) : t'.IsLeaf := by
  rwa [IsLeaf, ← leaf?_of_said h]

/-- Of a list of tokens that says the same as another, the first token and the others say the same. -/
theorem Token.exists_cons_of_said {ts ts' : List Token} (h : ts'.map said = (t :: ts).map said) :
    ∃ u us, ts' = u :: us ∧ t.said = u.said ∧ us.map said = ts.map said := by
  obtain ⟨u, us, rfl, hu, hus⟩ := List.map_eq_cons_iff.1 h
  exact ⟨u, us, rfl, hu.symm, hus⟩

theorem Token.mapM_leaf?_of_said {ts ts' : List Token} (h : ts'.map said = ts.map said) :
    ts'.mapM leaf? = ts.mapM leaf? := by
  induction ts generalizing ts' with
  | nil => rw [List.map_eq_nil_iff.1 h]
  | cons t ts ih =>
    obtain ⟨u, us, rfl, hu, hus⟩ := exists_cons_of_said h
    rw [List.mapM_cons, List.mapM_cons, leaf?_of_said hu, ih hus]

theorem Token.forall_isLeaf_of_said {ts ts' : List Token} (h : ts'.map said = ts.map said) (hts : ∀ t ∈ ts, t.IsLeaf) :
    ∀ t ∈ ts', t.IsLeaf := by
  intro u hu
  have hmem : u.said ∈ ts.map said := h ▸ List.mem_map_of_mem hu
  obtain ⟨t, ht, hsaid⟩ := List.mem_map.1 hmem
  exact isLeaf_of_said hsaid (hts t ht)

theorem Token.spelling_of_said {ts ts' : List Token} (h : ts'.map said = ts.map said) : spelling ts' = spelling ts := by
  induction ts generalizing ts' with
  | nil => rw [List.map_eq_nil_iff.1 h]
  | cons t ts ih =>
    obtain ⟨u, us, rfl, hu, hus⟩ := exists_cons_of_said h
    rw [spelling, spelling, repr_of_said hu, ih hus]

theorem Braced.isNested_of_said {depth : Nat} {ts ts' : List Token} (h : ts'.map Token.said = ts.map Token.said) :
    isNested depth ts' = isNested depth ts := by
  have hmap (ts : List Token) : ∀ depth, isNested depth ts =
      isPaired (·.1 = Token.Kind.openBrace) (·.1 = Token.Kind.closeBrace) depth (ts.map Token.said) := by
    induction ts with
    | nil => exact fun _ => rfl
    | cons t ts ih =>
      intro depth
      simp only [isNested, isPaired, List.map_cons, Token.said] at ih ⊢
      cases depth <;> simp only [ih]
  rw [hmap, hmap, h]

/-- Tokens that say the same as those of a sentence make a sentence of the same clause. -/
theorem Sentence.exists_of_said {s : Sentence} (hs : s.IsLegal Token.IsLeaf) {ts : List Token}
    (h : ts.map Token.said = s.tokens.map Token.said) :
    ∃ s' : Sentence, s'.tokens = ts ∧ s'.IsLegal Token.IsLeaf ∧ s'.clause? = s.clause? := by
  cases s with
  | label name =>
    obtain ⟨u, us, rfl, hu, hus⟩ := Token.exists_cons_of_said h
    obtain rfl := List.map_eq_nil_iff.1 hus
    refine ⟨label u, rfl, (Token.kind_of_said hu).symm.trans hs, ?_⟩
    rw [clause?, clause?, Token.value_of_said hu]
  | directive name terms body =>
    obtain ⟨hkind, hterms, hcount, hbody⟩ := hs
    obtain ⟨u, us, rfl, hu, hus⟩ := Token.exists_cons_of_said h
    rw [List.map_append, List.map_eq_append_iff] at hus
    obtain ⟨terms', more, rfl, hterms', hmore⟩ := hus
    obtain ⟨body', rfl, hbody', htext⟩ : ∃ body' : Option Braced, (body'.map Braced.tokens).getD [] = more ∧
        (∀ b ∈ body', b.IsLegal) ∧ bodyText body' = bodyText body := by
      cases body with
      | none => exact ⟨none, (List.map_eq_nil_iff.1 hmore).symm, by simp, rfl⟩
      | some b =>
        obtain ⟨hopening, hinside, hclosing⟩ := hbody b rfl
        obtain ⟨o, more, rfl, ho, hmore⟩ := Token.exists_cons_of_said hmore
        rw [List.map_append, List.map_eq_append_iff] at hmore
        obtain ⟨inside, last, rfl, hinside', hlast⟩ := hmore
        obtain ⟨c, more, rfl, hc, hmore⟩ := Token.exists_cons_of_said hlast
        obtain rfl := List.map_eq_nil_iff.1 hmore
        refine ⟨some ⟨o, inside, c⟩, rfl, ?_, Token.spelling_of_said hinside'⟩
        rintro _ ⟨⟩
        exact ⟨(Token.kind_of_said ho).symm.trans hopening, (Braced.isNested_of_said hinside').trans hinside,
          (Token.kind_of_said hc).symm.trans hclosing⟩
    refine ⟨directive u terms' body', rfl, ⟨(Token.kind_of_said hu).symm.trans hkind,
      Token.forall_isLeaf_of_said hterms' hterms, ?_, hbody'⟩, ?_⟩
    · rwa [← List.length_map Token.said, hterms', List.length_map]
    · rw [clause?, clause?, Token.mapM_leaf?_of_said hterms', htext, Token.value_of_said hu]
  | jump condition mnemonic target =>
    obtain ⟨u, us, rfl, hu, hus⟩ := Token.exists_cons_of_said h
    obtain ⟨v, vs, rfl, hv, hvs⟩ := Token.exists_cons_of_said hus
    obtain rfl := List.map_eq_nil_iff.1 hvs
    obtain ⟨hkind, hvalue, htarget⟩ := hs
    refine ⟨jump condition u v, rfl, ⟨(Token.kind_of_said hu).symm.trans hkind, (Token.value_of_said hu).symm.trans hvalue,
      Token.isLeaf_of_said hv htarget⟩, ?_⟩
    rw [clause?, clause?, Token.leaf?_of_said hv]
  | compare mnemonic left right =>
    obtain ⟨u, us, rfl, hu, hus⟩ := Token.exists_cons_of_said h
    obtain ⟨l, ls, rfl, hl, hls⟩ := Token.exists_cons_of_said hus
    obtain ⟨r, rs, rfl, hr, hrs⟩ := Token.exists_cons_of_said hls
    obtain rfl := List.map_eq_nil_iff.1 hrs
    obtain ⟨hkind, hvalue, hleft, hright⟩ := hs
    refine ⟨compare u l r, rfl, ⟨(Token.kind_of_said hu).symm.trans hkind, (Token.value_of_said hu).symm.trans hvalue,
      Token.isLeaf_of_said hl hleft, Token.isLeaf_of_said hr hright⟩, ?_⟩
    rw [clause?, clause?, Token.leaf?_of_said hl, Token.leaf?_of_said hr]
  | bare term =>
    obtain ⟨u, us, rfl, hu, hus⟩ := Token.exists_cons_of_said h
    obtain rfl := List.map_eq_nil_iff.1 hus
    refine ⟨bare u, rfl, ⟨Token.isLeaf_of_said hu hs.1, ?_⟩, ?_⟩
    · have hmnemonic := hs.2
      rwa [Token.IsMnemonic, Token.kind_of_said hu, Token.value_of_said hu] at hmnemonic
    · rw [clause?, clause?, Token.leaf?_of_said hu]

theorem EndsLine.of_said {ts ts' : List Token} (h : EndsLine ts) (hsaid : ts'.map Token.said = ts.map Token.said) :
    EndsLine ts' := by
  intro u hu
  obtain ⟨us, rfl⟩ := List.head?_eq_some_iff.1 hu
  cases ts with
  | nil => cases hsaid
  | cons t ts =>
    obtain ⟨_, _, heq, ht, -⟩ := Token.exists_cons_of_said hsaid
    obtain ⟨rfl, -⟩ := List.cons.inj heq
    have hnewline := h t rfl
    rwa [Token.isNewline, Token.kind_of_said ht] at hnewline

/-- Tokens that say the same are laid out in sentences of the same clauses. -/
theorem Layout.of_said {ts ts' : List Token} {ss : List Sentence} (h : Layout Token.IsLeaf ts ss)
    (hsaid : ts'.map Token.said = ts.map Token.said) :
    ∃ ss', Layout Token.IsLeaf ts' ss' ∧ ss'.map Sentence.clause? = ss.map Sentence.clause? := by
  induction h generalizing ts' with
  | nil =>
    obtain rfl := List.map_eq_nil_iff.1 hsaid
    exact ⟨[], .nil, rfl⟩
  | newline ht _ ih =>
    obtain ⟨u, us, rfl, hu, hus⟩ := Token.exists_cons_of_said hsaid
    obtain ⟨ss', hlayout, hclauses⟩ := ih hus
    rw [Token.isNewline, Token.kind_of_said hu] at ht
    exact ⟨ss', .newline ht hlayout, hclauses⟩
  | sentence hs hend _ ih =>
    rw [List.map_append, List.map_eq_append_iff] at hsaid
    obtain ⟨own, rest, rfl, hown, hrest⟩ := hsaid
    obtain ⟨s', rfl, hs', hclause⟩ := Sentence.exists_of_said hs hown
    obtain ⟨ss', hlayout, hclauses⟩ := ih hrest
    exact ⟨s' :: ss', .sentence hs' (hend.of_said hrest) hlayout, by rw [List.map_cons, List.map_cons, hclause, hclauses]⟩

end Said

/-! ## Programs of clauses -/

/-- Clauses in the order in which they take effect. -/
def Clause.inOrder (cs : List Clause) : List Clause := cs.filter (·.isHoisted) ++ cs.filter (!·.isHoisted)

theorem Layout.exists_clauses {ts : List Token} {ss : List Sentence} (h : Layout Token.IsLeaf ts ss) :
    ∃ cs, List.Forall₂ (fun s c => s.clause? = some c) ss cs := by
  have hlegal := h.isLegal
  clear h
  induction ss with
  | nil => exact ⟨[], .nil⟩
  | cons s ss ih =>
    obtain ⟨hs, hss⟩ := List.forall_mem_cons.1 hlegal
    obtain ⟨c, hc⟩ := Sentence.exists_clause? hs
    obtain ⟨cs, hcs⟩ := ih hss
    exact ⟨c :: cs, .cons hc hcs⟩

theorem Sentence.forall₂_inOrder {ss : List Sentence} {cs : List Clause}
    (h : List.Forall₂ (fun s c => s.clause? = some c) ss cs) :
    List.Forall₂ (fun s c => s.clause? = some c) (ss.filter (·.isHoisted) ++ ss.filter (!·.isHoisted)) (Clause.inOrder cs) := by
  have hfilter (f : Bool → Bool) : List.Forall₂ (fun s c => s.clause? = some c) (ss.filter (f ·.isHoisted))
      (cs.filter (f ·.isHoisted)) := by
    refine List.rel_filter ?_ h
    intro s c hc
    change f s.isHoisted = true ↔ f c.isHoisted = true
    rw [isHoisted_of_clause? hc]
  exact List.rel_append (hfilter id) (hfilter not)

theorem Program.forall₂_holds {p : Program} {ss : List Sentence} {cs : List Clause} {ids : List NodeId}
    (hsay : List.Forall₂ p.Says ss ids) (hcs : List.Forall₂ (fun s c => s.clause? = some c) ss cs) :
    List.Forall₂ p.Holds cs ids := by
  induction hsay generalizing cs with
  | nil =>
    cases hcs
    exact .nil
  | cons h _ ih =>
    cases hcs with
    | cons hc hcs => exact .cons (h.holds hc) (ih hcs)

/-- Nothing is reported of tokens that are laid out in sentences, and the statements hold the clauses of these. -/
theorem Workspace.holds_parse (file : String) (log : Log) {ts : List Token} {ss : List Sentence} {cs : List Clause}
    (h : Layout Token.IsLeaf ts ss) (hcs : List.Forall₂ (fun s c => s.clause? = some c) ss cs) :
    (parse file ts { log }).diagnostics = [] ∧
      List.Forall₂ (parse file ts { log }).program.Holds (Clause.inOrder cs) (parse file ts { log }).program.statements := by
  obtain ⟨log', hparse⟩ := exists_parse_eq log file ts
  obtain ⟨hquiet, hsay⟩ := Draft.read_of_layout h {}
  refine ⟨by rw [hparse]; exact hquiet, Program.forall₂_holds ?_ (Sentence.forall₂_inOrder hcs)⟩
  rw [statements_parse]
  refine Program.forall₂_hoisted ?_ h.isLegal
  rw [hparse]
  exact hsay

end Assembler
