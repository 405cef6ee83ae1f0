import Mathlib.Data.List.Forall2
import Assembler.Proofs.Spelling
import Assembler.Proofs.Stages
/-!
# The grammar of programs

A program is laid out in sentences, each on a line of its own or on several if it has a body
(`Layout`). What stands in no body is what the sentences are made of, one after the other
(`Layout.outside_eq`). A statement of a program may say what a sentence says (`Program.Says`).
-/

namespace Assembler

/-! ## Sentences -/

namespace Token

/-- What a token is as a term, if that hangs on nothing else. -/
def leaf? (t : Token) : Option Node.Kind :=
  match t.kind with
  | .identifier => some (.identifier t.value none)
  | .string => some (.string t.value)
  | .integer => (Text.int64? t.value).map .integer
  | .register => (Text.uint32? t.value).map (.slot .register)
  | .localSlot => (Text.uint32? t.value).map (.slot .localSlot)
  | _ => none

theorem isLeaf_of_leaf? {t : Token} {k : Node.Kind} (h : t.leaf? = some k) : k.IsLeaf := by
  unfold leaf? at h
  split at h
  · cases h
    exact .identifier _
  · cases h
    exact .string _
  · obtain ⟨_, -, rfl⟩ := Option.map_eq_some_iff.1 h
    exact .integer _
  · obtain ⟨_, -, rfl⟩ := Option.map_eq_some_iff.1 h
    exact .register _
  · obtain ⟨_, -, rfl⟩ := Option.map_eq_some_iff.1 h
    exact .localSlot _
  · cases h

/-- A name, a string, or a number that is in range. -/
def IsLeaf (t : Token) : Prop := t.leaf?.isSome

theorem IsLeaf.kind_mem {t : Token} (h : t.IsLeaf) :
    t.kind ∈ [Kind.identifier, .string, .integer, .register, .localSlot] := by
  unfold IsLeaf leaf? at h
  split at h <;> simp_all

/-- What can be a term; of an interpolation it hangs on the names that are bound. -/
def IsTerm (t : Token) : Prop := t.IsLeaf ∨ t.kind = .interpolation

theorem IsTerm.kind_mem {t : Token} (h : t.IsTerm) :
    t.kind ∈ [Kind.identifier, .string, .integer, .register, .localSlot, .interpolation] := by
  rcases h with h | h
  · exact List.mem_append_left [.interpolation] h.kind_mem
  · simp [h]

theorem IsTerm.kind_ne {t : Token} (h : t.IsTerm) {kind : Kind}
    (hkind : kind ∉ [Kind.identifier, .string, .integer, .register, .localSlot, .interpolation]) : t.kind ≠ kind :=
  fun hk => hkind (hk ▸ h.kind_mem)

theorem IsLeaf.isTerm {t : Token} (h : t.IsLeaf) : t.IsTerm := .inl h

/-- A name that begins a jump or a comparison. -/
def IsMnemonic (t : Token) : Prop :=
  t.kind = .identifier ∧ ((∃ condition : Condition, t.value = condition.mnemonic) ∨ t.value = compareMnemonic)

/-- Tokens as a body has them, each with a blank after it. -/
def spelling : List Token → String
  | [] => ""
  | t :: rest => t.repr ++ " " ++ spelling rest

end Token

/-- A body with the braces around it. -/
structure Braced where
  opening : Token
  inside : List Token
  closing : Token
  deriving DecidableEq, Repr

namespace Braced

def tokens (b : Braced) : List Token := b.opening :: (b.inside ++ [b.closing])

/-- Whether the braces among some tokens are paired. -/
def isNested (depth : Nat) (tokens : List Token) : Bool :=
  isPaired (·.kind = .openBrace) (·.kind = .closeBrace) depth tokens

structure IsLegal (b : Braced) : Prop where
  opening : b.opening.kind = .openBrace
  inside : isNested 0 b.inside
  closing : b.closing.kind = .closeBrace

end Braced

/-- What a line says. -/
inductive Sentence
  | label (name : Token)
  | directive (name : Token) (terms : List Token) (body : Option Braced)
  | jump (condition : Condition) (mnemonic target : Token)
  | compare (mnemonic left right : Token)
  | bare (term : Token)
  deriving DecidableEq, Repr

namespace Sentence

def tokens : Sentence → List Token
  | label name => [name]
  | directive name terms body => name :: (terms ++ (body.map Braced.tokens).getD [])
  | jump _ mnemonic target => [mnemonic, target]
  | compare mnemonic left right => [mnemonic, left, right]
  | bare term => [term]

/-- The tokens of a sentence that are terms. -/
def terms : Sentence → List Token
  | label _ => []
  | directive _ terms _ => terms
  | jump _ _ target => [target]
  | compare _ left right => [left, right]
  | bare term => [term]

/-- The tokens of a sentence without those in its body. -/
def ownTokens : Sentence → List Token
  | directive name terms (some body) => name :: (terms ++ [body.opening, body.closing])
  | s => s.tokens

def IsLegal (IsTerm : Token → Prop) : Sentence → Prop
  | label name => name.kind = .label
  | directive name terms body =>
    name.kind = .directive ∧ (∀ t ∈ terms, IsTerm t) ∧ terms.length ≤ maxArguments ∧ ∀ b ∈ body, b.IsLegal
  | jump condition mnemonic target =>
    mnemonic.kind = .identifier ∧ mnemonic.value = condition.mnemonic ∧ IsTerm target
  | compare mnemonic left right =>
    mnemonic.kind = .identifier ∧ mnemonic.value = compareMnemonic ∧ IsTerm left ∧ IsTerm right
  | bare term => IsTerm term ∧ ¬ term.IsMnemonic

def isHoisted : Sentence → Bool
  | label _ | directive .. => true
  | _ => false

/-- The text of a body as it is kept. -/
def bodyText (body : Option Braced) : String := (body.map fun b => Token.spelling b.inside).getD ""

end Sentence

/-- Tokens that are at their end or go on with the end of a line. -/
def EndsLine (tokens : List Token) : Prop := ∀ t ∈ tokens.head?, t.isNewline

/-- Tokens as sentences, each up to the end of its line, with as many line ends between them as there may be. -/
inductive Layout (IsTerm : Token → Prop) : List Token → List Sentence → Prop
  | nil : Layout IsTerm [] []
  | newline {t : Token} {rest : List Token} {ss : List Sentence} (ht : t.isNewline) (h : Layout IsTerm rest ss) :
      Layout IsTerm (t :: rest) ss
  | sentence {s : Sentence} {rest : List Token} {ss : List Sentence} (hs : s.IsLegal IsTerm) (hend : EndsLine rest)
      (h : Layout IsTerm rest ss) : Layout IsTerm (s.tokens ++ rest) (s :: ss)

theorem Layout.of_drop {IsTerm : Token → Prop} {tokens : List Token} {ss : List Sentence} (hend : EndsLine tokens)
    (h : Layout IsTerm (tokens.drop 1) ss) : Layout IsTerm tokens ss := by
  cases tokens with
  | nil => exact h
  | cons t rest => exact .newline (hend t rfl) h

/-! ## Tokens in no body -/

/-- Where a token stands: at the head of a line, on a line that begins with a directive or another, or in a body. -/
inductive Zone
  | head | directive | other
  | body (depth : Nat)

namespace Zone

def isBody : Zone → Bool
  | body _ => true
  | _ => false

/-- Where the next token stands. The first opening brace after a directive opens a body. -/
def next : Zone → Token.Kind → Zone
  | body depth, .openBrace => body (depth + 1)
  | body 0, .closeBrace => other
  | body (depth + 1), .closeBrace => body depth
  | body depth, _ => body depth
  | _, .newline => head
  | head, .directive => directive
  | directive, .openBrace => body 0
  | directive, _ => directive
  | _, _ => other

end Zone

/-- The tokens that stand in no body; the braces around a body do not stand in it. -/
def outside (z : Zone) : List Token → List Token
  | [] => []
  | t :: rest =>
    if z.isBody && (z.next t.kind).isBody then outside (z.next t.kind) rest
    else t :: outside (z.next t.kind) rest

theorem outside_subset (z : Zone) (tokens : List Token) : outside z tokens ⊆ tokens := by
  induction tokens generalizing z with
  | nil => exact List.Subset.refl _
  | cons t rest ih =>
    rw [outside]
    split
    · exact List.subset_cons_of_subset t (ih _)
    · exact List.cons_subset_cons t (ih _)

/-- A term on a line that has begun leaves its zone; at the head of a line it begins one without a directive. -/
theorem Token.IsTerm.next_eq {t : Token} (h : t.IsTerm) :
    Zone.directive.next t.kind = .directive ∧ Zone.other.next t.kind = .other ∧ Zone.head.next t.kind = .other := by
  have hkind := h.kind_mem
  cases hk : t.kind <;> simp_all [Zone.next]

theorem outside_terms {z : Zone} {terms : List Token} (rest : List Token) (hz : z = .directive ∨ z = .other)
    (hterms : ∀ t ∈ terms, t.IsTerm) : outside z (terms ++ rest) = terms ++ outside z rest := by
  induction terms with
  | nil => rfl
  | cons t terms ih =>
    obtain ⟨ht, hterms⟩ := List.forall_mem_cons.1 hterms
    obtain ⟨hdirective, hother, -⟩ := ht.next_eq
    have hnext : z.next t.kind = z ∧ z.isBody = false := by
      rcases hz with rfl | rfl
      · exact ⟨hdirective, rfl⟩
      · exact ⟨hother, rfl⟩
    rw [List.cons_append, outside, hnext.1, hnext.2]
    simpa using ih hterms

theorem outside_inside {depth : Nat} {inside : List Token} (h : Braced.isNested depth inside) {closing : Token}
    (hclosing : closing.kind = .closeBrace) (rest : List Token) :
    outside (.body depth) (inside ++ closing :: rest) = closing :: outside .other rest := by
  unfold Braced.isNested at h
  fun_induction isPaired (fun t : Token => t.kind = .openBrace) (fun t => t.kind = .closeBrace) depth inside with
  | case1 depth =>
    obtain rfl : depth = 0 := by simpa using h
    simp [outside, hclosing, Zone.next, Zone.isBody]
  | case2 depth t inside ho ih => simp_all [outside, Zone.next, Zone.isBody]
  | case3 t inside ho hc => cases h
  | case4 t inside ho hc depth ih => simp_all [outside, Zone.next, Zone.isBody]
  | case5 depth t inside ho hc ih =>
    have hnext : (Zone.body depth).next t.kind = .body depth := by
      cases hk : t.kind <;> simp_all [Zone.next]
    simp_all [outside, Zone.isBody]

theorem outside_of_endsLine {z : Zone} {rest : List Token} (hz : z = .directive ∨ z = .other) (hend : EndsLine rest) :
    outside z rest = outside .head rest := by
  cases rest with
  | nil => rfl
  | cons t rest =>
    have hk : t.kind = .newline := by simpa [Token.isNewline] using hend t rfl
    rcases hz with rfl | rfl <;> simp [outside, hk, Zone.next, Zone.isBody]

/-- A token at the head of a line stands in no body. -/
theorem outside_head (t : Token) (rest : List Token) : outside .head (t :: rest) = t :: outside (Zone.head.next t.kind) rest := by
  simp [outside, Zone.isBody]

theorem outside_sentence {s : Sentence} (hs : s.IsLegal Token.IsTerm) {rest : List Token} (hend : EndsLine rest) :
    outside .head (s.tokens ++ rest) = s.ownTokens ++ outside .head rest := by
  cases s with
  | label name =>
    have hk : name.kind = .label := hs
    simp [Sentence.tokens, Sentence.ownTokens, outside_head, hk, Zone.next, outside_of_endsLine (.inr rfl) hend]
  | directive name terms body =>
    obtain ⟨hk, hterms, -, hbody⟩ := hs
    rw [Sentence.tokens, List.cons_append, List.append_assoc, outside_head, hk]
    change name :: outside .directive _ = _
    rw [outside_terms _ (.inl rfl) hterms]
    cases body with
    | none => simp [Sentence.ownTokens, Sentence.tokens, outside_of_endsLine (.inl rfl) hend]
    | some b =>
      obtain ⟨hopening, hinside, hclosing⟩ := hbody b rfl
      simp [Sentence.ownTokens, Braced.tokens, outside, hopening, Zone.next, Zone.isBody,
        outside_inside hinside hclosing, outside_of_endsLine (.inr rfl) hend]
  | jump condition mnemonic target =>
    obtain ⟨hk, -, htarget⟩ := hs
    have hterms := outside_terms rest (.inr rfl) (List.forall_mem_singleton.2 htarget)
    simp_all [Sentence.tokens, Sentence.ownTokens, outside_head, Zone.next, outside_of_endsLine (.inr rfl) hend]
  | compare mnemonic left right =>
    obtain ⟨hk, -, hleft, hright⟩ := hs
    have hterms := @outside_terms .other [left, right] rest (.inr rfl) (by simp [hleft, hright])
    simp_all [Sentence.tokens, Sentence.ownTokens, outside_head, Zone.next, outside_of_endsLine (.inr rfl) hend]
  | bare term =>
    obtain ⟨-, -, hnext⟩ := hs.1.next_eq
    simp [Sentence.tokens, Sentence.ownTokens, outside_head, hnext, outside_of_endsLine (.inr rfl) hend]

theorem Sentence.not_isNewline_of_mem {s : Sentence} (hs : s.IsLegal Token.IsTerm) :
    ∀ t ∈ s.ownTokens, t.isNewline = false := by
  have hkind {u : Token} {kind : Token.Kind} (hu : u.kind = kind) (hne : kind ≠ .newline) : u.isNewline = false := by
    simpa [Token.isNewline, hu] using hne
  have hterm {u : Token} (hu : u.IsTerm) : u.isNewline = false := hkind rfl (hu.kind_ne (by decide))
  cases s with
  | label name => simpa [ownTokens, tokens] using hkind hs (by decide)
  | directive name terms body =>
    obtain ⟨hk, hterms, -, hbody⟩ := hs
    have hname := hkind hk (by decide)
    have hterms' : ∀ t ∈ terms, t.isNewline = false := fun t ht => hterm (hterms t ht)
    cases body with
    | none => simpa [ownTokens, tokens, hname] using hterms'
    | some b =>
      have hopening := hkind (hbody b rfl).opening (by decide)
      have hclosing := hkind (hbody b rfl).closing (by decide)
      simpa [ownTokens, hname, hopening, hclosing, or_imp, forall_and] using hterms'
  | jump condition mnemonic target =>
    obtain ⟨hk, -, htarget⟩ := hs
    simp [ownTokens, tokens, hkind hk (by decide), hterm htarget]
  | compare mnemonic left right =>
    obtain ⟨hk, -, hleft, hright⟩ := hs
    simp [ownTokens, tokens, hkind hk (by decide), hterm hleft, hterm hright]
  | bare term => simpa [ownTokens, tokens] using hterm hs.1

theorem Sentence.IsLegal.forall_terms {IsTerm : Token → Prop} {s : Sentence} (hs : s.IsLegal IsTerm) :
    ∀ t ∈ s.terms, IsTerm t := by
  cases s with
  | label name => simp [terms]
  | directive name terms body => exact hs.2.1
  | jump condition mnemonic target => simpa [terms] using hs.2.2
  | compare mnemonic left right => simpa [terms] using hs.2.2
  | bare term => simpa [terms] using hs.1

/-- Legal with one kind of terms, a sentence is legal with another that all its own tokens allow. -/
theorem Sentence.IsLegal.imp {P Q : Token → Prop} {s : Sentence} (hs : s.IsLegal P) (h : ∀ t ∈ s.ownTokens, P t → Q t) :
    s.IsLegal Q := by
  cases s with
  | label name => exact hs
  | directive name terms body =>
    obtain ⟨hk, hterms, hcount, hbody⟩ := hs
    refine ⟨hk, fun t ht => h t ?_ (hterms t ht), hcount, hbody⟩
    cases body <;> simp [ownTokens, tokens, ht]
  | jump condition mnemonic target =>
    obtain ⟨hk, hv, htarget⟩ := hs
    exact ⟨hk, hv, h target (by simp [ownTokens, tokens]) htarget⟩
  | compare mnemonic left right =>
    obtain ⟨hk, hv, hleft, hright⟩ := hs
    exact ⟨hk, hv, h left (by simp [ownTokens, tokens]) hleft, h right (by simp [ownTokens, tokens]) hright⟩
  | bare term => exact ⟨h term (by simp [ownTokens, tokens]) hs.1, hs.2⟩

theorem Layout.imp {P Q : Token → Prop} {tokens : List Token} {ss : List Sentence} (h : Layout P tokens ss)
    (hPQ : ∀ s ∈ ss, ∀ t ∈ s.ownTokens, P t → Q t) : Layout Q tokens ss := by
  induction h with
  | nil => exact .nil
  | newline ht _ ih => exact .newline ht (ih hPQ)
  | sentence hs hend _ ih =>
    obtain ⟨hfirst, hrest⟩ := List.forall_mem_cons.1 hPQ
    exact .sentence (hs.imp hfirst) hend (ih hrest)

/-- The tokens that stand in no body are those of the sentences and the line ends between them. -/
theorem Layout.outside_eq {tokens : List Token} {ss : List Sentence} (h : Layout Token.IsTerm tokens ss) :
    (outside .head tokens).filter (!·.isNewline) = ss.flatMap Sentence.ownTokens := by
  induction h with
  | nil => rfl
  | @newline t rest ss ht h ih =>
    have hk : t.kind = .newline := by simpa [Token.isNewline] using ht
    rw [outside_head, hk, List.filter_cons_of_neg (by simp [ht])]
    exact ih
  | @sentence s rest ss hs hend h ih =>
    rw [outside_sentence hs hend, List.filter_append, ih, List.flatMap_cons]
    congr 1
    rw [List.filter_eq_self]
    intro t ht
    simp [s.not_isNewline_of_mem hs t ht]

theorem Layout.mem_outside {tokens : List Token} {ss : List Sentence} (h : Layout Token.IsTerm tokens ss) :
    ∀ s ∈ ss, ∀ t ∈ s.ownTokens, t ∈ outside .head tokens := by
  intro s hs t ht
  have hmem : t ∈ (outside .head tokens).filter (!·.isNewline) := by
    rw [h.outside_eq]
    exact List.mem_flatMap.2 ⟨s, hs, ht⟩
  exact (List.mem_filter.1 hmem).1

/-- Without interpolations outside bodies all terms are leaves. -/
theorem Layout.isLeaf {tokens : List Token} {ss : List Sentence} (h : Layout Token.IsTerm tokens ss)
    (hinterpolation : ∀ t ∈ outside .head tokens, t.kind ≠ .interpolation) : Layout Token.IsLeaf tokens ss :=
  h.imp fun s hs t ht hterm => hterm.resolve_right (hinterpolation t (h.mem_outside s hs t ht))

/-! ## What statements say -/

namespace Program

/-- The node of a term, where the token says what it is. -/
def IsTerm (p : Program) (t : Token) (id : NodeId) : Prop :=
  ∀ kind ∈ t.leaf?, p.node? id = some { kind, location := t.location }

theorem IsTerm.isOperand {p : Program} {t : Token} {id : NodeId} (h : p.IsTerm t id) (ht : t.IsLeaf) : p.IsOperand id := by
  obtain ⟨k, hk⟩ := Option.isSome_iff_exists.1 ht
  refine ⟨k, kind?_eq_some.2 ⟨_, h k hk, rfl⟩, ?_⟩
  cases Token.isLeaf_of_leaf? hk <;> rfl

/-- A statement that says what a sentence says. -/
def Says (p : Program) (s : Sentence) (id : NodeId) : Prop :=
  match s with
  | .label name =>
    ∃ label, p.node? label = some { kind := .label name.value, location := name.location } ∧
      p.node? id = some { kind := .labelDecl name.value label, location := name.location }
  | .directive name terms body =>
    ∃ arguments, List.Forall₂ p.IsTerm terms arguments ∧
      p.node? id = some { kind := .directive name.value arguments (Sentence.bodyText body), location := name.location }
  | .jump condition mnemonic target =>
    ∃ a, p.IsTerm target a ∧ p.node? id = some { kind := .jump condition a, location := mnemonic.location }
  | .compare mnemonic left right =>
    ∃ a b, p.IsTerm left a ∧ p.IsTerm right b ∧
      p.node? id = some { kind := .compare a b, location := mnemonic.location }
  | .bare term => p.IsTerm term id

/-- The terms of a sentence are in some relation to the nodes of the terms of a statement. -/
def Relates (p : Program) (N : Token → NodeId → Prop) (s : Sentence) (id : NodeId) : Prop :=
  match s with
  | .label _ => True
  | .directive _ terms _ =>
    ∃ name arguments body, p.kind? id = some (.directive name arguments body) ∧ List.Forall₂ N terms arguments
  | .jump _ _ target => ∃ condition a, p.kind? id = some (.jump condition a) ∧ N target a
  | .compare _ left right => ∃ a b, p.kind? id = some (.compare a b) ∧ N left a ∧ N right b
  | .bare term => N term id

theorem Extends.isTerm {p q : Program} (h : p.Extends q) {t : Token} {id : NodeId} (ht : p.IsTerm t id) :
    q.IsTerm t id :=
  fun kind hkind => h.node? (ht kind hkind)

theorem Says.extends {p q : Program} {s : Sentence} {id : NodeId} (hs : p.Says s id) (h : p.Extends q) : q.Says s id := by
  cases s with
  | label name =>
    obtain ⟨label, hlabel, hid⟩ := hs
    exact ⟨label, h.node? hlabel, h.node? hid⟩
  | directive name terms body =>
    obtain ⟨arguments, harguments, hid⟩ := hs
    exact ⟨arguments, harguments.imp fun _ _ => h.isTerm, h.node? hid⟩
  | jump condition mnemonic target =>
    obtain ⟨a, ha, hid⟩ := hs
    exact ⟨a, h.isTerm ha, h.node? hid⟩
  | compare mnemonic left right =>
    obtain ⟨a, b, ha, hb, hid⟩ := hs
    exact ⟨a, b, h.isTerm ha, h.isTerm hb, h.node? hid⟩
  | bare term => exact h.isTerm hs

theorem Relates.extends {p q : Program} {N : Token → NodeId → Prop} {s : Sentence} {id : NodeId} (hs : p.Relates N s id)
    (h : p.Extends q) : q.Relates N s id := by
  cases s with
  | label name => trivial
  | directive name terms body =>
    obtain ⟨name', arguments, body', hid, hterms⟩ := hs
    exact ⟨name', arguments, body', h.kind? hid, hterms⟩
  | jump condition mnemonic target =>
    obtain ⟨condition', a, hid, ha⟩ := hs
    exact ⟨condition', a, h.kind? hid, ha⟩
  | compare mnemonic left right =>
    obtain ⟨a, b, hid, ha, hb⟩ := hs
    exact ⟨a, b, h.kind? hid, ha, hb⟩
  | bare term => exact hs

end Program

end Assembler
