import Assembler.Token.Lexer
import Assembler.Workspace
/-!
# Parsing

A list of tokens as a program. A statement takes up a line; a directive may go on over several with
its body. A line that is no statement is reported and left out, and reading goes on with the next
line. Directives and label declarations are put before all other statements.

A reader is given the tokens that are left, and gives back what it has not used.
-/

namespace Assembler

/-- The mnemonic of a comparison. -/
def compareMnemonic : String := "cmp"

/-- As many arguments as a directive may have. -/
def maxArguments : Nat := 255

def Token.isNewline (t : Token) : Bool := t.kind = .newline

namespace Workspace

/-- Reports an error in the program text. -/
def reject (w : Workspace) (cause : Cause) (location : Location) (context : Option String := none) :
    Workspace :=
  (w.tell ⟨.trace, .phase .parser, "Reporting diagnostic",
    [("kind", .text cause.name), ("line", .nat location.line), ("column", .nat location.column)]⟩).report
    { cause, location, context }

/-! ## Terms -/

/-- The node of the first name that stands for one, with a diagnostic for each token before it. -/
def firstBound (shared : Shared) : List Token → Session → Option NodeId × Session
  | [], s => (none, s)
  | t :: rest, s =>
    if t.kind = .identifier then
      match s.find? shared t.value with
      | some node => (some node, s)
      | none =>
        firstBound shared rest
          (s.report { cause := .unresolvedIdentifier, location := t.location, context := some t.value })
    else firstBound shared rest (s.report { cause := .expectedIdentifier, location := t.location })

/-- The tokens inside an interpolation, located in the text around it. -/
def tokensInside (t : Token) : List Token × List Event :=
  (Lexer.ofText t.location.file t.value.toList t.location.line (t.location.shifted 2).column).run

/-- The node that an interpolation stands for, found in a session of its own. -/
def interpolation (t : Token) (w : Workspace) : Option NodeId × Workspace :=
  let (child, shared) := w.session.child w.shared
  let (tokens, events) := tokensInside t
  let child :=
    if tokens.isEmpty then child.report { cause := .expectedIdentifier, location := t.location }
    else child
  let (found, child) := firstBound shared tokens child
  let (session, shared) := w.session.absorb child shared
  (found,
    { w with
      session, shared
      log := (w.log ++ events).push ⟨.debug, .phase .parser, "Evaluated interpolation",
        [("body", .plain t.value), ("resolved", .bool found.isSome)]⟩ })

/-- A node for a token, if there is a kind for it, and otherwise a report that the text is not legal. -/
def literal (t : Token) (kind : Option Node.Kind) (complaint : String) (w : Workspace) :
    Option NodeId × Workspace :=
  match kind with
  | some kind =>
    let (id, w) := w.push kind t.location
    (some id, w)
  | none => (none, w.reject .illegalExpression t.location (some complaint))

/-- A slot written by its index. -/
def slot (t : Token) (store : Store) (w : Workspace) : Option NodeId × Workspace :=
  w.literal t ((Text.uint32? t.value).map (.slot store)) (store.name ++ " index '" ++ t.value ++ "' out of range")

/-- The node of a term; every term is one token. -/
def term (t : Token) (w : Workspace) : Option NodeId × Workspace :=
  match t.kind with
  | .identifier => w.literal t (some (.identifier t.value none)) ""
  | .integer =>
    w.literal t ((Text.int64? t.value).map .integer) ("integer literal '" ++ t.value ++ "' out of range")
  | .string => w.literal t (some (.string t.value)) ""
  | .interpolation => w.interpolation t
  | .register => w.slot t .register
  | .localSlot => w.slot t .localSlot
  | .newline => (none, w.reject .unexpectedEol t.location)
  | _ => (none, w.reject .unexpectedToken t.location (some t.repr))

/-! ## Statements -/

/-- What a reader found, the tokens it did not use, and the workspace after it. -/
structure Reading (α : Type) where
  value : α
  rest : List Token
  workspace : Workspace

/-- The terms up to the end of the line, an opening brace, or a token that is no term, which is used up. -/
def arguments : List Token → Workspace → Reading (List NodeId)
  | [], w => ⟨[], [], w⟩
  | t :: rest, w =>
    if t.kind = .newline ∨ t.kind = .openBrace then ⟨[], t :: rest, w⟩
    else
      match w.term t with
      | (none, w) => ⟨[], rest, w⟩
      | (some id, w) =>
        let more := arguments rest w
        { more with value := id :: more.value }

/-- The body of a directive, after its opening brace: its text, what follows, and whether it was closed. -/
structure Body where
  text : String
  rest : List Token
  closed : Bool

/-- The tokens through the brace that pairs with one already read, at some depth of braces within. -/
def body (depth : Nat) : List Token → Body
  | [] => ⟨"", [], false⟩
  | t :: rest =>
    let andMore (more : Body) : Body := { more with text := t.repr ++ " " ++ more.text }
    match t.kind, depth with
    | .openBrace, depth => andMore (body (depth + 1) rest)
    | .closeBrace, 0 => ⟨"", rest, true⟩
    | .closeBrace, depth + 1 => andMore (body depth rest)
    | _, depth => andMore (body depth rest)

/-- The location of the last token, where the end of the text is reported. -/
def lastLocation (tokens : List Token) : Location :=
  ((tokens.getLast?).map (·.location)).getD {}

/-- Reports a directive that has more arguments than it may have. -/
def limitArguments (w : Workspace) (t : Token) (count : Nat) : Workspace :=
  if count > maxArguments then
    w.reject .illegalExpression t.location
      (some ("directive '." ++ t.value ++ "' has " ++ Text.decimal count ++ " arguments (max "
        ++ Text.decimal maxArguments ++ ")"))
  else w

/-- The body that follows if an opening brace comes next; without one nothing is left open. -/
def optionalBody (tokens : List Token) : Body :=
  match tokens with
  | next :: after => if next.kind = .openBrace then body 0 after else ⟨"", tokens, true⟩
  | [] => ⟨"", [], true⟩

/-- Reports a body that the text ends in. -/
def requireClosed (w : Workspace) (closed : Bool) (location : Location) : Workspace :=
  if closed then w else w.reject .expectedToken location (some Token.Kind.closeBrace.name)

/-- A directive: its arguments, then its body if it has one. -/
def directive (t : Token) (rest : List Token) (w : Workspace) : Reading (Option NodeId) :=
  let args := arguments rest w
  let count := args.value.length
  let body := optionalBody args.rest
  let w := (args.workspace.limitArguments t count).requireClosed body.closed (lastLocation (t :: rest))
  let w := w.tell ⟨.debug, .phase .parser, "Parsed directive",
    [("name", .plain t.value), ("args", .nat count)]⟩
  let (id, w) := w.push (.directive t.value args.value body.text) t.location
  ⟨some id, body.rest, w⟩

/-- A label declaration; the name is bound at once, in place of an earlier label of that name. -/
def label (t : Token) (rest : List Token) (w : Workspace) : Reading (Option NodeId) :=
  let (label, w) := w.push (.label t.value) t.location
  let (old, w) := w.bind t.value label
  let w := match old with
    | some previous => w.tell ⟨.debug, .phase .parser, "Label redeclared, last declaration wins",
        [("name", .plain t.value), ("previous", .plain (NodeId.text previous))]⟩
    | none => w
  let (id, w) := w.push (.labelDecl t.value label) t.location
  ⟨some id, rest, w⟩

/-- An operand of a statement; it must come before the end of the line. -/
def operand (statement rest : List Token) (w : Workspace) : Reading (Option NodeId) :=
  match rest with
  | [] => ⟨none, [], w.reject .unexpectedEof (lastLocation statement)⟩
  | t :: after =>
    if t.kind = .newline then ⟨none, rest, w.reject .unexpectedEol t.location⟩
    else
      let (id, w) := w.term t
      ⟨id, after, w⟩

/-- A statement that begins with a name: a jump, a comparison, or the name alone. -/
def command (t : Token) (rest : List Token) (w : Workspace) : Reading (Option NodeId) :=
  match Condition.ofMnemonic? t.value with
  | some condition =>
    let target := operand (t :: rest) rest w
    match target.value with
    | some target' =>
      let (id, w) := target.workspace.push (.jump condition target') t.location
      ⟨some id, target.rest, w⟩
    | none => target
  | none =>
    if t.value = compareMnemonic then
      let left := operand (t :: rest) rest w
      let right := operand (t :: rest) left.rest left.workspace
      match left.value, right.value with
      | some left', some right' =>
        let (id, w) := right.workspace.push (.compare left' right') t.location
        ⟨some id, right.rest, w⟩
      | _, _ => { right with value := none }
    else
      -- The name is read a second time, as a term, which is to go back to it in the stream.
      let w := w.tell ⟨.trace, .phase .parser, "Not a mnemonic, reading identifier",
        [("name", .plain t.value)]⟩
      let (id, w) := w.term t
      ⟨id, rest, w⟩

/-- The statement that begins with a token, if it is one. -/
def statement (t : Token) (rest : List Token) (w : Workspace) : Reading (Option NodeId) :=
  match t.kind with
  | .directive => directive t rest w
  | .label => label t rest w
  | .identifier => command t rest w
  | _ =>
    let (id, w) := w.term t
    ⟨id, rest, w⟩

/-- The tokens from the next end of line on. -/
def toNewline (tokens : List Token) : List Token := tokens.dropWhile (!·.isNewline)

/-- After a statement only the end of its line may follow; anything else on the line is reported once. -/
def endOfStatement (tokens : List Token) (w : Workspace) : List Token × Workspace :=
  match tokens with
  | [] => ([], w)
  | t :: rest =>
    if t.isNewline then (rest, w)
    else ((toNewline tokens).drop 1, w.reject .expectedEndOfStatement t.location)

/-! ## What a reader leaves is the end of what it was given -/

theorem arguments_rest_suffix (tokens : List Token) (w : Workspace) :
    (arguments tokens w).rest <:+ tokens := by
  fun_induction arguments tokens w with
  | case1 => exact List.suffix_rfl
  | case2 => exact List.suffix_rfl
  | case3 => exact List.suffix_cons ..
  | case4 _ _ _ _ _ _ _ _ ih => exact ih.trans (List.suffix_cons ..)

theorem body_rest_suffix (depth : Nat) (tokens : List Token) : (body depth tokens).rest <:+ tokens := by
  fun_induction body depth tokens with
  | case1 => exact List.suffix_rfl
  | case3 => exact List.suffix_cons ..
  | case2 _ _ _ _ _ ih => exact ih.trans (List.suffix_cons ..)
  | case4 _ _ _ _ _ ih => exact ih.trans (List.suffix_cons ..)
  | case5 _ _ _ _ _ _ _ ih => exact ih.trans (List.suffix_cons ..)

theorem optionalBody_rest_suffix (tokens : List Token) : (optionalBody tokens).rest <:+ tokens := by
  unfold optionalBody
  split
  · split
    · exact (body_rest_suffix ..).trans (List.suffix_cons ..)
    · exact List.suffix_rfl
  · exact List.suffix_rfl

theorem directive_rest_suffix (t : Token) (rest : List Token) (w : Workspace) :
    (directive t rest w).rest <:+ rest :=
  (optionalBody_rest_suffix _).trans (arguments_rest_suffix rest w)

theorem operand_rest_suffix (statement rest : List Token) (w : Workspace) :
    (operand statement rest w).rest <:+ rest := by
  unfold operand
  split
  · exact List.suffix_rfl
  · split
    · exact List.suffix_rfl
    · exact List.suffix_cons ..

theorem command_rest_suffix (t : Token) (rest : List Token) (w : Workspace) :
    (command t rest w).rest <:+ rest := by
  unfold command
  dsimp only
  split
  · split <;> exact operand_rest_suffix ..
  · split
    · split <;> exact (operand_rest_suffix ..).trans (operand_rest_suffix ..)
    · exact List.suffix_rfl

theorem statement_rest_suffix (t : Token) (rest : List Token) (w : Workspace) :
    (statement t rest w).rest <:+ rest := by
  unfold statement
  split
  · exact directive_rest_suffix ..
  · exact List.suffix_rfl
  · exact command_rest_suffix ..
  · exact List.suffix_rfl

theorem endOfStatement_suffix (tokens : List Token) (w : Workspace) :
    (endOfStatement tokens w).1 <:+ tokens := by
  unfold endOfStatement
  split
  · exact List.suffix_rfl
  · split
    · exact List.suffix_cons ..
    · exact (List.drop_suffix ..).trans (List.dropWhile_suffix _)

end Workspace

/-! ## Programs -/

/-- A workspace while its program is read: the statements so far, those to be put first apart from the others. -/
structure Draft extends Workspace where
  hoisted : Array NodeId := #[]
  others : Array NodeId := #[]
  deriving DecidableEq, Repr, Inhabited

namespace Draft

def add (d : Draft) (id : NodeId) : Draft :=
  if (d.program.kind? id).any (·.isHoisted) then { d with hoisted := d.hoisted.push id }
  else { d with others := d.others.push id }

@[simp] theorem add_toWorkspace (d : Draft) (id : NodeId) : (d.add id).toWorkspace = d.toWorkspace := by
  unfold add
  split <;> rfl

/-- Reads the line that begins with a token, and gives the tokens of the lines after it. -/
def readLine (t : Token) (rest : List Token) (d : Draft) : List Token × Draft :=
  let s := Workspace.statement t rest d.toWorkspace
  match s.value with
  -- The first token is among what was read and no end of a line is, so that only the rest of the line is left to skip.
  | none => (Workspace.toNewline s.rest, { d with toWorkspace := s.workspace })
  | some id =>
    let w := s.workspace.tell ⟨.trace, .phase .parser, "Parsed statement",
      [("statement", .plain (s.workspace.program.text id))]⟩
    let d := { d with toWorkspace := w }.add id
    let (rest, w) := Workspace.endOfStatement s.rest d.toWorkspace
    (rest, { d with toWorkspace := w })

theorem readLine_suffix (t : Token) (rest : List Token) (d : Draft) : (readLine t rest d).1 <:+ rest := by
  have h := Workspace.statement_rest_suffix t rest d.toWorkspace
  unfold readLine
  dsimp only
  split
  · exact (List.dropWhile_suffix _).trans h
  · exact (Workspace.endOfStatement_suffix ..).trans h

/-- Reads all lines. -/
def read (tokens : List Token) (d : Draft) : Draft :=
  match tokens with
  | [] => d
  | t :: rest =>
    if t.isNewline then read rest d
    else read (readLine t rest d).1 (readLine t rest d).2
termination_by tokens.length
decreasing_by
  · simp
  · exact Nat.lt_succ_of_le (readLine_suffix t rest d).length_le

/-- The workspace of a program that has been read to its end. -/
def finish (d : Draft) : Workspace :=
  let w := d.toWorkspace.tell ⟨.debug, .phase .parser, "Parsing finished",
    [("hoisted", .nat d.hoisted.size), ("statements", .nat d.others.size),
      ("diagnostics", .nat d.diagnostics.length)]⟩
  { w with program := { w.program with statements := d.hoisted.toList ++ d.others.toList } }

end Draft

/-- The program that a list of tokens makes, in a workspace of its own. -/
def Workspace.parse (file : String) (tokens : List Token) (w : Workspace := {}) : Workspace :=
  let w := w.tell ⟨.debug, .phase .parser, "Parsing started",
    [("file", .plain file), ("tokens", .nat tokens.length)]⟩
  (Draft.read tokens { toWorkspace := w }).finish

end Assembler
