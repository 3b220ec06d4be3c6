import ImpSyntax.Parser.Program

/-!
# Reading by rules that call one another

A second way to read a text: one rule for every construct, and a rule calls the rules of the
constructs inside its own. A rule is given a cursor, which has one token ahead, and comes to a
result or a report; either way it leaves a cursor behind.

The calls are bounded by a number that goes down with every call by which a rule can come back to
itself. All of these are made behind a token that was taken, so that a number greater than that of
the tokens is never used up.

Main results:

* `Descent.Cursor.left_advance` — taking a token leaves one token less.
* `Descent.synchronize` — where reading goes on behind a failure; it ends because of that.
* `Descent.run` — what the rules make of the items of a text.
-/

namespace ImpSyntax

open Precedence

/-- How many tokens there are in front of the end. -/
def Item.countTokens : List Item → Nat
  | [] => 0
  | .fault .. :: items => countTokens items
  | .token t :: items => if t.kind = .eof then 0 else countTokens items + 1

namespace Descent

/-! ## The cursor -/

/-- Where a rule stands: the token ahead, the items behind it, how many tokens were taken, how many
faults were reported, whether a lexical one came up since a statement began, the nesting, and the
reports, with the last one first. No rule looks at the last three fields: they keep the places at
which statements were begun, what went wrong, and the values that the nesting has had. Places are
counted in tokens. -/
structure Cursor where
  ahead : Token
  items : List Item
  taken : Nat
  errors : Nat
  pending : Bool
  depth : Nat
  reports : List Report
  starts : List Nat
  incidents : List Incident
  levels : List Nat
deriving DecidableEq, Repr

namespace Cursor

/-- A fault is reported, and counted. -/
def emit (c : Cursor) (r : Report) : Cursor :=
  { c with errors := c.errors + 1, reports := r :: c.reports }

/-- A lexical fault is met, and reported. -/
def meet (c : Cursor) (fault : LexicalFault) (pos : Position) : Cursor :=
  { c.emit ⟨.lexical fault, pos⟩ with
    pending := true
    incidents := .lexical fault pos :: c.incidents }

/-- The cursor at the first token among `items`, with the faults in front of that token reported.
The end is ahead where there is no token. -/
def pull (c : Cursor) : List Item → Cursor
  | [] => { c with ahead := .eof c.ahead.pos, items := [] }
  | .token t :: items => { c with ahead := t, items }
  | .fault fault pos :: items => (c.meet fault pos).pull items

/-- The cursor of which nothing is known but that it is at `pos`. -/
def blank (pos : Position) : Cursor :=
  { ahead := .eof pos, items := [], taken := 0, errors := 0, pending := false, depth := 0,
    reports := [], starts := [], incidents := [], levels := [] }

/-- The cursor in front of the items. -/
def ofItems (items : List Item) : Cursor := (blank .start).pull items

/-- The token ahead is taken; the end stays ahead. -/
def advance (c : Cursor) : Cursor :=
  if c.ahead.kind = .eof then c else { c with taken := c.taken + 1 }.pull c.items

/-- How many tokens can still be taken. -/
def left (c : Cursor) : Nat := if c.ahead.kind = .eof then 0 else Item.countTokens c.items + 1

/-- The nesting gets another value. -/
def atLevel (c : Cursor) (depth : Nat) : Cursor := { c with depth, levels := depth :: c.levels }

/-- One level further out; nothing lies outside of level zero. -/
def lower (c : Cursor) : Option Cursor :=
  if c.depth = 0 then none else some (c.atLevel (c.depth - 1))

/-- A statement begins. -/
def begin (c : Cursor) : Cursor := { c with pending := false, starts := c.taken :: c.starts }

/-- A failure is reported, unless a lexical fault came up since the statement began. -/
def report (c : Cursor) (r : Report) : Cursor := if c.pending then c else c.emit r

/-- What went wrong if the statement that began at the place `first` fails here with the report. -/
def incident (c : Cursor) (first : Nat) (r : Report) : Incident :=
  match r.fault with
  | .lexical reason => .lexical reason r.pos
  | .syntactic fault => .failure ⟨first, c.taken, c.ahead, fault, !c.pending⟩

/-- The statement that began at the place `first` fails with the report. -/
def fails (c : Cursor) (first : Nat) (r : Report) : Cursor :=
  { c.report r with incidents := c.incident first r :: c.incidents }

/-- The search for the next token changes nothing but what is ahead and what went wrong. -/
theorem pull_keeps (c : Cursor) (items : List Item) :
    (c.pull items).taken = c.taken ∧ (c.pull items).depth = c.depth ∧
      (c.pull items).starts = c.starts ∧ (c.pull items).levels = c.levels := by
  induction items generalizing c with
  | nil => exact ⟨rfl, rfl, rfl, rfl⟩
  | cons item items ih =>
    cases item with
    | token t => exact ⟨rfl, rfl, rfl, rfl⟩
    | fault fault pos => exact ih (c.meet fault pos)

theorem left_pull (c : Cursor) (items : List Item) : (c.pull items).left = Item.countTokens items := by
  induction items generalizing c with
  | nil => rfl
  | cons item items ih =>
    cases item with
    | token t => rfl
    | fault fault pos => exact ih _

theorem left_advance {c : Cursor} (h : c.ahead.kind ≠ .eof) : c.advance.left + 1 = c.left := by
  rw [advance, if_neg h, left_pull, left, if_neg h]

theorem taken_advance {c : Cursor} (h : c.ahead.kind ≠ .eof) : c.advance.taken = c.taken + 1 := by
  rw [advance, if_neg h]
  exact (pull_keeps { c with taken := c.taken + 1 } c.items).1

/-- Taking a token begins no statement and leaves the nesting as it is. -/
theorem advance_keeps (c : Cursor) :
    c.advance.depth = c.depth ∧ c.advance.starts = c.starts ∧ c.advance.levels = c.levels := by
  unfold advance
  split
  · exact ⟨rfl, rfl, rfl⟩
  · exact (pull_keeps { c with taken := c.taken + 1 } c.items).2

@[simp] theorem depth_advance (c : Cursor) : c.advance.depth = c.depth := c.advance_keeps.1

@[simp] theorem starts_advance (c : Cursor) : c.advance.starts = c.starts := c.advance_keeps.2.1

@[simp] theorem levels_advance (c : Cursor) : c.advance.levels = c.levels := c.advance_keeps.2.2

theorem left_pos {c : Cursor} (h : c.ahead.kind ≠ .eof) : 0 < c.left := by
  rw [left, if_neg h]
  exact Nat.succ_pos _

theorem left_eq_zero {c : Cursor} (h : c.ahead.kind = .eof) : c.left = 0 := if_pos h

/-! ## The count of the reports -/

/-- The faults that were reported are counted. -/
def Counted (c : Cursor) : Prop := c.errors = c.reports.length

theorem Counted.emit {c : Cursor} (h : c.Counted) (r : Report) : (c.emit r).Counted :=
  congrArg Nat.succ h

theorem Counted.pull {c : Cursor} (h : c.Counted) (items : List Item) : (c.pull items).Counted := by
  induction items generalizing c with
  | nil => exact h
  | cons item items ih =>
    cases item with
    | token t => exact h
    | fault fault pos =>
      have met : (c.meet fault pos).Counted := h.emit ⟨.lexical fault, pos⟩
      exact ih met

theorem Counted.advance {c : Cursor} (h : c.Counted) : c.advance.Counted := by
  unfold Cursor.advance
  split
  · exact h
  · have took : { c with taken := c.taken + 1 }.Counted := h
    exact took.pull c.items

theorem Counted.fails {c : Cursor} (h : c.Counted) (first : Nat) (r : Report) :
    (c.fails first r).Counted := by
  have reported : (c.report r).Counted := by
    unfold report
    split
    · exact h
    · exact h.emit r
  exact reported

end Cursor

/-! ## Rules -/

/-- A rule comes to a result or a report, and leaves a cursor behind. It is cut short, and comes to
nothing, where no call is left to it or the nesting would fall below zero. -/
abbrev Rule (α : Type) : Type := ExceptT Report (StateT Cursor Option) α

variable {α β : Type}

/-- A rule goes on behind a result, and stops at a report. -/
theorem bind_apply (x : Rule α) (f : α → Rule β) (c : Cursor) :
    (x >>= f) c = match x c with
      | none => none
      | some (.ok a, c') => f a c'
      | some (.error r, c') => some (.error r, c') := by
  have opened : (x >>= f) c = (x c).bind fun r => ExceptT.bindCont f r.1 r.2 := rfl
  rw [opened]
  rcases x c with _ | ⟨_ | _, _⟩ <;> rfl

theorem get_bind (f : Cursor → Rule β) (c : Cursor) : ((get : Rule Cursor) >>= f) c = f c c := rfl

theorem lift_apply (x : StateT Cursor Option α) (c : Cursor) :
    (ExceptT.lift x : Rule α) c = (x c).map fun r => (.ok r.1, r.2) := by
  have opened : (ExceptT.lift x : Rule α) c = (x c).bind fun r => some (.ok r.1, r.2) := rfl
  rw [opened]
  cases x c <;> rfl

/-- The token ahead. -/
def ahead : Rule Token := return (← get).ahead

/-- The token ahead is taken. -/
def next : Rule Token := do
  let c ← get
  set c.advance
  return c.ahead

/-- The rule fails at the token ahead. -/
def fail (fault : SyntaxFault) : Rule α := do throw ⟨.syntactic fault, (← ahead).pos⟩

/-- A token of the kind is taken. -/
def expect (kind : Kind) (expected : Expectation) : Rule Token := do
  let t ← ahead
  if t.kind = kind then next else fail (.insteadOf expected t)

/-- One level further in, within the limit. -/
def deepen : Rule Unit := do
  let c ← get
  if c.depth < maxNesting then set (c.atLevel (c.depth + 1)) else fail .tooDeep

/-- Something is done to the cursor behind the rule, whatever the rule comes to. -/
def behind (rule : Rule α) (act : Cursor → Option Cursor) : Rule α := fun c => do
  let (out, c') ← rule c
  return (out, ← act c')

/-- The rule one level further in. -/
def nested (rule : Rule α) : Rule α := do
  deepen
  behind rule Cursor.lower

/-- The rule, with the nesting behind it that was in front of it. -/
def levelled (rule : Rule α) : Rule α := fun c => behind rule (fun c' => some (c'.atLevel c.depth)) c

theorem ahead_bind (f : Token → Rule β) (c : Cursor) : (ahead >>= f) c = f c.ahead c := rfl

theorem next_apply (c : Cursor) : next c = some (.ok c.ahead, c.advance) := rfl

theorem fail_apply (fault : SyntaxFault) (c : Cursor) :
    (fail fault : Rule α) c = some (.error ⟨.syntactic fault, c.ahead.pos⟩, c) := rfl

theorem expect_apply (kind : Kind) (expected : Expectation) (c : Cursor) :
    expect kind expected c =
      if c.ahead.kind = kind then some (.ok c.ahead, c.advance)
      else some (.error ⟨.syntactic (.insteadOf expected c.ahead), c.ahead.pos⟩, c) := by
  unfold expect
  rw [ahead_bind]
  split <;> rfl

theorem deepen_apply (c : Cursor) :
    deepen c =
      if c.depth < maxNesting then some (.ok (), c.atLevel (c.depth + 1))
      else some (.error ⟨.syntactic .tooDeep, c.ahead.pos⟩, c) := by
  unfold deepen
  rw [get_bind]
  split <;> rfl

theorem behind_apply (rule : Rule α) (act : Cursor → Option Cursor) (c : Cursor) :
    behind rule act c = (rule c).bind fun r => (act r.2).map fun c' => (r.1, c') := by
  unfold behind
  rcases rule c with _ | ⟨out, c'⟩
  · rfl
  · cases h : act c' <;> simp [h]

theorem nested_apply (rule : Rule α) (c : Cursor) :
    nested rule c =
      if c.depth < maxNesting then behind rule Cursor.lower (c.atLevel (c.depth + 1))
      else some (.error ⟨.syntactic .tooDeep, c.ahead.pos⟩, c) := by
  unfold nested
  rw [bind_apply, deepen_apply]
  by_cases room : c.depth < maxNesting
  · rw [if_pos room, if_pos room]
  · rw [if_neg room, if_neg room]

/-! ## Expressions -/

/-- The rules that a rule of expressions calls behind a token that it has taken. Operands and chains
of operators come with the position of their first token. -/
structure Calls where
  unary : Rule (Expr × Position)
  binary (floor : Nat) : Rule (Expr × Position)
  links (floor : Nat) (left : Expr) (start : Position) : Rule (Expr × Position)

/-- A name, a literal, or an expression in parentheses. -/
def primary (calls : Calls) : Rule (Expr × Position) := do
  let t ← ahead
  if t.kind = .mark .openParen then
    let opening ← next
    let (inner, _) ← nested (calls.binary Reading.loosest)
    let _ ← expect (.mark .closeParen) .closeParen
    return (inner, opening.pos)
  else if t.kind = .ident then
    let name ← next
    return (.location name.lexeme name.pos, name.pos)
  else match Reading.literalKind? t.kind with
    | some kind =>
      let literal ← next
      return (.literal kind literal.lexeme literal.pos, literal.pos)
    | none => fail (Reading.operandFault t)

/-- An operand with the one-place operators in front of it. -/
def unary (calls : Calls) : Rule (Expr × Position) := do
  let t ← ahead
  if t.kind.isSign then
    let sign ← next
    let (operand, _) ← nested calls.unary
    return (.unary sign.lexeme operand sign.pos, sign.pos)
  else primary calls

/-- The links of a chain behind its `left` part, as far as their operators are of level `floor` or
above. Each link is one level further in for the rest of the chain. -/
def links (calls : Calls) (floor : Nat) (left : Expr) (start : Position) :
    Rule (Expr × Position) := do
  match Reading.rightFloor? (← ahead).kind floor with
  | none => return (left, start)
  | some tighter =>
    deepen
    let operator ← next
    let (right, _) ← calls.binary tighter
    calls.links floor (.binary operator.lexeme left right start) start

/-- One turn of the chain. -/
theorem links_apply (calls : Calls) (floor : Nat) (left : Expr) (start : Position) (c : Cursor) :
    links calls floor left start c =
      match Reading.rightFloor? c.ahead.kind floor with
      | none => some (.ok (left, start), c)
      | some tighter =>
        if c.depth < maxNesting then
          (calls.binary tighter >>= fun right =>
            calls.links floor (.binary c.ahead.lexeme left right.1 start) start)
            (c.atLevel (c.depth + 1)).advance
        else some (.error ⟨.syntactic .tooDeep, c.ahead.pos⟩, c) := by
  unfold links
  rw [ahead_bind]
  cases Reading.rightFloor? c.ahead.kind floor with
  | none => rfl
  | some tighter =>
    dsimp only
    rw [bind_apply, deepen_apply]
    by_cases room : c.depth < maxNesting
    · rw [if_pos room, if_pos room]
      rfl
    · rw [if_neg room, if_neg room]

/-- A chain of two-place operators of level `floor` and above. -/
def binary (calls : Calls) (floor : Nat) : Rule (Expr × Position) :=
  levelled do
    let (left, start) ← unary calls
    links calls floor left start

theorem binary_apply (calls : Calls) (floor : Nat) (c : Cursor) :
    binary calls floor c =
      ((unary calls >>= fun r => links calls floor r.1 r.2) c).map fun r =>
        (r.1, r.2.atLevel c.depth) := by
  unfold binary levelled
  rw [behind_apply]
  exact Option.map_eq_bind.symm

/-- An expression. -/
def expression (calls : Calls) : Rule Expr := do
  let (e, _) ← binary calls Reading.loosest
  return e

/-- The rules with `n` calls left to them. -/
def within : Nat → Calls
  | 0 => ⟨fun _ => none, fun _ _ => none, fun _ _ _ _ => none⟩
  | n + 1 => ⟨unary (within n), binary (within n), links (within n)⟩

/-! ## Statements -/

section Statements

variable (expression : Rule Expr) (body : Rule (List Stmt))

/-- A `print` statement. -/
def printStatement : Rule Stmt := do
  let word ← next
  let value ← expression
  let _ ← expect (.mark .semicolon) .semicolon
  return .print value word.pos

/-- The name that is declared, behind its type if that is given. -/
def declaredName : Rule (String × Option TypeName) := do
  let first ← expect .ident .identifier
  if (← ahead).kind = .ident then
    let name ← next
    return (name.lexeme, some ⟨first.lexeme, first.pos⟩)
  else return (first.lexeme, none)

/-- What a declaration begins with. Only a variable whose type is given can do without it. -/
def initialValue (binding : Binding) (type : Option TypeName) : Rule (Option Expr) := do
  let t ← ahead
  if t.kind = .mark .equals then
    let _ ← next
    let value ← expression
    return some value
  else if binding = .var ∧ type.isSome then return none
  else fail (.insteadOf .equals t)

/-- A declaration. -/
def declaration (binding : Binding) : Rule Stmt := do
  let word ← next
  let (name, type) ← declaredName
  let value ← initialValue expression binding type
  let _ ← expect (.mark .semicolon) .semicolon
  return .declare binding name type value word.pos

/-- A statement that is a single word. -/
def jumpStatement (jump : Jump) : Rule Stmt := do
  let word ← next
  let _ ← expect (.mark .semicolon) .semicolon
  return .jump jump word.pos

/-- The statements in braces, which are one level further in. -/
def block : Rule (List Stmt) := do
  let _ ← expect (.mark .openBrace) .openBrace
  let statements ← nested body
  let _ ← expect (.mark .closeBrace) .closeBrace
  return statements

/-- A branch, or two. -/
def ifStatement : Rule Stmt := do
  let word ← next
  let condition ← expression
  let thenBody ← block body
  if (← ahead).kind = .keyword .elseWord then
    let _ ← next
    let elseBody ← block body
    return .ifElse condition thenBody (some elseBody) word.pos
  else return .ifElse condition thenBody none word.pos

/-- A loop. -/
def whileStatement : Rule Stmt := do
  let word ← next
  let condition ← expression
  let body ← block body
  return .whileLoop condition body word.pos

/-- The name that is assigned to, if the expression `e` behind `first` is one and no other token was
taken for it. -/
def target? (first : Token) (taken : Nat) : Expr → Option (String × Position)
  | .location name pos => if first.kind = .ident ∧ taken = 1 then some (name, pos) else none
  | _ => none

/-- An expression that is a statement, or an assignment. -/
def expressionStatement : Rule Stmt := do
  let c ← get
  let value ← expression
  if (← ahead).kind = .mark .equals then
    match target? c.ahead ((← get).taken - c.taken) value with
    | none => fail .invalidTarget
    | some (name, namePos) =>
      let _ ← next
      let value ← expression
      let _ ← expect (.mark .semicolon) .semicolon
      return .assign name namePos value c.ahead.pos
  else
    let _ ← expect (.mark .semicolon) .semicolon
    return .expr value c.ahead.pos

/-- The statement that begins with a token of the kind. -/
def statementOf : Kind → Rule Stmt
  | .keyword .printWord => printStatement expression
  | .keyword .varWord => declaration expression .var
  | .keyword .letWord => declaration expression .const
  | .keyword .ifWord => ifStatement expression body
  | .keyword .whileWord => whileStatement expression body
  | .keyword .breakWord => jumpStatement .leave
  | .keyword .continueWord => jumpStatement .again
  | _ => expressionStatement expression

/-- A statement. -/
def statement : Rule Stmt := do statementOf expression body (← ahead).kind

theorem statement_apply (c : Cursor) :
    statement expression body c = statementOf expression body c.ahead.kind c := rfl

theorem statementOf_other {kind : Kind} (h : kind.startsStatement = false) :
    statementOf expression body kind = expressionStatement expression := by
  unfold statementOf
  split
  case h_8 => rfl
  all_goals cases h

end Statements

/-! ## Several statements -/

/-- Whether a search for a place to go on stops in front of a token of the kind: at the end of the
text, at the end of the block, at a word that begins a statement. -/
def stopsAt (closing kind : Kind) : Bool :=
  kind = .eof || (kind = .mark .closeBrace && closing = .mark .closeBrace) || kind.startsStatement

theorem ne_eof_of_not_stopsAt {closing kind : Kind} (h : ¬ stopsAt closing kind) : kind ≠ .eof := by
  rintro rfl
  exact h rfl

/-- Behind a failure reading goes on behind a semicolon, or where the search for one stops. -/
def synchronize (closing : Kind) (c : Cursor) : Cursor :=
  if c.ahead.kind = .mark .semicolon then c.advance
  else if stopsAt closing c.ahead.kind then c
  else synchronize closing c.advance
termination_by c.left
decreasing_by
  have := Cursor.left_advance (ne_eof_of_not_stopsAt ‹_›)
  omega

/-- Reading goes on behind a statement that failed. If it took no token, so that still as many as
`before` are taken, the token ahead is left out. -/
def resume (closing : Kind) (before : Nat) (c : Cursor) : Cursor :=
  synchronize closing (if c.taken = before then c.advance else c)

/-- One pass of the loop over statements: a statement, if it is none that fails. -/
def pass (expression : Rule Expr) (body : Rule (List Stmt)) (closing : Kind) (c : Cursor) :
    Option (Option Stmt × Cursor) := do
  let (out, c') ← statement expression body c.begin
  match out with
  | .ok s => return (some s, c')
  | .error r => return (none, resume closing c.taken (c'.fails c.taken r))

/-- Statements up to a token of the kind `closing`, behind those already `read`, the last one
first. -/
def statements (expression : Rule Expr) :
    Nat → Kind → List Stmt → StateT Cursor Option (List Stmt)
  | 0, _, _ => fun _ => none
  | n + 1, closing, read => fun c =>
    if c.ahead.kind = closing ∨ c.ahead.kind = .eof then some (read.reverse, c)
    else do
      let body := ExceptT.lift (statements expression n (.mark .closeBrace) [])
      let (s, c') ← pass expression body closing c
      statements expression n closing (s.toList ++ read) c'

/-- What the rules make of the items with `n` calls left to them, and the cursor they leave. -/
def run (n : Nat) (items : List Item) : Option (Parsed × Cursor) := do
  let c := Cursor.ofItems items
  let (body, c') ← statements (expression (within n)) n .eof [] c
  return (⟨⟨body, c.ahead.pos⟩, c'.reports.reverse⟩, c')

end Descent

end ImpSyntax
