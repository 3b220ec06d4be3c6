import ImpSyntax.Fault
import ImpSyntax.Tree.Basic

/-!
# Reading expressions

An expression is read one token at a time. What is open around the operand in hand is kept as a
stack of frames, the innermost first: one-place operators, parentheses, and two-place operators with
the operand on their left. A token behind an operand closes every frame that binds at least as
tightly as the token does.

Nesting is counted on the way: a one-place operator and a parenthesis are one level each for what is
inside them, and so is every link of a chain of two-place operators for the rest of its chain. Each
frame remembers the level to go back to when it is closed.

Main results:

* `Reading.feed` — the step from token to token.
* `Reading.rightFloor?_eq_some_iff` — a token goes on with an operand exactly when it is a two-place
  operator of the level asked for; its right side then holds tighter operators only.
-/

namespace ImpSyntax

open Precedence

/-! ## State -/

/-- A construct that is open around an operand; `outer` is the nesting to go on with behind it. A
link takes on its right only operators of level `floor` and above. -/
inductive Frame
  | sign (op : String) (pos : Position) (outer : Nat)
  | group (pos : Position) (outer : Nat)
  | link (op : String) (floor : Nat) (left : Expr) (start : Position) (outer : Nat)
deriving DecidableEq, Repr

/-- What the next token has to be: the operand one level further in, an operand, or something that
can stand behind the operand `e`, whose first token is at `start`. -/
inductive Need
  | inner
  | operand
  | operator (e : Expr) (start : Position)
deriving DecidableEq, Repr

/-- An expression that has been read in part. -/
structure Reading where
  frames : List Frame
  depth : Nat
  need : Need
deriving DecidableEq, Repr

/-- What a token makes of an expression in part: more of it, the whole expression with the token
behind it, or a fault at the token. -/
inductive Outcome
  | more (reading : Reading)
  | done (e : Expr)
  | fault (fault : SyntaxFault)
deriving DecidableEq, Repr

namespace Reading

/-! ## Operands -/

/-- The kind of literal that a token of kind `k` is. -/
def literalKind? : Kind → Option LiteralKind
  | .int => some .int
  | .float => some .float
  | .char => some .char
  | .keyword .trueWord | .keyword .falseWord => some .bool
  | _ => none

/-- Why `t` cannot begin an operand. -/
def operandFault (t : Token) : SyntaxFault :=
  if t.kind = .eof then .unexpectedEnd .expression else .unexpectedToken t.lexeme

/-- The reading behind `t` where an operand begins. -/
def operand (frames : List Frame) (depth : Nat) (t : Token) : Except SyntaxFault Reading :=
  if t.kind.isSign then
    .ok ⟨.sign t.lexeme t.pos depth :: frames, depth, .inner⟩
  else if t.kind = .mark .openParen then
    .ok ⟨.group t.pos depth :: frames, depth, .inner⟩
  else if t.kind = .ident then
    .ok ⟨frames, depth, .operator (.location t.lexeme t.pos) t.pos⟩
  else match literalKind? t.kind with
    | some kind => .ok ⟨frames, depth, .operator (.literal kind t.lexeme t.pos) t.pos⟩
    | none => .error (operandFault t)

/-- The reading behind the first token of an expression. -/
def begin (depth : Nat) (t : Token) : Except SyntaxFault Reading := operand [] depth t

/-- An expression of which nothing has been read. -/
def start (depth : Nat) : Reading := ⟨[], depth, .operand⟩

/-! ## Operators -/

/-- The loosest two-place operators. -/
def loosest : Nat := assignmentLevel + 1

/-- Where `k` is a two-place operator of level `floor` or above, the floor for its right side: its
own level if it groups to the right, the next one if it groups to the left. -/
def rightFloor? (k : Kind) (floor : Nat) : Option Nat :=
  match k.binaryLevel? with
  | some (level, .left) => if floor ≤ level then some (level + 1) else none
  | some (level, .right) => if floor ≤ level then some level else none
  | none => none

theorem rightFloor?_eq_some_iff {k : Kind} {floor next : Nat} :
    rightFloor? k floor = some next ↔
      ∃ m level, k = .mark m ∧ m.level? = some level ∧ floor ≤ level ∧ next = level + 1 := by
  constructor
  · intro h
    cases k with
    | mark m =>
      rw [rightFloor?, binaryLevel?_mark] at h
      cases level : m.level? with
      | none => simp [level] at h
      | some n =>
        simp only [level, Option.map_some, Option.ite_none_right_eq_some, Option.some.injEq] at h
        exact ⟨m, n, rfl, level, h.1, h.2.symm⟩
    | _ => rw [rightFloor?, binaryLevel?_eq_none (by simp)] at h; cases h
  · rintro ⟨m, level, rfl, found, le, rfl⟩
    simp [rightFloor?, binaryLevel?_mark, found, le]

/-- A link is added to a chain: `e` is what stands on its left. -/
def link (t : Token) (floor : Nat) (frames : List Frame) (depth : Nat) (e : Expr)
    (start : Position) : Outcome :=
  if depth < maxNesting then
    .more ⟨.link t.lexeme floor e start (depth + 1) :: frames, depth + 1, .operand⟩
  else .fault .tooDeep

/-- The token `t` behind the operand `e`: the innermost frames are closed until one is open for
`t`. -/
def settle (t : Token) : List Frame → Nat → Expr → Position → Outcome
  | .sign op pos outer :: frames, _, e, _ => settle t frames outer (.unary op e pos) pos
  | .link op floor left begun outer :: frames, depth, e, start =>
    match rightFloor? t.kind floor with
    | some next => link t next (.link op floor left begun outer :: frames) depth e start
    | none => settle t frames outer (.binary op left e begun) begun
  | .group pos outer :: frames, depth, e, start =>
    match rightFloor? t.kind loosest with
    | some next => link t next (.group pos outer :: frames) depth e start
    | none =>
      if t.kind = .mark .closeParen then .more ⟨frames, outer, .operator e pos⟩
      else .fault (.insteadOf .closeParen t)
  | [], depth, e, start =>
    match rightFloor? t.kind loosest with
    | some next => link t next [] depth e start
    | none => .done e

/-! ## Steps -/

/-- The outcome of beginning an operand. -/
def taken : Except SyntaxFault Reading → Outcome
  | .ok r => .more r
  | .error f => .fault f

/-- What the token `t` makes of the reading. -/
def feed (r : Reading) (t : Token) : Outcome :=
  match r.need with
  | .inner =>
    if r.depth < maxNesting then taken (operand r.frames (r.depth + 1) t) else .fault .tooDeep
  | .operand => taken (operand r.frames r.depth t)
  | .operator e start => settle t r.frames r.depth e start

end Reading

end ImpSyntax
