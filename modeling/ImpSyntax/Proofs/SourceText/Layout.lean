import ImpSyntax.Proofs.SourceText.Written
import ImpSyntax.Proofs.Tree.WellFormed

/-!
# Which operands are written in parentheses

The canonical text of a well-formed program is scanned to the words of its tree and nothing else. Among
these a pair of parentheses stands around an operand exactly if the operand is a two-place operation
whose operator binds too loosely for its place: more loosely than an operator in front of it, more
loosely than the operator on its right, or no more tightly than the operator on its left.

Main results:

* `Expr.isLooserThan_eq` — when an operand has a level below some bound.
* `Node.enclosesOperands` — the words of an operation are those of its operands around its operator.
* `tokenize_source` — what the text of a well-formed program is scanned to.
-/

namespace ImpSyntax

open Precedence

/-! ## Levels of operators -/

/-- The level of the two-place operator written `op`. -/
def operatorLevel (op : String) : Nat := ((Mark.operator? op).bind Mark.level?).getD 0

/-- Whether the expression is a two-place operation whose operator has a level that passes the test. -/
def Expr.isOperation (p : Nat → Bool) : Expr → Bool
  | binary op .. => p (operatorLevel op)
  | _ => false

theorem operatorLevel_spelling {m : Mark} {level : Nat} (h : m.level? = some level) :
    operatorLevel m.spelling = level := by
  have notPunctuation : m.isPunctuation = false := by
    cases m <;> first | rfl | cases h
  rw [operatorLevel, Mark.operator?_eq_some_iff.mpr ⟨notPunctuation, rfl⟩, Option.bind_some, h]
  rfl

theorem binaryLevel_eq {op : String} (h : op ∈ operatorSpellings) :
    binaryLevel op = (operatorLevel op, .left) := by
  obtain ⟨m, level, found, rfl⟩ := mem_operatorSpellings_iff.mp h
  rw [binaryLevel_spelling found, operatorLevel_spelling found]

/-- Below a bound that operators in front of their operand keep to, there are two-place operations
only. -/
theorem Expr.isLooserThan_eq {e : Expr} (h : e.WellFormed) {bound : Nat} (le : bound ≤ unaryLevel) :
    e.isLooserThan bound = e.isOperation (· < bound) := by
  cases e with
  | binary op l r pos => rw [isLooserThan, binaryLevel_eq h.1]; rfl
  | unary op e pos => simpa [isLooserThan, isOperation] using le
  | literal | location => rfl

/-! ## Operands and their parentheses -/

/-- The words of an operation are its operator and the words of its operands, with one pair of
parentheses around an operand that would be taken apart without them. -/
def Node.EnclosesOperands : Node → Prop
  | .expr (.unary op e pos) =>
    (Expr.unary op e pos).words =
      operatorWord op :: Expr.enclosedWords (e.isOperation (· < unaryLevel)) e.words
  | .expr (.binary op l r pos) =>
    (Expr.binary op l r pos).words =
      Expr.enclosedWords (l.isOperation (· < operatorLevel op)) l.words ++
        operatorWord op :: Expr.enclosedWords (r.isOperation (· ≤ operatorLevel op)) r.words
  | _ => True

theorem operatorLevel_lt {op : String} (h : op ∈ operatorSpellings) :
    operatorLevel op < unaryLevel := by
  obtain ⟨m, level, found, rfl⟩ := mem_operatorSpellings_iff.mp h
  have row : (Kind.mark m).binaryLevel? = some (level, .left) := by rw [binaryLevel?_mark, found]; rfl
  rw [operatorLevel_spelling found]
  exact (Kind.binaryLevel?_bounds row).2

theorem Node.enclosesOperands {n : Node} (h : n.WellFormed) : n.EnclosesOperands := by
  match n with
  | .expr (.unary op e pos) =>
    have operand : e.WellFormed := h.2
    show (Expr.unary op e pos).words = _
    rw [Expr.words, Expr.isLooserThan_eq operand (Nat.le_refl _)]
  | .expr (.binary op l r pos) =>
    obtain ⟨known, left, right⟩ : op ∈ operatorSpellings ∧ l.WellFormed ∧ r.WellFormed := h
    have low := operatorLevel_lt known
    have bound : r.isOperation (· < operatorLevel op + 1) = r.isOperation (· ≤ operatorLevel op) := by
      congr 1
      funext level
      exact decide_eq_decide.mpr Nat.lt_succ_iff
    show (Expr.binary op l r pos).words = _
    rw [Expr.words, binaryLevel_eq known, Expr.leftBound, Expr.rightBound,
      Expr.isLooserThan_eq left (Nat.le_of_lt low), Expr.isLooserThan_eq right low, bound]
  | .expr (.literal ..) | .expr (.location ..) | .program _ | .stmt _ | .type _ => trivial

/-! ## What canonical text is scanned to -/

/-- The text of a well-formed program has the words of the program and no others, and an operand is
in parentheses exactly if it has to be. -/
theorem tokenize_source {p : Program} (h : p.WellFormed) :
    (tokenize p.source).map Item.erase = (p.words ++ [Token.eof .unknown]).map .token ∧
      ∀ n ∈ (Node.program p).preorder, n.EnclosesOperands := by
  obtain ⟨clean, read⟩ := p.words_source h
  refine ⟨?_, fun n mem => ?_⟩
  · rw [tokenize_eq_words clean, read]
  · have root : (Node.program p).WellFormed := h
    exact Node.enclosesOperands (Node.forall_mem_preorder (fun _ => Node.WellFormed.child) root n mem)

/-- A sum behind a sign and a difference in front of a tighter operator are put in parentheses, the
quotient on the right of the whole difference is not. -/
theorem tokenize_source_of_difference :
    let sum : Expr := .binary "+" (.location "a" .unknown) (.literal .int "1" .unknown) .unknown
    let inner : Expr := .binary "-" (.location "b" .unknown) (.literal .char "'/'" .unknown) .unknown
    let quotient : Expr := .binary "/" inner (.literal .float "2.5" .unknown) .unknown
    let p : Program :=
      ⟨[.print (.binary "-" (.unary "-" sum .unknown) quotient .unknown) .unknown], .unknown⟩
    p.WellFormed ∧ p.source = "print -(a + 1) - (b - '/') / 2.5;\n" ∧
      (tokenize p.source).map Item.erase = (p.words ++ [Token.eof .unknown]).map .token ∧
      p.words.map Token.lexeme = ["print", "-", "(", "a", "+", "1", ")", "-", "(", "b", "-", "'/'", ")",
        "/", "2.5", ";"] ∧
      (Node.expr quotient).EnclosesOperands := by
  intro sum inner quotient p
  have name : ∀ n : String, n = "a" ∨ n = "b" → IsIdentifier n := by
    rintro n (rfl | rfl) <;>
      exact ⟨⟨by decide, by simp⟩, fun w => by cases w <;> decide⟩
  have slash : LiteralKind.char.Spells "'/'" := .inl ⟨'/', rfl, rfl, by decide⟩
  have decimal : LiteralKind.float.Spells "2.5" :=
    ⟨['2'], ['5'], rfl, isDigits_singleton rfl, isDigits_singleton rfl⟩
  have wellFormed : p.WellFormed :=
    ⟨⟨by decide, ⟨by decide, by decide, name "a" (.inl rfl), isDigits_singleton rfl⟩,
      by decide, ⟨by decide, name "b" (.inr rfl), slash⟩, decimal⟩, trivial⟩
  obtain ⟨scanned, encloses⟩ := tokenize_source wellFormed
  refine ⟨wellFormed, by cbv, scanned, by cbv, encloses _ ?_⟩
  simp [p, quotient, Node.ofStmts]

end ImpSyntax
