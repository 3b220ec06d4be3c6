import ImpSyntax.Tree.Node

/-!
# Building trees

Trees made in code. What is built has no known position unless one is given.

Main results:

* `Expr.pos_withPos` — an expression can be placed anywhere.
-/

namespace ImpSyntax

namespace Expr

/-- A literal that is one of the two words for a truth value. -/
def bool (value : Bool) (pos : Position := .unknown) : Expr :=
  literal .bool (if value then "true" else "false") pos

/-- The expression placed at `pos`; its parts stay where they are. -/
def withPos (pos : Position) : Expr → Expr
  | binary op l r _ => binary op l r pos
  | unary op e _ => unary op e pos
  | literal kind value _ => literal kind value pos
  | location name _ => location name pos

@[simp] theorem pos_withPos (p : Position) (e : Expr) : (e.withPos p).pos = p := by cases e <;> rfl

/-- The expression behind `n` one-place operators. -/
def repeatUnary (op : String) (n : Nat) (e : Expr) : Expr :=
  Nat.repeat (fun e => unary op e .unknown) n e

/-- A chain that grows to the left: `e`, and `n` times the operator and the leaf behind it. -/
def repeatLeft (op : String) (n : Nat) (e leaf : Expr) : Expr :=
  Nat.repeat (fun e => binary op e leaf .unknown) n e

/-- A chain that grows to the right: `n` times the leaf and the operator, and `e` behind them. -/
def repeatRight (op : String) (n : Nat) (e leaf : Expr) : Expr :=
  Nat.repeat (fun e => binary op leaf e .unknown) n e

end Expr

end ImpSyntax
