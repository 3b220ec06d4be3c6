import ImpSyntax.Position

/-!
# Syntax trees

Programs as trees of statements and expressions. Every part carries the position of its first
token, or `Position.unknown` where it was not read from a text. Names, operators and the texts of
literals are kept as they are written.

Main results:

* `Stmt.same_iff` — two statements are the same exactly when all their parts are, positions
  included.
* `Program.relocate` — a tree with its positions mapped; `Program.erase` forgets them.
-/

namespace ImpSyntax

/-! ## Expressions -/

/-- What a literal denotes. -/
inductive LiteralKind
  | int | float | char | bool
deriving DecidableEq, Repr, Inhabited

/-- The name of the kind. -/
def LiteralKind.name : LiteralKind → String
  | int => "int"
  | float => "float"
  | char => "char"
  | bool => "bool"

/-- An expression. -/
inductive Expr
  | binary (op : String) (left right : Expr) (pos : Position)
  | unary (op : String) (operand : Expr) (pos : Position)
  | literal (kind : LiteralKind) (value : String) (pos : Position)
  | location (name : String) (pos : Position)
deriving DecidableEq, Repr, Inhabited

namespace Expr

/-- The position of the expression. -/
def pos : Expr → Position
  | binary _ _ _ p | unary _ _ p | literal _ _ p | location _ p => p

/-- The expression with every position mapped. -/
def relocate (f : Position → Position) : Expr → Expr
  | binary op l r p => binary op (l.relocate f) (r.relocate f) (f p)
  | unary op e p => unary op (e.relocate f) (f p)
  | literal k v p => literal k v (f p)
  | location n p => location n (f p)

end Expr

/-! ## Statements -/

/-- The type that a declaration names. -/
structure TypeName where
  name : String
  pos : Position
deriving DecidableEq, Repr, Inhabited

/-- The type name with its position mapped. -/
def TypeName.relocate (f : Position → Position) (t : TypeName) : TypeName := ⟨t.name, f t.pos⟩

/-- What a declaration binds its name to. -/
inductive Binding
  | var
  | const
deriving DecidableEq, Repr, Inhabited

/-- How a loop is left or begun anew. -/
inductive Jump
  | leave
  | again
deriving DecidableEq, Repr, Inhabited

/-- A statement. An absent `else` and one with an empty block are different trees. -/
inductive Stmt
  | print (value : Expr) (pos : Position)
  | assign (name : String) (namePos : Position) (value : Expr) (pos : Position)
  | declare (binding : Binding) (name : String) (type : Option TypeName) (init : Option Expr)
      (pos : Position)
  | ifElse (condition : Expr) (thenBody : List Stmt) (elseBody : Option (List Stmt))
      (pos : Position)
  | whileLoop (condition : Expr) (body : List Stmt) (pos : Position)
  | jump (jump : Jump) (pos : Position)
  | expr (value : Expr) (pos : Position)
deriving Repr, Inhabited

namespace Stmt

/-- The position of the statement. -/
def pos : Stmt → Position
  | print _ p | assign _ _ _ p | declare _ _ _ _ p | ifElse _ _ _ p | whileLoop _ _ p | jump _ p
  | expr _ p => p

mutual

/-- The statement with every position mapped. -/
def relocate (f : Position → Position) : Stmt → Stmt
  | print e p => print (e.relocate f) (f p)
  | assign n np e p => assign n (f np) (e.relocate f) (f p)
  | declare b n t i p => declare b n (t.map (·.relocate f)) (i.map (·.relocate f)) (f p)
  | ifElse c t e p => ifElse (c.relocate f) (relocateList f t) (relocateElse f e) (f p)
  | whileLoop c b p => whileLoop (c.relocate f) (relocateList f b) (f p)
  | jump j p => jump j (f p)
  | expr e p => expr (e.relocate f) (f p)

/-- The statements with every position mapped. -/
def relocateList (f : Position → Position) : List Stmt → List Stmt
  | [] => []
  | s :: rest => s.relocate f :: relocateList f rest

/-- The block of an `else`, if there is one, with every position mapped. -/
def relocateElse (f : Position → Position) : Option (List Stmt) → Option (List Stmt)
  | none => none
  | some body => some (relocateList f body)

end

/-! ## Equality -/

mutual

/-- Whether two statements are the same tree. -/
def same : Stmt → Stmt → Bool
  | print e p, print e' p' => e == e' && p == p'
  | assign n np e p, assign n' np' e' p' => n == n' && np == np' && e == e' && p == p'
  | declare b n t i p, declare b' n' t' i' p' =>
    b == b' && n == n' && t == t' && i == i' && p == p'
  | ifElse c t e p, ifElse c' t' e' p' => c == c' && sameList t t' && sameElse e e' && p == p'
  | whileLoop c b p, whileLoop c' b' p' => c == c' && sameList b b' && p == p'
  | jump j p, jump j' p' => j == j' && p == p'
  | expr e p, expr e' p' => e == e' && p == p'
  | _, _ => false

/-- Whether two lists of statements are the same. -/
def sameList : List Stmt → List Stmt → Bool
  | [], [] => true
  | s :: rest, s' :: rest' => s.same s' && sameList rest rest'
  | _, _ => false

/-- Whether two `else` branches are the same. -/
def sameElse : Option (List Stmt) → Option (List Stmt) → Bool
  | none, none => true
  | some body, some body' => sameList body body'
  | _, _ => false

end

mutual

theorem same_iff (s s' : Stmt) : s.same s' = true ↔ s = s' := by
  cases s <;> cases s' <;>
    simp [same, and_assoc, sameList_iff, sameElse_iff]

theorem sameList_iff (b b' : List Stmt) : sameList b b' = true ↔ b = b' := by
  cases b <;> cases b' <;> simp [sameList, same_iff, sameList_iff]

theorem sameElse_iff (e e' : Option (List Stmt)) : sameElse e e' = true ↔ e = e' := by
  cases e <;> cases e' <;> simp [sameElse, sameList_iff]

end

instance : DecidableEq Stmt := fun s s' => decidable_of_iff _ (same_iff s s')

end Stmt

/-! ## Programs -/

/-- A program: its statements, and the position of its first token. -/
structure Program where
  body : List Stmt
  pos : Position
deriving DecidableEq, Repr, Inhabited

namespace Program

/-- The program with every position mapped. -/
def relocate (f : Position → Position) (p : Program) : Program :=
  ⟨Stmt.relocateList f p.body, f p.pos⟩

/-- The program without its positions. -/
def erase (p : Program) : Program := p.relocate fun _ => .unknown

end Program

end ImpSyntax
