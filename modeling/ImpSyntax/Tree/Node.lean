import ImpSyntax.Tree.Basic

/-!
# The nodes of a tree

One view of all parts of a tree: a node has a class, a position, named attributes and children, each
child in a role.

Main results:

* `Node.size_eq` — a subtree has one node more than the subtrees of its children together.
* `Node.size_child_lt` — the subtree of a child is smaller, so that recursion over children ends.
* `Node.induction` — what holds of a node as soon as it holds of its children holds of every node.
-/

namespace ImpSyntax

/-! ## Classes and roles -/

/-- What a node is. -/
inductive NodeClass
  | program | printStatement | assignmentStatement | varDefinition | constDefinition
  | ifStatement | whileStatement | breakStatement | continueStatement | expressionAsStatement
  | binaryOp | unaryOp | literal | location | type
deriving DecidableEq, Repr, Inhabited

/-- The name of the class. -/
def NodeClass.name : NodeClass → String
  | program => "Program"
  | printStatement => "PrintStatement"
  | assignmentStatement => "AssignmentStatement"
  | varDefinition => "VarDefinition"
  | constDefinition => "ConstDefinition"
  | ifStatement => "IfStatement"
  | whileStatement => "WhileStatement"
  | breakStatement => "BreakStatement"
  | continueStatement => "ContinueStatement"
  | expressionAsStatement => "ExpressionAsStatement"
  | binaryOp => "BinaryOp"
  | unaryOp => "UnaryOp"
  | literal => "Literal"
  | location => "Location"
  | type => "Type"

/-- The place that a child fills in its parent; blocks number their statements. -/
structure Role where
  name : String
  index : Option Nat
deriving DecidableEq, Repr, Inhabited

namespace Role

/-- A role that only one child has. -/
def field (name : String) : Role := ⟨name, none⟩

/-- The role of the statement with the given number in a block. -/
def item (name : String) (index : Nat) : Role := ⟨name, some index⟩

/-- The role as a label: its name, and the number in brackets. -/
def toString (r : Role) : String :=
  match r.index with
  | some i => s!"{r.name}[{i}]"
  | none => r.name

instance : ToString Role := ⟨Role.toString⟩

end Role

/-! ## Sizes -/

/-- The sum of the sizes. -/
def total (sizes : List Nat) : Nat := sizes.foldr (· + ·) 0

@[simp] theorem total_nil : total [] = 0 := rfl

@[simp] theorem total_cons (n : Nat) (sizes : List Nat) :
    total (n :: sizes) = n + total sizes := rfl

@[simp] theorem total_append (sizes others : List Nat) :
    total (sizes ++ others) = total sizes + total others := by
  induction sizes with
  | nil => simp
  | cons n sizes ih => rw [List.cons_append, total_cons, total_cons, ih, Nat.add_assoc]

theorem le_total_of_mem {n : Nat} {sizes : List Nat} (h : n ∈ sizes) : n ≤ total sizes := by
  induction h with
  | head sizes => exact Nat.le_add_right _ _
  | tail m _ ih => exact Nat.le_add_left_of_le ih

namespace Expr

/-- How many nodes the expression has. -/
def size : Expr → Nat
  | binary _ l r _ => 1 + l.size + r.size
  | unary _ e _ => 1 + e.size
  | literal .. | location .. => 1

end Expr

namespace Stmt

mutual

/-- How many nodes the statement has. -/
def size : Stmt → Nat
  | print e _ => 1 + e.size
  | assign _ _ e _ => 2 + e.size
  | declare _ _ t i _ => 1 + (if t.isSome then 1 else 0) + (i.map Expr.size).getD 0
  | ifElse c t e _ => 1 + c.size + sizeList t + sizeElse e
  | whileLoop c b _ => 1 + c.size + sizeList b
  | jump _ _ => 1
  | expr e _ => 1 + e.size

/-- How many nodes the statements have together. -/
def sizeList : List Stmt → Nat
  | [] => 0
  | s :: rest => s.size + sizeList rest

/-- How many nodes an `else` branch has. -/
def sizeElse : Option (List Stmt) → Nat
  | none => 0
  | some body => sizeList body

end

theorem sizeList_eq_total (body : List Stmt) : sizeList body = total (body.map size) := by
  induction body with
  | nil => rfl
  | cons s rest ih => simp [sizeList, ih]

end Stmt

/-! ## Nodes -/

/-- Any part of a tree. -/
inductive Node
  | program (program : Program)
  | stmt (stmt : Stmt)
  | expr (expr : Expr)
  | type (type : TypeName)
deriving DecidableEq, Repr, Inhabited

namespace Node

/-- What the node is. -/
def nodeClass : Node → NodeClass
  | program _ => .program
  | stmt s => match s with
    | .print .. => .printStatement
    | .assign .. => .assignmentStatement
    | .declare .var .. => .varDefinition
    | .declare .const .. => .constDefinition
    | .ifElse .. => .ifStatement
    | .whileLoop .. => .whileStatement
    | .jump .leave _ => .breakStatement
    | .jump .again _ => .continueStatement
    | .expr .. => .expressionAsStatement
  | expr e => match e with
    | .binary .. => .binaryOp
    | .unary .. => .unaryOp
    | .literal .. => .literal
    | .location .. => .location
  | type _ => .type

/-- The position of the node. -/
def pos : Node → Position
  | program p => p.pos
  | stmt s => s.pos
  | expr e => e.pos
  | type t => t.pos

/-- What the node holds besides its children, each under a name. -/
def attributes : Node → List (String × String)
  | stmt (.declare _ name _ _ _) => [("name", name)]
  | expr (.binary op _ _ _) => [("op", op)]
  | expr (.unary op _ _) => [("op", op)]
  | expr (.literal kind value _) => [("type", kind.name), ("value", value)]
  | expr (.location name _) => [("name", name)]
  | type t => [("name", t.name)]
  | _ => []

/-- The statements of a block, in the numbered roles of the given name. -/
def block (name : String) (body : List Stmt) : List (Role × Node) :=
  body.zipIdx.map fun (s, i) => (.item name i, .stmt s)

/-- The parts of the node in the order of the text, each with its role. -/
def children : Node → List (Role × Node)
  | program p => block "statements" p.body
  | stmt s => match s with
    | .print e _ => [(.field "expression", .expr e)]
    | .assign name namePos e _ =>
      [(.field "location", .expr (.location name namePos)), (.field "expression", .expr e)]
    | .declare _ _ t i _ =>
      (t.map fun t => (.field "dtype", .type t)).toList ++
        (i.map fun e => (.field "expression", .expr e)).toList
    | .ifElse c thenBody elseBody _ =>
      (.field "condition", .expr c) :: block "then" thenBody ++ block "else" (elseBody.getD [])
    | .whileLoop c body _ => (.field "condition", .expr c) :: block "body" body
    | .jump .. => []
    | .expr e _ => [(.field "expression", .expr e)]
  | expr e => match e with
    | .binary _ l r _ => [(.field "left", .expr l), (.field "right", .expr r)]
    | .unary _ e _ => [(.field "expression", .expr e)]
    | .literal .. | .location .. => []
  | type _ => []

/-- How many nodes the subtree has, the node included. -/
def size : Node → Nat
  | program p => 1 + Stmt.sizeList p.body
  | stmt s => s.size
  | expr e => e.size
  | type _ => 1

/-! ## Recursion over children -/

@[simp] theorem size_program (p : Program) :
    (program p).size = 1 + Stmt.sizeList p.body := rfl

@[simp] theorem size_stmt (s : Stmt) : (stmt s).size = s.size := rfl

@[simp] theorem size_expr (e : Expr) : (expr e).size = e.size := rfl

@[simp] theorem size_type (t : TypeName) : (type t).size = 1 := rfl

theorem map_block {α : Type} (f : Node → α) (name : String) (body : List Stmt) :
    ((block name body).map fun child => f child.2) = body.map fun s => f (stmt s) := by
  have fsts := congrArg (List.map fun s => f (stmt s)) (List.zipIdx_map_fst 0 body)
  rw [List.map_map] at fsts
  rw [block, List.map_map, ← fsts]
  rfl

@[simp] theorem total_size_block (name : String) (body : List Stmt) :
    total ((block name body).map fun child => child.2.size) = Stmt.sizeList body := by
  rw [map_block size, Stmt.sizeList_eq_total]
  rfl

theorem size_eq (n : Node) : n.size = 1 + total (n.children.map fun child => child.2.size) := by
  match n with
  | program p => simp [children]
  | type t => simp [children]
  | expr e => cases e <;> simp [children, Expr.size, Nat.add_assoc]
  | stmt s =>
    cases s with
    | declare b name t i p =>
      cases t <;> cases i <;> simp [children, Stmt.size, ← Nat.add_assoc]
    | ifElse c t e p =>
      cases e <;> simp [children, Stmt.size, Stmt.sizeElse, Stmt.sizeList, Nat.add_assoc]
    | _ => simp [children, Stmt.size, Expr.size, ← Nat.add_assoc]

theorem size_child_lt {n : Node} {child : Role × Node} (h : child ∈ n.children) :
    child.2.size < n.size := by
  have le : child.2.size ≤ total (n.children.map fun child => child.2.size) :=
    le_total_of_mem (List.mem_map_of_mem (f := fun child => child.2.size) h)
  rw [size_eq n]
  omega

theorem induction {motive : Node → Prop}
    (step : ∀ n : Node, (∀ child ∈ n.children, motive child.2) → motive n) (n : Node) :
    motive n := by
  induction h : n.size using Nat.strongRecOn generalizing n with
  | ind size ih => exact step n fun child hc => ih _ (h ▸ size_child_lt hc) child.2 rfl

end Node

end ImpSyntax
