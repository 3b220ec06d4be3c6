import ImpSyntax.Tree.Node

/-!
# Walking a tree

A visitor is told what to do at a node, given the walk over the node's children: it may do something
before and behind this walk, or leave it out. It can be told so by a hook for each class of nodes; a
hook that is not given goes on to the children.

Main results:

* `Visitor.visit_eq` — a visit is the visitor's own step around the visits of the children in order.
* `Hooks.visit_eq` — hooks for the classes make a visitor, which calls the hook for the class of the
  node; `Visitor.visitor_hooks` — every visitor is made of such hooks.
* `Node.preorder` — all nodes, parents first.
* `Node.trace` — the walk as a log of entering and leaving, without what lies below chosen classes.
* `Node.loopDepths` — jumps and names with the number of loops around them.
-/

namespace ImpSyntax

/-- What to do at a node: a change of the state `σ`, made from that of the walk over the children. -/
structure Visitor (σ : Type) where
  hook : Node → (σ → σ) → σ → σ

namespace Visitor

variable {σ : Type}

/-- The visit of the subtree. -/
def visit (v : Visitor σ) (n : Node) : σ → σ :=
  v.hook n fun state =>
    n.children.attach.foldl (fun state ⟨child, _⟩ => v.visit child.2 state) state
termination_by n.size
decreasing_by exact Node.size_child_lt ‹_›

/-- The visits of the children of the node, in order. -/
def visitChildren (v : Visitor σ) (n : Node) (state : σ) : σ :=
  n.children.foldl (fun state child => v.visit child.2 state) state

theorem visit_eq (v : Visitor σ) (n : Node) : v.visit n = v.hook n (v.visitChildren n) := by
  rw [visit]
  congr 1
  funext state
  exact List.foldl_subtype (g := fun state (child : Role × Node) => v.visit child.2 state)
    (by simp) |>.trans (by rw [List.attach, List.unattach_attachWith]; rfl)

end Visitor

/-! ## A hook for each class -/

/-- What to do at the nodes of each class. A hook is given the parts of the node and the `generic` way
of going on, which is to visit the children unless it is given too. -/
structure Hooks (σ : Type) where
  generic (n : Node) (below : σ → σ) : σ → σ := below
  program (program : Program) (rest : σ → σ) : σ → σ := rest
  printStatement (value : Expr) (pos : Position) (rest : σ → σ) : σ → σ := rest
  assignmentStatement (name : String) (namePos : Position) (value : Expr) (pos : Position)
    (rest : σ → σ) : σ → σ := rest
  varDefinition (name : String) (type : Option TypeName) (init : Option Expr) (pos : Position)
    (rest : σ → σ) : σ → σ := rest
  constDefinition (name : String) (type : Option TypeName) (init : Option Expr) (pos : Position)
    (rest : σ → σ) : σ → σ := rest
  ifStatement (condition : Expr) (thenBody : List Stmt) (elseBody : Option (List Stmt))
    (pos : Position) (rest : σ → σ) : σ → σ := rest
  whileStatement (condition : Expr) (body : List Stmt) (pos : Position) (rest : σ → σ) : σ → σ := rest
  breakStatement (pos : Position) (rest : σ → σ) : σ → σ := rest
  continueStatement (pos : Position) (rest : σ → σ) : σ → σ := rest
  expressionAsStatement (value : Expr) (pos : Position) (rest : σ → σ) : σ → σ := rest
  binaryOp (op : String) (left right : Expr) (pos : Position) (rest : σ → σ) : σ → σ := rest
  unaryOp (op : String) (operand : Expr) (pos : Position) (rest : σ → σ) : σ → σ := rest
  literal (kind : LiteralKind) (value : String) (pos : Position) (rest : σ → σ) : σ → σ := rest
  location (name : String) (pos : Position) (rest : σ → σ) : σ → σ := rest
  type (type : TypeName) (rest : σ → σ) : σ → σ := rest

namespace Hooks

variable {σ : Type}

/-- The hook for the class of the node is called. -/
def dispatch (h : Hooks σ) (n : Node) (below : σ → σ) : σ → σ :=
  let rest := h.generic n below
  match n with
  | .program p => h.program p rest
  | .stmt s => match s with
    | .print value pos => h.printStatement value pos rest
    | .assign name namePos value pos => h.assignmentStatement name namePos value pos rest
    | .declare .var name type init pos => h.varDefinition name type init pos rest
    | .declare .const name type init pos => h.constDefinition name type init pos rest
    | .ifElse condition thenBody elseBody pos => h.ifStatement condition thenBody elseBody pos rest
    | .whileLoop condition body pos => h.whileStatement condition body pos rest
    | .jump .leave pos => h.breakStatement pos rest
    | .jump .again pos => h.continueStatement pos rest
    | .expr value pos => h.expressionAsStatement value pos rest
  | .expr e => match e with
    | .binary op left right pos => h.binaryOp op left right pos rest
    | .unary op operand pos => h.unaryOp op operand pos rest
    | .literal kind value pos => h.literal kind value pos rest
    | .location name pos => h.location name pos rest
  | .type t => h.type t rest

/-- The visitor that calls the hooks. -/
def visitor (h : Hooks σ) : Visitor σ := ⟨h.dispatch⟩

theorem visit_eq (h : Hooks σ) (n : Node) :
    h.visitor.visit n = h.dispatch n (h.visitor.visitChildren n) :=
  h.visitor.visit_eq n

/-- Where no hook is given the children are visited. -/
theorem dispatch_default (n : Node) (below : σ → σ) : ({} : Hooks σ).dispatch n below = below := by
  unfold dispatch
  split
  · rfl
  · split <;> rfl
  · split <;> rfl
  · rfl

end Hooks

/-- The hooks that do at the nodes of each class what the visitor does there. -/
def Visitor.hooks {σ : Type} (v : Visitor σ) : Hooks σ where
  program p := v.hook (.program p)
  printStatement value pos := v.hook (.stmt (.print value pos))
  assignmentStatement name namePos value pos := v.hook (.stmt (.assign name namePos value pos))
  varDefinition name type init pos := v.hook (.stmt (.declare .var name type init pos))
  constDefinition name type init pos := v.hook (.stmt (.declare .const name type init pos))
  ifStatement condition thenBody elseBody pos :=
    v.hook (.stmt (.ifElse condition thenBody elseBody pos))
  whileStatement condition body pos := v.hook (.stmt (.whileLoop condition body pos))
  breakStatement pos := v.hook (.stmt (.jump .leave pos))
  continueStatement pos := v.hook (.stmt (.jump .again pos))
  expressionAsStatement value pos := v.hook (.stmt (.expr value pos))
  binaryOp op left right pos := v.hook (.expr (.binary op left right pos))
  unaryOp op operand pos := v.hook (.expr (.unary op operand pos))
  literal kind value pos := v.hook (.expr (.literal kind value pos))
  location name pos := v.hook (.expr (.location name pos))
  type t := v.hook (.type t)

/-- Hooks for the classes say no less than one hook for all nodes. -/
theorem Visitor.visitor_hooks {σ : Type} (v : Visitor σ) : v.hooks.visitor = v := by
  have same : v.hooks.dispatch = v.hook := by
    funext n below
    unfold Hooks.dispatch
    split
    · rfl
    · split <;> rfl
    · split <;> rfl
    · rfl
  exact congrArg Visitor.mk same

/-! ## Nodes in order -/

/-- The visitor that notes every node it comes to, the last one first, and goes below none of the
classes in `pruned`. -/
def Visitor.noting (pruned : NodeClass → Bool) : Visitor (List Node) where
  hook n below seen := if pruned n.nodeClass then n :: seen else below (n :: seen)

namespace Node

/-- The nodes of the subtree, parents first, without what lies below the classes in `pruned`. -/
def visited (pruned : NodeClass → Bool) (n : Node) : List Node :=
  ((Visitor.noting pruned).visit n []).reverse

/-- All nodes of the subtree, parents first. -/
def preorder (n : Node) : List Node := n.visited fun _ => false

end Node

/-! ## Entering and leaving -/

/-- A step of a walk. -/
inductive WalkStep
  | enter (n : Node)
  | leave (n : Node)
deriving DecidableEq, Repr

/-- The visitor that logs every step, the last one first, and goes below none of the classes in
`pruned`. -/
def Visitor.tracing (pruned : NodeClass → Bool) : Visitor (List WalkStep) where
  hook n below log :=
    .leave n :: if pruned n.nodeClass then .enter n :: log else below (.enter n :: log)

/-- The steps of a walk over the subtree that goes below none of the classes in `pruned`. -/
def Node.trace (pruned : NodeClass → Bool) (n : Node) : List WalkStep :=
  ((Visitor.tracing pruned).visit n []).reverse

/-! ## Loops -/

/-- What loops matter to: a jump, or the name of a location. -/
inductive LoopSite
  | jump (jump : Jump)
  | location (name : String)
deriving DecidableEq, Repr

/-- The number of loops around a place, and the sites found so far with theirs, last one first. -/
structure LoopLog where
  depth : Nat
  sites : List (LoopSite × Nat)
deriving DecidableEq, Repr

namespace LoopLog

/-- The log outside of all loops. -/
def start : LoopLog := ⟨0, []⟩

/-- A site is found. -/
def note (log : LoopLog) (site : LoopSite) : LoopLog :=
  { log with sites := (site, log.depth) :: log.sites }

/-- A loop begins. -/
def enter (log : LoopLog) : LoopLog := { log with depth := log.depth + 1 }

/-- A loop ends. -/
def leave (log : LoopLog) : LoopLog := { log with depth := log.depth - 1 }

end LoopLog

/-- The visitor that counts the loops around jumps and locations; a condition lies inside its
loop. -/
def Visitor.countingLoops : Visitor LoopLog where
  hook n below log :=
    match n with
    | .stmt (.whileLoop ..) => (below log.enter).leave
    | .stmt (.jump jump _) => log.note (.jump jump)
    | .expr (.location name _) => log.note (.location name)
    | _ => below log

/-- Four hooks are enough to count loops. -/
theorem Visitor.countingLoops_eq :
    countingLoops = Hooks.visitor
      { whileStatement := fun _ _ _ rest log => (rest log.enter).leave
        breakStatement := fun _ _ log => log.note (.jump .leave)
        continueStatement := fun _ _ log => log.note (.jump .again)
        location := fun name _ _ log => log.note (.location name) } := by
  refine congrArg Visitor.mk (funext fun n => ?_)
  match n with
  | .program _ | .type _ => rfl
  | .stmt (.declare binding ..) => cases binding <;> rfl
  | .stmt (.jump jump _) => cases jump <;> rfl
  | .stmt (.print ..) | .stmt (.assign ..) | .stmt (.ifElse ..) => rfl
  | .stmt (.whileLoop ..) | .stmt (.expr ..) => rfl
  | .expr e => cases e <;> rfl

/-- The jumps and locations of the subtree, each with the number of loops around it. -/
def Node.loopDepths (n : Node) : List (LoopSite × Nat) :=
  (Visitor.countingLoops.visit n .start).sites.reverse

end ImpSyntax
