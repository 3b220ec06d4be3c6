import ImpSyntax.Tree.Annotations

/-!
# Nodes in order

The visitor that notes the nodes it comes to is a recursion over children: a node is followed by the
nodes below its first child, these by the nodes below its second child, and so on. A node is therefore
directly followed by its first child.

Main results:

* `Node.visited_eq`, `Node.preorder_eq` — the nodes in order, as a recursion over children.
* `Node.forall_mem_preorder` — what goes down from a node to its children holds of all nodes below it.
* `Node.getElem?_preorder_succ` — where the first child of a node stands.
-/

namespace ImpSyntax

/-! ## The recursion -/

/-- Where the visit of each child adds a log of its own in front of what was logged before, the visits
of all children add these logs in order. The log is kept with its last entry first, and the rest of
the state is the same behind every visit. -/
theorem Visitor.visitChildren_mk {σ α : Type} {v : Visitor σ} (mk : List α → σ)
    {log : Role × Node → List α} {n : Node}
    (h : ∀ child ∈ n.children, ∀ seen, v.visit child.2 (mk seen) = mk ((log child).reverse ++ seen))
    (seen : List α) :
    v.visitChildren n (mk seen) = mk ((n.children.flatMap log).reverse ++ seen) := by
  have below : ∀ (children : List (Role × Node)), (∀ child ∈ children, child ∈ n.children) →
      ∀ seen, children.foldl (fun state child => v.visit child.2 state) (mk seen) =
        mk ((children.flatMap log).reverse ++ seen) := by
    intro children among
    induction children with
    | nil => intro seen; rfl
    | cons child rest ih =>
      intro seen
      rw [List.foldl_cons, h child (among child List.mem_cons_self),
        ih fun other mem => among other (List.mem_cons_of_mem _ mem), List.flatMap_cons,
        List.reverse_append, List.append_assoc]
  exact below n.children (fun _ mem => mem) seen

theorem Visitor.visitChildren_eq {α : Type} {v : Visitor (List α)} {log : Role × Node → List α}
    {n : Node} (h : ∀ child ∈ n.children, ∀ seen, v.visit child.2 seen = (log child).reverse ++ seen)
    (seen : List α) : v.visitChildren n seen = (n.children.flatMap log).reverse ++ seen :=
  visitChildren_mk id h seen

/-- What is noted on a visit does not hang on what was noted before. -/
theorem Visitor.visit_noting (pruned : NodeClass → Bool) (n : Node) (seen : List Node) :
    (noting pruned).visit n seen = (n.visited pruned).reverse ++ seen := by
  have step : ∀ n seen, (noting pruned).visit n seen =
      if pruned n.nodeClass then n :: seen else (noting pruned).visitChildren n (n :: seen) :=
    fun n seen => congrFun ((noting pruned).visit_eq n) seen
  induction n using Node.induction generalizing seen with
  | step n ih =>
    rw [Node.visited, List.reverse_reverse, step, step]
    split
    · rfl
    · rw [visitChildren_eq ih, visitChildren_eq ih, List.append_assoc]
      rfl

namespace Node

/-- A node that is not pruned is followed by the nodes that are visited below its children. -/
theorem visited_eq (pruned : NodeClass → Bool) (n : Node) :
    n.visited pruned = n :: if pruned n.nodeClass then []
      else n.children.flatMap fun child => child.2.visited pruned := by
  rw [visited, Visitor.visit_eq]
  show (if pruned n.nodeClass then [n] else (Visitor.noting pruned).visitChildren n [n]).reverse = _
  split
  · rfl
  · rw [Visitor.visitChildren_eq fun child _ => Visitor.visit_noting pruned child.2,
      List.reverse_append, List.reverse_reverse]
    rfl

/-- A node is followed by the nodes below its children. -/
theorem preorder_eq (n : Node) :
    n.preorder = n :: n.children.flatMap fun child => child.2.preorder := by
  rw [preorder, visited_eq]
  rfl

/-! ## The nodes of the parts of a tree -/

@[simp] theorem preorder_type (t : TypeName) : (type t).preorder = [type t] := by
  rw [preorder_eq]
  rfl

@[simp] theorem preorder_binary (op : String) (l r : Expr) (pos : Position) :
    (expr (.binary op l r pos)).preorder =
      expr (.binary op l r pos) :: ((expr l).preorder ++ (expr r).preorder) := by
  rw [preorder_eq]
  simp [children]

@[simp] theorem preorder_unary (op : String) (e : Expr) (pos : Position) :
    (expr (.unary op e pos)).preorder = expr (.unary op e pos) :: (expr e).preorder := by
  rw [preorder_eq]
  simp [children]

@[simp] theorem preorder_literal (kind : LiteralKind) (value : String) (pos : Position) :
    (expr (.literal kind value pos)).preorder = [expr (.literal kind value pos)] := by
  rw [preorder_eq]
  rfl

@[simp] theorem preorder_location (name : String) (pos : Position) :
    (expr (.location name pos)).preorder = [expr (.location name pos)] := by
  rw [preorder_eq]
  rfl

/-- The nodes of the statements, one statement after the other. -/
def ofStmts (body : List Stmt) : List Node := body.flatMap fun s => (stmt s).preorder

@[simp] theorem ofStmts_nil : ofStmts [] = [] := rfl

@[simp] theorem ofStmts_cons (s : Stmt) (rest : List Stmt) :
    ofStmts (s :: rest) = (stmt s).preorder ++ ofStmts rest := rfl

@[simp] theorem flatMap_preorder_block (name : String) (body : List Stmt) :
    ((block name body).flatMap fun child => child.2.preorder) = ofStmts body := by
  rw [List.flatMap_def, map_block preorder, ← List.flatMap_def]
  rfl

@[simp] theorem preorder_program (p : Program) :
    (program p).preorder = program p :: ofStmts p.body := by
  rw [preorder_eq, children, flatMap_preorder_block]

@[simp] theorem preorder_print (e : Expr) (pos : Position) :
    (stmt (.print e pos)).preorder = stmt (.print e pos) :: (expr e).preorder := by
  rw [preorder_eq]
  simp [children]

@[simp] theorem preorder_assign (name : String) (namePos : Position) (e : Expr) (pos : Position) :
    (stmt (.assign name namePos e pos)).preorder =
      stmt (.assign name namePos e pos) :: expr (.location name namePos) :: (expr e).preorder := by
  rw [preorder_eq]
  simp [children]

@[simp] theorem preorder_declare (binding : Binding) (name : String) (type : Option TypeName)
    (init : Option Expr) (pos : Position) :
    (stmt (.declare binding name type init pos)).preorder =
      stmt (.declare binding name type init pos) ::
        (type.toList.map Node.type ++ init.toList.flatMap fun e => (expr e).preorder) := by
  rw [preorder_eq]
  cases type <;> cases init <;> simp [children]

@[simp] theorem preorder_ifElse (c : Expr) (thenBody : List Stmt) (elseBody : Option (List Stmt))
    (pos : Position) :
    (stmt (.ifElse c thenBody elseBody pos)).preorder =
      stmt (.ifElse c thenBody elseBody pos) ::
        ((expr c).preorder ++ (ofStmts thenBody ++ ofStmts (elseBody.getD []))) := by
  rw [preorder_eq]
  simp [children]

@[simp] theorem preorder_whileLoop (c : Expr) (body : List Stmt) (pos : Position) :
    (stmt (.whileLoop c body pos)).preorder =
      stmt (.whileLoop c body pos) :: ((expr c).preorder ++ ofStmts body) := by
  rw [preorder_eq]
  simp [children]

@[simp] theorem preorder_jump (j : Jump) (pos : Position) :
    (stmt (.jump j pos)).preorder = [stmt (.jump j pos)] := by
  rw [preorder_eq]
  rfl

@[simp] theorem preorder_expr (e : Expr) (pos : Position) :
    (stmt (.expr e pos)).preorder = stmt (.expr e pos) :: (expr e).preorder := by
  rw [preorder_eq]
  simp [children]

/-! ## Going down -/

theorem forall_mem_preorder {motive : Node → Prop}
    (down : ∀ n, motive n → ∀ child ∈ n.children, motive child.2) {n : Node} (h : motive n) :
    ∀ m ∈ n.preorder, motive m := by
  induction n using Node.induction with
  | step n ih =>
    intro m mem
    rw [preorder_eq, List.mem_cons, List.mem_flatMap] at mem
    rcases mem with rfl | ⟨child, among, below⟩
    · exact h
    · exact ih child among (down n h child among) m below

/-! ## The first child -/

/-- A node is directly followed by its first child. -/
theorem getElem?_preorder_succ (n : Node) {place : Nat} {m : Node} {child : Role × Node}
    (there : n.preorder[place]? = some m) (first : m.children.head? = some child) :
    n.preorder[place + 1]? = some child.2 := by
  induction n using Node.induction generalizing place with
  | step n ih =>
    have heads : ∀ other : Node, other.preorder[0]? = some other := by
      intro other
      rw [preorder_eq]
      rfl
    -- A place below the children lies below one of them, and so does the next one.
    have below : ∀ (children : List (Role × Node)), (∀ c ∈ children, c ∈ n.children) →
        ∀ place, (children.flatMap fun c => c.2.preorder)[place]? = some m →
          (children.flatMap fun c => c.2.preorder)[place + 1]? = some child.2 := by
      intro children among
      induction children with
      | nil => intro place none; simp at none
      | cons c rest ihRest =>
        intro place there
        rw [List.flatMap_cons] at there ⊢
        by_cases inside : place < c.2.preorder.length
        · rw [List.getElem?_append_left inside] at there
          have next := ih c (among c List.mem_cons_self) there
          have bound := (List.getElem?_eq_some_iff.mp next).1
          rw [List.getElem?_append_left bound, next]
        · rw [List.getElem?_append_right (Nat.le_of_not_lt inside)] at there
          rw [List.getElem?_append_right (by omega), Nat.sub_add_comm (Nat.le_of_not_lt inside)]
          exact ihRest (fun other mem => among other (List.mem_cons_of_mem _ mem)) _ there
    rw [preorder_eq] at there ⊢
    cases place with
    | zero =>
      cases there
      obtain ⟨rest, children⟩ := List.head?_eq_some_iff.mp first
      rw [List.getElem?_cons_succ, children, List.flatMap_cons, List.getElem?_append_left]
      · exact heads child.2
      · exact (List.getElem?_eq_some_iff.mp (heads child.2)).1
    | succ place =>
      rw [List.getElem?_cons_succ] at there ⊢
      exact below n.children (fun _ mem => mem) place there

end Node

end ImpSyntax
