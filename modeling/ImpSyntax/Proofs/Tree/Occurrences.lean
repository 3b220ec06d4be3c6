import ImpSyntax.Proofs.Tree.Preorder

/-!
# Where nodes occur

A node that occurs below a root has the nodes above it, up to the root, and a role in the nearest of
them; the same node can occur more than once. The occurrences are listed by a recursion of its own
over the fields of expressions, statements and programs, one clause for each form. It comes to the
same as going from a node to its children.

Main results:

* `Node.occurrencesFrom_eq` — the occurrences below a node are those below its children.
* `Node.map_node_occurrences`, `Node.length_preorder` — they are the nodes in order, as many as the
  size says.
* `Node.exists_parent_of_mem_occurrences` — an occurrence is that of the root, or of a child of the
  nearest node above it.
* `Node.occurrencesFrom_eq_map` — it makes no difference what lies above the node but that it does.
* `Node.take_drop_occurrences` — the occurrences in a subtree stand together.
-/

namespace ImpSyntax

/-- An occurrence of a node: the nodes above it, the nearest one first, and its role in that one. -/
structure Occurrence where
  above : List Node
  role : Option Role
  node : Node
deriving DecidableEq, Repr

namespace Occurrence

/-- The occurrence is that of a child of the node that occurs as `p`. -/
def IsChildOf (o p : Occurrence) : Prop :=
  o.above = p.node :: p.above ∧ ∃ role, o.role = some role ∧ (role, o.node) ∈ p.node.children

/-- The occurrence with more nodes above all others. -/
def under (above : List Node) (o : Occurrence) : Occurrence := { o with above := o.above ++ above }

end Occurrence

/-! ## Listing them -/

/-- The occurrences in the expression, which itself occurs as given. -/
def Expr.occurrences (above : List Node) (role : Option Role) : Expr → List Occurrence
  | binary op l r pos =>
    let here := Node.expr (binary op l r pos)
    ⟨above, role, here⟩ :: (l.occurrences (here :: above) (some (.field "left")) ++
      r.occurrences (here :: above) (some (.field "right")))
  | unary op e pos =>
    let here := Node.expr (unary op e pos)
    ⟨above, role, here⟩ :: e.occurrences (here :: above) (some (.field "expression"))
  | literal kind value pos => [⟨above, role, .expr (literal kind value pos)⟩]
  | location name pos => [⟨above, role, .expr (location name pos)⟩]

namespace Stmt

mutual

/-- The occurrences in the statement, which itself occurs as given. -/
def occurrences (above : List Node) (role : Option Role) : Stmt → List Occurrence
  | print e pos =>
    let here := Node.stmt (print e pos)
    ⟨above, role, here⟩ :: e.occurrences (here :: above) (some (.field "expression"))
  | assign name namePos e pos =>
    let here := Node.stmt (assign name namePos e pos)
    ⟨above, role, here⟩ ::
      ⟨here :: above, some (.field "location"), .expr (.location name namePos)⟩ ::
      e.occurrences (here :: above) (some (.field "expression"))
  | declare binding name type init pos =>
    let here := Node.stmt (declare binding name type init pos)
    ⟨above, role, here⟩ ::
      ((type.map fun t => Occurrence.mk (here :: above) (some (.field "dtype")) (.type t)).toList ++
        (init.map fun e => e.occurrences (here :: above) (some (.field "expression"))).getD [])
  | ifElse c thenBody elseBody pos =>
    let here := Node.stmt (ifElse c thenBody elseBody pos)
    ⟨above, role, here⟩ :: (c.occurrences (here :: above) (some (.field "condition")) ++
      (occurrencesList (here :: above) "then" 0 thenBody ++
        occurrencesElse (here :: above) elseBody))
  | whileLoop c body pos =>
    let here := Node.stmt (whileLoop c body pos)
    ⟨above, role, here⟩ :: (c.occurrences (here :: above) (some (.field "condition")) ++
      occurrencesList (here :: above) "body" 0 body)
  | jump j pos => [⟨above, role, .stmt (jump j pos)⟩]
  | expr e pos =>
    let here := Node.stmt (expr e pos)
    ⟨above, role, here⟩ :: e.occurrences (here :: above) (some (.field "expression"))

/-- The occurrences in the statements of a block, the first of which has the given number. -/
def occurrencesList (above : List Node) (name : String) (number : Nat) :
    List Stmt → List Occurrence
  | [] => []
  | s :: rest =>
    s.occurrences above (some (.item name number)) ++
      occurrencesList above name (number + 1) rest

/-- The occurrences in the block of an `else`, if there is one. -/
def occurrencesElse (above : List Node) : Option (List Stmt) → List Occurrence
  | none => []
  | some body => occurrencesList above "else" 0 body

end

end Stmt

namespace Node

/-- The occurrences in the subtree of a node that itself occurs as given. -/
def occurrencesFrom (above : List Node) (role : Option Role) : Node → List Occurrence
  | program p =>
    ⟨above, role, program p⟩ :: Stmt.occurrencesList (program p :: above) "statements" 0 p.body
  | stmt s => s.occurrences above role
  | expr e => e.occurrences above role
  | type t => [⟨above, role, type t⟩]

/-- All occurrences in the subtree, with the node as the root. -/
def occurrences (n : Node) : List Occurrence := n.occurrencesFrom [] none

/-! ## From a node to its children -/

theorem occurrencesList_eq (above : List Node) (name : String) (number : Nat) (body : List Stmt) :
    Stmt.occurrencesList above name number body =
      (body.zipIdx number).flatMap fun (s, i) => s.occurrences above (some (.item name i)) := by
  induction body generalizing number with
  | nil => rfl
  | cons s rest ih => rw [Stmt.occurrencesList, ih, List.zipIdx_cons, List.flatMap_cons]

/-- The occurrences in a block are those below its statements as children. -/
theorem occurrencesList_block (above : List Node) (name : String) (body : List Stmt) :
    Stmt.occurrencesList above name 0 body =
      (block name body).flatMap fun child => child.2.occurrencesFrom above (some child.1) := by
  rw [occurrencesList_eq, block, List.flatMap_map]
  rfl

theorem occurrencesFrom_eq (above : List Node) (role : Option Role) (n : Node) :
    n.occurrencesFrom above role = ⟨above, role, n⟩ ::
      n.children.flatMap fun child => child.2.occurrencesFrom (n :: above) (some child.1) := by
  match n with
  | program p => rw [children, ← occurrencesList_block]; rfl
  | type t => rfl
  | expr e => cases e <;> simp [occurrencesFrom, Expr.occurrences, children]
  | stmt s =>
    cases s with
    | declare b name t i pos =>
      cases t <;> cases i <;> simp [occurrencesFrom, Stmt.occurrences, children]
    | ifElse c t e pos =>
      rw [children, List.cons_append, List.flatMap_cons, List.flatMap_append,
        ← occurrencesList_block, ← occurrencesList_block]
      cases e <;> rfl
    | whileLoop c b pos =>
      rw [children, List.flatMap_cons, ← occurrencesList_block]
      rfl
    | _ => simp [occurrencesFrom, Stmt.occurrences, Expr.occurrences, children]

/-! ## The nodes that occur -/

theorem map_node_occurrencesFrom (above : List Node) (role : Option Role) (n : Node) :
    (n.occurrencesFrom above role).map Occurrence.node = n.preorder := by
  induction n using Node.induction generalizing above role with
  | step n ih =>
    rw [occurrencesFrom_eq, preorder_eq, List.map_cons, List.map_flatMap, List.flatMap_def,
      List.flatMap_def]
    congr 2
    exact List.map_congr_left fun child among => ih child among _ _

theorem map_node_occurrences (n : Node) : n.occurrences.map Occurrence.node = n.preorder :=
  n.map_node_occurrencesFrom [] none

theorem length_preorder (n : Node) : n.preorder.length = n.size := by
  induction n using Node.induction with
  | step n ih =>
    have below : (n.children.map fun child => child.2.preorder.length) =
        n.children.map fun child => child.2.size := List.map_congr_left ih
    rw [preorder_eq, size_eq, List.length_cons, List.length_flatMap, below, Nat.add_comm]
    rfl

theorem length_occurrencesFrom (above : List Node) (role : Option Role) (n : Node) :
    (n.occurrencesFrom above role).length = n.size := by
  rw [← length_preorder, ← map_node_occurrencesFrom above role, List.length_map]

/-! ## What lies above -/

theorem exists_parent_of_mem_occurrencesFrom {above : List Node} {role : Option Role} {n : Node}
    {o : Occurrence} (mem : o ∈ n.occurrencesFrom above role) :
    o = ⟨above, role, n⟩ ∨ ∃ p ∈ n.occurrencesFrom above role, o.IsChildOf p := by
  induction n using Node.induction generalizing above role with
  | step n ih =>
    rw [occurrencesFrom_eq, List.mem_cons, List.mem_flatMap] at mem
    rcases mem with same | ⟨child, among, below⟩
    · exact .inl same
    · right
      rw [occurrencesFrom_eq]
      rcases ih child among below with rfl | ⟨p, there, isChild⟩
      · exact ⟨_, List.mem_cons_self, rfl, child.1, rfl, among⟩
      · exact ⟨p, List.mem_cons_of_mem _ (List.mem_flatMap.mpr ⟨child, among, there⟩), isChild⟩

/-- An occurrence below the root is that of a child of the nearest node above it, in its role. -/
theorem exists_parent_of_mem_occurrences {n : Node} {o : Occurrence} (mem : o ∈ n.occurrences) :
    o = ⟨[], none, n⟩ ∨ ∃ p ∈ n.occurrences, o.IsChildOf p :=
  exists_parent_of_mem_occurrencesFrom mem

/-- What is above the node is above all nodes in its subtree. -/
theorem suffix_above_of_mem_occurrencesFrom {above : List Node} {role : Option Role} {n : Node}
    {o : Occurrence} (mem : o ∈ n.occurrencesFrom above role) : above <:+ o.above := by
  induction n using Node.induction generalizing above role with
  | step n ih =>
    rw [occurrencesFrom_eq, List.mem_cons, List.mem_flatMap] at mem
    rcases mem with rfl | ⟨child, among, below⟩
    · exact List.suffix_refl _
    · exact (List.suffix_cons n above).trans (ih child among below)

theorem occurrencesFrom_append (above below : List Node) (role : Option Role) (n : Node) :
    n.occurrencesFrom (below ++ above) role =
      (n.occurrencesFrom below role).map (Occurrence.under above) := by
  induction n using Node.induction generalizing below role with
  | step n ih =>
    rw [occurrencesFrom_eq, occurrencesFrom_eq below, List.map_cons, List.map_flatMap,
      List.flatMap_def, List.flatMap_def]
    congr 2
    exact List.map_congr_left fun child among => ih child among (n :: below) (some child.1)

/-- The occurrences in a subtree are those with its node as the root, apart from what lies above
that node and its role. -/
theorem occurrencesFrom_eq_map (above : List Node) (role : Option Role) (n : Node) :
    n.occurrencesFrom above role =
      ⟨above, role, n⟩ :: n.occurrences.tail.map (Occurrence.under above) := by
  have shifted := occurrencesFrom_append above [] role n
  rw [List.nil_append] at shifted
  rw [shifted, occurrences, occurrencesFrom_eq, occurrencesFrom_eq [] none]
  rfl

/-! ## Subtrees -/

section Runs

variable {α β : Type} {f : α → List β} {xs : List α} {i : Nat} {b : β}

/-- A place in runs put together is one in a run, with other runs behind it. -/
theorem exists_drop_flatMap (h : (xs.flatMap f)[i]? = some b) :
    ∃ x ∈ xs, ∃ k rest, (f x)[k]? = some b ∧ (xs.flatMap f).drop i = (f x).drop k ++ rest := by
  induction xs generalizing i with
  | nil => simp at h
  | cons x xs ih =>
    rw [List.flatMap_cons] at h ⊢
    by_cases inside : i < (f x).length
    · rw [List.getElem?_append_left inside] at h
      exact ⟨x, List.mem_cons_self, i, xs.flatMap f, h,
        List.drop_append_of_le_length (Nat.le_of_lt inside)⟩
    · have past := Nat.le_of_not_lt inside
      rw [List.getElem?_append_right past] at h
      obtain ⟨y, among, k, rest, found, behind⟩ := ih h
      refine ⟨y, List.mem_cons_of_mem x among, k, rest, found, ?_⟩
      rw [List.drop_append, List.drop_of_length_le past, List.nil_append, behind]

end Runs

/-- What is listed from an occurrence on begins with the occurrences in its subtree. -/
theorem occurrencesFrom_prefix_drop {above : List Node} {role : Option Role} {n : Node} {i : Nat}
    {o : Occurrence} (h : (n.occurrencesFrom above role)[i]? = some o) :
    o.node.occurrencesFrom o.above o.role <+: (n.occurrencesFrom above role).drop i := by
  induction n using Node.induction generalizing above role i with
  | step n ih =>
    cases i with
    | zero =>
      rw [occurrencesFrom_eq] at h
      cases h
      exact List.prefix_refl _
    | succ i =>
      rw [occurrencesFrom_eq, List.getElem?_cons_succ] at h
      rw [occurrencesFrom_eq above role n]
      obtain ⟨child, among, k, rest, found, behind⟩ := exists_drop_flatMap h
      rw [List.drop_succ_cons, behind]
      exact (ih child among found).trans (List.prefix_append _ rest)

theorem add_size_le_length {n : Node} {i : Nat} {o : Occurrence}
    (h : n.occurrences[i]? = some o) : i + o.node.size ≤ n.occurrences.length := by
  have inside := (List.getElem?_eq_some_iff.mp h).1
  have le := (occurrencesFrom_prefix_drop h).length_le
  rw [length_occurrencesFrom, List.length_drop] at le
  change o.node.size ≤ n.occurrences.length - i at le
  omega

/-- The occurrences in a subtree stand together. -/
theorem take_drop_occurrences {n : Node} {i : Nat} {o : Occurrence}
    (h : n.occurrences[i]? = some o) :
    (n.occurrences.drop i).take o.node.size =
      ⟨o.above, o.role, o.node⟩ :: o.node.occurrences.tail.map (Occurrence.under o.above) := by
  have whole := List.prefix_iff_eq_take.mp (occurrencesFrom_prefix_drop h)
  rw [length_occurrencesFrom] at whole
  rw [← occurrencesFrom_eq_map]
  exact whole.symm

end Node

end ImpSyntax
