import Mathlib.Data.List.Basic
import ImpSyntax.Proofs.SourceText.Written
import ImpSyntax.Proofs.Tree.Outline

/-!
# What an outline tells

With the names of attributes and the roles of children, a line tells the class of its node, the
role and the attributes, even where these hold what a line is punctuated with. The indentation tells
which lines belong to which child. What the outline does not tell are positions, when they are not
shown, and whether an empty `else` was written: the rest of the tree, its form, can be rebuilt.

Main results:

* `Node.outlineLine_inj` — what a line tells.
* `Node.rebuild_form` — a form, from its class, its attributes and its children.
* `outline_eq_iff` — two programs have the same outline exactly when they have the same form.
-/

namespace ImpSyntax

/-! ## Reading a line back -/

/-- Everything is shown but positions, from the given offset on. -/
def OutlineOptions.shapeFrom (offset : Nat) : OutlineOptions := { shape with offset := offset }

theorem NodeClass.name_inj {cls cls' : NodeClass} (h : cls.name = cls'.name) : cls = cls' := by
  revert h
  cases cls <;> cases cls' <;> decide

namespace Role

theorem number_inj {r r' : Role} (h : r.number = r'.number) : r.index = r'.index := by
  match r, r' with
  | ⟨_, none⟩, ⟨_, none⟩ => rfl
  | ⟨_, none⟩, ⟨_, some _⟩ => cases h
  | ⟨_, some _⟩, ⟨_, none⟩ => cases h
  | ⟨_, some i⟩, ⟨_, some j⟩ =>
    have digits : Nat.toDigits 10 i = Nat.toDigits 10 j := by simpa [number] using h
    have same : i = j := by
      rw [← Nat.ofDigitChars_ten_toDigits (n := i), digits, Nat.ofDigitChars_ten_toDigits]
    rw [same]

/-- The label tells the role. -/
theorem Plain.toString_inj {r r' : Role} (h : r.Plain) (h' : r'.Plain)
    (same : r.toString = r'.toString) : r = r' := by
  have ends : ∀ r : Role, ∀ c ∈ r.number.head?, c.isAlpha = false := by
    rintro ⟨name, _ | i⟩ c first <;> cases first
    rfl
  have texts := congrArg String.toList same
  rw [toList_toString, toList_toString] at texts
  obtain ⟨names, numbers⟩ := append_inj_of_run h h' (ends r) (ends r') texts
  cases r
  cases r'
  exact congr (congrArg Role.mk (String.toList_inj.mp names)) (number_inj numbers)

end Role

namespace Node

/-- What a line shows of the role. -/
def label : Option Role → List Char
  | none => []
  | some role => ' ' :: '<' :: (role.toString.toList ++ ['>'])

/-- What a line with the names of attributes shows of these. -/
def attributePart (n : Node) : List Char :=
  if n.attributes.isEmpty then [] else ' ' :: (n.attributeText true).toList

theorem toList_outlineLine_shapeFrom (offset : Nat) (role : Option Role) (n : Node) :
    (n.outlineLine (.shapeFrom offset) 0 role).toList =
      n.nodeClass.name.toList ++ (label role ++ ':' :: (n.attributePart ++ ['\n'])) := by
  have text : ∀ r : Role, s!" <{r}>:" = " <" ++ r.toString ++ ">:" := fun _ => rfl
  by_cases none : n.attributes = [] <;> cases role <;>
    simp [outlineLine, outlinePieces, OutlineOptions.shapeFrom, OutlineOptions.shape, attributePart,
      label, none, text]

theorem attributePart_inj {n m : Node} (h : n.attributePart = m.attributePart) :
    n.attributeText true = m.attributeText true := by
  have empty : ∀ n : Node, n.attributes.isEmpty = true → n.attributeText true = "" := by
    intro n none
    rw [attributeText, List.isEmpty_iff.mp none]
    rfl
  rw [attributePart, attributePart] at h
  split at h <;> split at h
  · rw [empty n ‹_›, empty m ‹_›]
  · cases h
  · cases h
  · exact String.toList_inj.mp (List.cons.inj h).2

theorem label_inj {role role' : Option Role} (plain : ∀ r ∈ role, r.Plain)
    (plain' : ∀ r ∈ role', r.Plain) (h : label role = label role') : role = role' := by
  cases role with
  | none =>
    cases role' with
    | none => rfl
    | some role' => cases h
  | some role =>
    cases role' with
    | none => cases h
    | some role' =>
      simp only [label, List.cons.injEq, List.append_cancel_right_eq, true_and] at h
      exact congrArg some
        ((plain role rfl).toString_inj (plain' role' rfl) (String.toList_inj.mp h))

/-- The attribute with its name. -/
def named (a : String × String) : String := a.1 ++ "=" ++ a.2

/-- The text of attributes with given names tells their values, if only the last one may have a
comma. -/
theorem values_inj {as bs : List (String × String)} (names : as.map Prod.fst = bs.map Prod.fst)
    (inner : ∀ a ∈ as.dropLast, ',' ∉ a.2.toList) (inner' : ∀ b ∈ bs.dropLast, ',' ∉ b.2.toList)
    (text : ", ".intercalate (as.map named) = ", ".intercalate (bs.map named)) : as = bs := by
  induction as generalizing bs with
  | nil =>
    cases bs with
    | nil => rfl
    | cons b bs => cases names
  | cons a as ih =>
    cases bs with
    | nil => cases names
    | cons b bs =>
      obtain ⟨name, value⟩ := a
      obtain ⟨name', value'⟩ := b
      obtain ⟨first, others⟩ := List.cons.inj names
      obtain rfl : name = name' := first
      cases as with
      | nil =>
        obtain rfl := List.map_eq_nil_iff.mp others.symm
        simpa [named] using text
      | cons a as =>
        cases bs with
        | nil => cases others
        | cons b bs =>
          rw [List.dropLast_cons_cons, List.forall_mem_cons] at inner inner'
          have chars : value.toList ++ ',' :: ' ' ::
                (", ".intercalate ((a :: as).map named)).toList =
              value'.toList ++ ',' :: ' ' :: (", ".intercalate ((b :: bs).map named)).toList := by
            simpa [named, String.intercalate_cons_cons] using congrArg String.toList text
          obtain ⟨same, behind⟩ := append_cons_inj_of_not_mem inner.1 inner'.1 chars
          obtain rfl : value = value' := String.toList_inj.mp same
          rw [ih others inner.2 inner'.2 (String.toList_inj.mp (List.cons.inj behind).2)]

theorem comma_not_mem_attribute {n : Node} : ∀ a ∈ n.attributes.dropLast, ',' ∉ a.2.toList := by
  match n with
  | program p => exact fun _ mem => by cases mem
  | type t => exact fun _ mem => by cases mem
  | expr e =>
    cases e with
    | literal kind value pos =>
      cases kind <;> simp [attributes, LiteralKind.name]
    | _ => exact fun _ mem => by cases mem
  | stmt s => cases s <;> exact fun _ mem => by cases mem

/-- The text of the attributes tells them, where the class says which attributes there are. -/
theorem attributes_inj {n m : Node} (cls : n.nodeClass = m.nodeClass)
    (text : n.attributeText true = m.attributeText true) : n.attributes = m.attributes :=
  values_inj (by rw [map_fst_attributes, map_fst_attributes, cls]) comma_not_mem_attribute
    comma_not_mem_attribute text

theorem outlineLine_inj {offset : Nat} {role role' : Option Role} {n m : Node}
    (plain : ∀ r ∈ role, r.Plain) (plain' : ∀ r ∈ role', r.Plain)
    (h : n.outlineLine (.shapeFrom offset) 0 role = m.outlineLine (.shapeFrom offset) 0 role') :
    role = role' ∧ n.nodeClass = m.nodeClass ∧ n.attributes = m.attributes := by
  have text := congrArg String.toList h
  rw [toList_outlineLine_shapeFrom, toList_outlineLine_shapeFrom] at text
  have noLetter : ∀ (role : Option Role) (rest : List Char),
      ∀ c ∈ (label role ++ ':' :: rest).head?, c.isAlpha = false := by
    rintro (_ | role) rest c mem <;> cases mem <;> rfl
  have noColon : ∀ {role : Option Role}, (∀ r ∈ role, r.Plain) → ':' ∉ label role := by
    intro role plain
    cases role with
    | none => simp [label]
    | some role =>
      simp [label, (plain role rfl).not_mem_toString (c := ':') rfl rfl (by decide) (by decide)]
  obtain ⟨names, text⟩ := append_inj_of_run NodeClass.isAlpha_of_mem_name
    NodeClass.isAlpha_of_mem_name (noLetter _ _) (noLetter _ _) text
  obtain ⟨labels, text⟩ := append_cons_inj_of_not_mem (noColon plain) (noColon plain') text
  have cls := NodeClass.name_inj (String.toList_inj.mp names)
  have part := List.append_cancel_right text
  exact ⟨label_inj plain plain' labels, cls, attributes_inj cls (attributePart_inj part)⟩

end Node

/-! ## The form of a tree -/

namespace Stmt

mutual

/-- The statement with an `else` in every conditional, an empty block where there was none. -/
def complete : Stmt → Stmt
  | ifElse c t e pos => ifElse c (completeList t) (some (completeElse e)) pos
  | whileLoop c b pos => whileLoop c (completeList b) pos
  | print e pos => print e pos
  | assign name namePos e pos => assign name namePos e pos
  | declare binding name type init pos => declare binding name type init pos
  | jump j pos => jump j pos
  | expr e pos => expr e pos

/-- The statements with an `else` in every conditional. -/
def completeList : List Stmt → List Stmt
  | [] => []
  | s :: rest => s.complete :: completeList rest

/-- The block of an `else`, empty if there was none, with an `else` in every conditional. -/
def completeElse : Option (List Stmt) → List Stmt
  | none => []
  | some body => completeList body

end

/-- The statement without its positions, with an `else` in every conditional. -/
def form (s : Stmt) : Stmt := s.erase.complete

theorem completeList_eraseList (body : List Stmt) :
    completeList (eraseList body) = body.map form := by
  induction body with
  | nil => rfl
  | cons s rest ih => rw [List.map_cons, ← ih, eraseList, relocateList, completeList]; rfl

theorem completeElse_relocateElse (body : Option (List Stmt)) :
    completeElse (relocateElse (fun _ => .unknown) body) = (body.getD []).map form := by
  cases body with
  | none => rfl
  | some body => exact completeList_eraseList body

end Stmt

/-- The program with an `else` in every conditional, an empty block where there was none. -/
def Program.complete (p : Program) : Program := ⟨Stmt.completeList p.body, p.pos⟩

namespace Node

/-- The node without positions, with an `else` in every conditional. -/
def form : Node → Node
  | program p => program p.erase.complete
  | stmt s => stmt s.form
  | expr e => expr e.erase
  | type t => type (t.relocate fun _ => .unknown)

@[simp] theorem nodeClass_form (n : Node) : n.form.nodeClass = n.nodeClass := by
  match n with
  | program p => rfl
  | type t => rfl
  | expr e => cases e <;> rfl
  | stmt s =>
    cases s with
    | declare b name t i pos => cases b <;> rfl
    | jump j pos => cases j <;> rfl
    | _ => rfl

@[simp] theorem attributes_form (n : Node) : n.form.attributes = n.attributes := by
  match n with
  | program p => rfl
  | type t => rfl
  | expr e => cases e <;> rfl
  | stmt s => cases s <;> rfl

theorem form_program (p : Program) :
    (program p).form = program ⟨p.body.map Stmt.form, .unknown⟩ := by
  rw [← Stmt.completeList_eraseList]
  rfl

theorem form_ifElse (c : Expr) (t : List Stmt) (e : Option (List Stmt)) (pos : Position) :
    (stmt (.ifElse c t e pos)).form = stmt (.ifElse c.erase (t.map Stmt.form)
      (some ((e.getD []).map Stmt.form)) .unknown) := by
  rw [← Stmt.completeList_eraseList, ← Stmt.completeElse_relocateElse]
  rfl

theorem form_whileLoop (c : Expr) (body : List Stmt) (pos : Position) :
    (stmt (.whileLoop c body pos)).form =
      stmt (.whileLoop c.erase (body.map Stmt.form) .unknown) := by
  rw [← Stmt.completeList_eraseList]
  rfl

theorem block_map_form (name : String) (body : List Stmt) :
    block name (body.map Stmt.form) =
      (block name body).map fun child => (child.1, child.2.form) := by
  rw [block, block, List.zipIdx_map, List.map_map, List.map_map]
  rfl

/-- The children of a form are forms, in the same roles. -/
theorem children_form (n : Node) :
    n.form.children = n.children.map fun child => (child.1, child.2.form) := by
  match n with
  | program p =>
    rw [form_program]
    exact block_map_form "statements" p.body
  | type t => rfl
  | expr e => cases e <;> rfl
  | stmt s =>
    cases s with
    | declare b name t i pos => cases t <;> cases i <;> rfl
    | ifElse c t e pos =>
      rw [form_ifElse, children, children, List.map_append, List.map_cons, ← block_map_form,
        ← block_map_form]
      rfl
    | whileLoop c body pos =>
      rw [form_whileLoop, children, children, List.map_cons, ← block_map_form]
      rfl
    | _ => rfl

/-! ## A form from its parts -/

/-- The statements among children in the role of the given name. -/
def stmtsIn (name : String) (children : List (Role × Node)) : List Stmt :=
  children.filterMap fun
    | (role, .stmt s) => if role.name = name then some s else none
    | _ => none

/-- The first expression among the children. -/
def exprIn (children : List (Role × Node)) : Option Expr :=
  children.findSome? fun
    | (_, .expr e) => some e
    | _ => none

/-- The first type among the children. -/
def typeIn (children : List (Role × Node)) : Option TypeName :=
  children.findSome? fun
    | (_, .type t) => some t
    | _ => none

/-- The kind with the given name. -/
def kindNamed (name : String) : Option LiteralKind :=
  [.int, .float, .char, .bool].find? fun kind => kind.name == name

/-- The form of a node of the class, with the given values of attributes, and the given children. -/
def rebuild : NodeClass → List String → List (Role × Node) → Option Node
  | .program, _, body => some (.program ⟨stmtsIn "statements" body, .unknown⟩)
  | .printStatement, _, [(_, .expr e)] => some (.stmt (.print e .unknown))
  | .assignmentStatement, _, [(_, .expr (.location name _)), (_, .expr e)] =>
    some (.stmt (.assign name .unknown e .unknown))
  | .varDefinition, [name], parts =>
    some (.stmt (.declare .var name (typeIn parts) (exprIn parts) .unknown))
  | .constDefinition, [name], parts =>
    some (.stmt (.declare .const name (typeIn parts) (exprIn parts) .unknown))
  | .ifStatement, _, (_, .expr c) :: blocks =>
    some (.stmt (.ifElse c (stmtsIn "then" blocks) (some (stmtsIn "else" blocks)) .unknown))
  | .whileStatement, _, (_, .expr c) :: body =>
    some (.stmt (.whileLoop c (stmtsIn "body" body) .unknown))
  | .breakStatement, _, _ => some (.stmt (.jump .leave .unknown))
  | .continueStatement, _, _ => some (.stmt (.jump .again .unknown))
  | .expressionAsStatement, _, [(_, .expr e)] => some (.stmt (.expr e .unknown))
  | .binaryOp, [op], [(_, .expr l), (_, .expr r)] => some (.expr (.binary op l r .unknown))
  | .unaryOp, [op], [(_, .expr e)] => some (.expr (.unary op e .unknown))
  | .literal, [kind, value], _ =>
    (kindNamed kind).map fun kind => .expr (.literal kind value .unknown)
  | .location, [name], _ => some (.expr (.location name .unknown))
  | .type, [name], _ => some (.type ⟨name, .unknown⟩)
  | _, _, _ => none

theorem stmtsIn_block (name other : String) (body : List Stmt) :
    stmtsIn name (block other body) = if other = name then body else [] := by
  rw [stmtsIn, block, List.filterMap_map]
  by_cases same : other = name
  · rw [if_pos same]
    exact (List.filterMap_eq_map_iff_forall_eq_some.mpr fun _ _ => if_pos same).trans
      (List.zipIdx_map_fst 0 body)
  · rw [if_neg same]
    exact List.filterMap_eq_nil_iff.mpr fun _ _ => if_neg same

theorem stmtsIn_append (name : String) (children others : List (Role × Node)) :
    stmtsIn name (children ++ others) = stmtsIn name children ++ stmtsIn name others :=
  List.filterMap_append

/-- The class, the values of attributes and the children tell a form. -/
theorem rebuild_form (n : Node) :
    rebuild n.form.nodeClass (n.form.attributes.map Prod.snd) n.form.children = some n.form := by
  match n with
  | program p =>
    rw [form_program, children, nodeClass, rebuild, stmtsIn_block, if_pos rfl]
  | type t => rfl
  | expr e =>
    cases e with
    | literal kind value pos => cases kind <;> rfl
    | _ => rfl
  | stmt s =>
    cases s with
    | declare b name t i pos => cases b <;> cases t <;> cases i <;> rfl
    | ifElse c t e pos =>
      simp [form_ifElse, nodeClass, children, rebuild, stmtsIn_append, stmtsIn_block]
    | whileLoop c b pos =>
      simp [form_whileLoop, nodeClass, children, rebuild, stmtsIn_block]
    | jump j pos => cases j <;> rfl
    | _ => rfl

/-! ## Outlines and forms -/

theorem map_eq_map_of_imp {α β γ δ : Type} {f : α → β} {f' : δ → β} {g : α → γ} {g' : δ → γ}
    {xs : List α} {ys : List δ} (imp : ∀ x ∈ xs, ∀ y ∈ ys, f x = f' y → g x = g' y)
    (h : xs.map f = ys.map f') : xs.map g = ys.map g' := by
  induction xs generalizing ys with
  | nil =>
    cases ys with
    | nil => rfl
    | cons y ys => cases h
  | cons x xs ih =>
    cases ys with
    | nil => cases h
    | cons y ys =>
      rw [List.map_cons, List.map_cons, List.cons.injEq] at h
      have others := ih (fun x hx y hy =>
        imp x (List.mem_cons_of_mem _ hx) y (List.mem_cons_of_mem _ hy)) h.2
      rw [List.map_cons, List.map_cons, imp x List.mem_cons_self y List.mem_cons_self h.1, others]

theorem outlineLine_form (k offset : Nat) (role : Option Role) (n : Node) :
    n.form.outlineLine (.shapeFrom k) offset role = n.outlineLine (.shapeFrom k) offset role := by
  simp only [outlineLine, outlinePieces, attributeText, nodeClass_form, attributes_form]
  rfl

/-- The outline shows only the form. -/
theorem outlineLines_form (k offset : Nat) (role : Option Role) (n : Node) :
    n.form.outlineLines (.shapeFrom k) offset role = n.outlineLines (.shapeFrom k) offset role := by
  induction n using Node.induction generalizing offset role with
  | step n ih =>
    rw [outlineLines_eq, outlineLines_eq, outlineLine_form, children_form, List.flatMap_map,
      List.flatMap_def, List.flatMap_def]
    congr 2
    exact List.map_congr_left fun child among => ih child among _ _

/-- The lines of a subtree tell the role of its root and the form. -/
theorem form_eq_of_outlineLines_eq {k offset : Nat} {role role' : Option Role} {n m : Node}
    (oneLine : n.OneLine) (oneLine' : m.OneLine) (plain : ∀ r ∈ role, r.Plain)
    (plain' : ∀ r ∈ role', r.Plain)
    (h : n.outlineLines (.shapeFrom k) offset role = m.outlineLines (.shapeFrom k) offset role') :
    role = role' ∧ n.form = m.form := by
  induction n using Node.induction generalizing m offset role role' with
  | step n ih =>
    rw [outlineLines_eq, outlineLines_eq, List.cons.injEq, outlineLine_eq,
      outlineLine_eq _ _ role', List.flatMap_def, List.flatMap_def] at h
    obtain ⟨first, below⟩ := h
    obtain ⟨roles, cls, attributes⟩ :=
      outlineLine_inj plain plain' ((String.append_right_inj _).mp first)
    have isBlock : ∀ n : Node, ∀ lines ∈ n.children.map (fun child => child.2.outlineLines
        (.shapeFrom k) (offset + OutlineOptions.indentation) (some child.1)),
        IsBlock indent (offset + OutlineOptions.indentation) lines := by
      intro n lines mem
      obtain ⟨child, -, rfl⟩ := List.mem_map.mp mem
      exact isBlock_outlineLines ..
    have children : n.form.children = m.form.children := by
      rw [children_form, children_form]
      refine map_eq_map_of_imp (fun child among child' among' same => ?_)
        (flatten_inj_of_isBlock (isBlock n) (isBlock m) below)
      obtain ⟨roles, forms⟩ := ih child among (oneLine.child among) (oneLine'.child among')
        (plain_of_mem_children among) (plain_of_mem_children among') same
      rw [Option.some.inj roles, forms]
    refine ⟨roles, Option.some.inj ?_⟩
    rw [← rebuild_form n, ← rebuild_form m, nodeClass_form, nodeClass_form, cls, attributes_form,
      attributes_form, attributes, children]

theorem outline_eq_iff_form_eq {offset : Nat} {n m : Node} (hn : n.OneLine) (hm : m.OneLine) :
    n.outline (.shapeFrom offset) = m.outline (.shapeFrom offset) ↔ n.form = m.form := by
  constructor
  · intro h
    have lines := join_inj_of_isLine (isLine_of_mem_outlineLines hn (by simp))
      (isLine_of_mem_outlineLines hm (by simp)) h
    exact (form_eq_of_outlineLines_eq hn hm (by simp) (by simp) lines).2
  · intro h
    rw [outline, outline, ← outlineLines_form, h, outlineLines_form]

end Node

/-- With the names of attributes and the roles shown, and the positions left out, the outline of a
program tells it up to its positions, and up to whether an `else` is empty or absent. -/
theorem outline_eq_iff {p q : Program} (hp : (Node.program p).OneLine)
    (hq : (Node.program q).OneLine) (offset : Nat) :
    (Node.program p).outline (.shapeFrom offset) = (Node.program q).outline (.shapeFrom offset) ↔
      p.erase.complete = q.erase.complete := by
  rw [Node.outline_eq_iff_form_eq hp hq]
  exact ⟨Node.program.inj, congrArg Node.program⟩

/-- An empty `else` is shown like none, and a statement moved into the `else` is seen. -/
theorem outline_eq_iff_of_conditional :
    let condition : Expr := .binary "<" (.location "a" ⟨1, 4⟩)
      (.literal .char "'>, <else[0]>: '" ⟨1, 8⟩) ⟨1, 4⟩
    let p : Program := ⟨[.ifElse condition [.jump .leave ⟨1, 29⟩] none ⟨1, 1⟩], ⟨1, 1⟩⟩
    let q : Program := ⟨[.ifElse condition.erase [.jump .leave ⟨0, 0⟩] (some []) ⟨0, 0⟩], ⟨0, 0⟩⟩
    let r : Program := ⟨[.ifElse condition.erase [] (some [.jump .leave ⟨0, 0⟩]) ⟨0, 0⟩], ⟨0, 0⟩⟩
    (Node.program p).OneLine ∧ (Node.program q).OneLine ∧ (Node.program r).OneLine ∧
      (Node.program p).outline (.shapeFrom 4) = (Node.program q).outline (.shapeFrom 4) ∧
      (Node.program p).outline (.shapeFrom 4) ≠ (Node.program r).outline (.shapeFrom 4) := by
  intro condition p q r
  obtain ⟨hp, hq, hr⟩ : (Node.program p).OneLine ∧ (Node.program q).OneLine ∧
      (Node.program r).OneLine := by
    refine ⟨?_, ?_, ?_⟩ <;>
      simp [p, q, r, condition, Node.OneLine, Node.attributes, LiteralKind.name, Expr.erase,
        Expr.relocate] <;>
      (rintro _ _ (⟨rfl, rfl⟩ | ⟨rfl, rfl⟩) <;> decide)
  have same : p.erase.complete = q.erase.complete := rfl
  have other : p.erase.complete ≠ r.erase.complete := by decide
  exact ⟨hp, hq, hr, (outline_eq_iff hp hq 4).mpr same,
    fun equal => other ((outline_eq_iff hp hr 4).mp equal)⟩

end ImpSyntax
