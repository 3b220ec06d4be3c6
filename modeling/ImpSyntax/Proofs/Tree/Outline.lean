import ImpSyntax.Tree.Outline
import ImpSyntax.Proofs.Lines
import ImpSyntax.Proofs.Tree.Preorder

/-!
# The lines of an outline

An outline has a line for each node, if no attribute has a newline. A line is indented by the
offset, and the lines of a subtree stand together: all lines behind the first are indented deeper
than it. Lines and blocks of lines can therefore be told apart in a text.

Main results:

* `join_inj_of_isLine`, `flatten_inj_of_isBlock` — lines in a row, and blocks of lines in a row, can
  be told apart.
* `Node.isLine_of_mem_outlineLines` — what an outline is made of are lines.
* `Node.isBlock_outlineLines` — the lines of a subtree are a block.
-/

namespace ImpSyntax

/-! ## Runs, lines and blocks -/

section Runs

variable {α : Type}

/-- A run of elements that pass a test is over where one follows that does not. -/
theorem append_inj_of_run {p : α → Bool} {a b s t : List α} (ha : ∀ x ∈ a, p x = true)
    (hb : ∀ x ∈ b, p x = true) (hs : ∀ x ∈ s.head?, p x = false) (ht : ∀ x ∈ t.head?, p x = false)
    (h : a ++ s = b ++ t) : a = b ∧ s = t := by
  have run : ∀ {a s : List α}, (∀ x ∈ a, p x = true) → (∀ x ∈ s.head?, p x = false) →
      (a ++ s).takeWhile p = a := by
    intro a s ha hs
    rw [List.takeWhile_append_of_pos ha]
    cases s with
    | nil => simp
    | cons x s => simp [hs x rfl]
  have same : a = b := by rw [← run ha hs, h, run hb ht]
  subst same
  exact ⟨rfl, List.append_cancel_left h⟩

/-- What comes in front of the first `c` is told by the whole. -/
theorem append_cons_inj_of_not_mem [DecidableEq α] {c : α} {a b s t : List α} (ha : c ∉ a)
    (hb : c ∉ b) (h : a ++ c :: s = b ++ c :: t) : a = b ∧ s = t := by
  have others : ∀ {a : List α}, c ∉ a → ∀ x ∈ a, (x != c) = true :=
    fun within x mem => bne_iff_ne.mpr fun same => within (same ▸ mem)
  obtain ⟨same, behind⟩ := append_inj_of_run (others ha) (others hb) (by simp) (by simp) h
  exact ⟨same, (List.cons.inj behind).2⟩

/-- A block: its first element has the depth `k`, all others are deeper. -/
def IsBlock (depth : α → Nat) (k : Nat) (block : List α) : Prop :=
  ∃ first rest, block = first :: rest ∧ depth first = k ∧ ∀ x ∈ rest, k < depth x

theorem IsBlock.le {depth : α → Nat} {k : Nat} {block : List α} (h : IsBlock depth k block) {x : α}
    (mem : x ∈ block) : k ≤ depth x := by
  obtain ⟨first, rest, rfl, level, deeper⟩ := h
  rcases List.mem_cons.mp mem with rfl | behind
  · exact Nat.le_of_eq level.symm
  · exact Nat.le_of_lt (deeper x behind)

/-- Blocks of one depth in a row can be told apart. -/
theorem flatten_inj_of_isBlock {depth : α → Nat} {k : Nat} {xs ys : List (List α)}
    (hx : ∀ block ∈ xs, IsBlock depth k block) (hy : ∀ block ∈ ys, IsBlock depth k block)
    (h : xs.flatten = ys.flatten) : xs = ys := by
  have heads : ∀ {xs : List (List α)}, (∀ block ∈ xs, IsBlock depth k block) →
      ∀ x ∈ xs.flatten.head?, decide (k < depth x) = false := by
    intro xs hx x first
    cases xs with
    | nil => cases first
    | cons block xs =>
      obtain ⟨y, rest, rfl, level, -⟩ := hx block List.mem_cons_self
      cases first
      simp [level]
  induction xs generalizing ys with
  | nil =>
    cases ys with
    | nil => rfl
    | cons block ys =>
      obtain ⟨y, rest, rfl, -⟩ := hy block List.mem_cons_self
      cases h
  | cons block xs ih =>
    obtain ⟨x, rest, rfl, -, deeper⟩ := hx block List.mem_cons_self
    cases ys with
    | nil => cases h
    | cons block ys =>
      obtain ⟨y, rest', rfl, -, deeper'⟩ := hy block List.mem_cons_self
      rw [List.forall_mem_cons] at hx hy
      rw [List.flatten_cons, List.flatten_cons, List.cons_append, List.cons_append,
        List.cons.injEq] at h
      obtain ⟨rfl, behind⟩ := append_inj_of_run (p := fun x => decide (k < depth x))
        (by simpa using deeper) (by simpa using deeper') (heads hx.2) (heads hy.2) h.2
      rw [h.1, ih hx.2 hy.2 behind]

end Runs

/-- The text is a line: it ends in a newline and has no other. -/
def IsLine (line : String) : Prop := ∃ content, line.toList = content ++ ['\n'] ∧ '\n' ∉ content

/-- Lines in a row can be told apart. -/
theorem join_inj_of_isLine {xs ys : List String} (hx : ∀ line ∈ xs, IsLine line)
    (hy : ∀ line ∈ ys, IsLine line) (h : String.join xs = String.join ys) : xs = ys := by
  have text := congrArg String.toList h
  rw [String.toList_join, String.toList_join] at text
  clear h
  induction xs generalizing ys with
  | nil =>
    cases ys with
    | nil => rfl
    | cons line ys =>
      obtain ⟨content, is, -⟩ := hy line List.mem_cons_self
      rw [List.flatMap_cons, is] at text
      simp at text
  | cons line xs ih =>
    obtain ⟨content, is, within⟩ := hx line List.mem_cons_self
    cases ys with
    | nil =>
      rw [List.flatMap_cons, is] at text
      simp at text
    | cons other ys =>
      obtain ⟨content', is', within'⟩ := hy other List.mem_cons_self
      rw [List.forall_mem_cons] at hx hy
      rw [List.flatMap_cons, List.flatMap_cons, is, is', List.append_assoc,
        List.append_assoc] at text
      obtain ⟨rfl, behind⟩ := append_cons_inj_of_not_mem within within' text
      rw [String.toList_inj.mp (is.trans is'.symm), ih hx.2 hy.2 behind]

/-! ## The line of a node -/

/-- The number of spaces that the line begins with. -/
def indent (line : String) : Nat := (line.toList.takeWhile (· == ' ')).length

theorem newline_not_mem_intercalate {separator : String} {texts : List String}
    (between : '\n' ∉ separator.toList) (within : ∀ text ∈ texts, '\n' ∉ text.toList) :
    '\n' ∉ (separator.intercalate texts).toList := by
  induction texts with
  | nil => simp
  | cons text texts ih =>
    rw [List.forall_mem_cons] at within
    cases texts with
    | nil => simpa using within.1
    | cons other texts => simpa [String.intercalate_cons_cons, between, within.1] using ih within.2

theorem isLine_join {pieces : List String} (h : ∀ piece ∈ pieces, '\n' ∉ piece.toList) :
    IsLine (String.join (pieces ++ ["\n"])) :=
  ⟨pieces.flatMap String.toList, by simp [String.toList_join], by simpa using h⟩

theorem NodeClass.isAlpha_of_mem_name {cls : NodeClass} :
    ∀ c ∈ cls.name.toList, c.isAlpha = true :=
  List.all_eq_true.mp (by cases cls <;> rfl)

/-- The names of the attributes of a node of the class. -/
def NodeClass.attributeNames : NodeClass → List String
  | varDefinition | constDefinition | location | type => ["name"]
  | binaryOp | unaryOp => ["op"]
  | literal => ["type", "value"]
  | _ => []

namespace Role

/-- The role has a name of letters. -/
def Plain (r : Role) : Prop := ∀ c ∈ r.name.toList, c.isAlpha = true

/-- The number of the role in its label. -/
def number (r : Role) : List Char :=
  match r.index with
  | some i => '[' :: (Nat.toDigits 10 i ++ [']'])
  | none => []

theorem toList_toString (r : Role) : r.toString.toList = r.name.toList ++ r.number := by
  match r with
  | ⟨name, none⟩ => exact (List.append_nil _).symm
  | ⟨name, some i⟩ =>
    have text : (item name i).toString = name ++ "[" ++ i.repr ++ "]" := rfl
    rw [item] at text
    simp [text, number]

theorem Plain.not_mem_toString {r : Role} (h : r.Plain) {c : Char} (letter : c.isAlpha = false)
    (digit : c.isDigit = false) (left : c ≠ '[') (right : c ≠ ']') : c ∉ r.toString.toList := by
  have noLetter : c ∉ r.name.toList := by
    intro mem
    rw [h c mem] at letter
    cases letter
  rw [toList_toString, number]
  cases r.index <;> simp [noLetter, not_mem_toDigits digit, left, right]

end Role

namespace Node

/-- The names of roles. -/
def roleNames : List String :=
  ["statements", "expression", "location", "dtype", "condition", "then", "else", "body", "left",
    "right"]

theorem name_mem_roleNames_of_mem_block {name : String} (among : name ∈ roleNames)
    {body : List Stmt} : ∀ child ∈ block name body, child.1.name ∈ roleNames := by
  intro child h
  obtain ⟨_, -, rfl⟩ := List.mem_map.mp h
  exact among

theorem name_mem_roleNames (n : Node) : ∀ child ∈ n.children, child.1.name ∈ roleNames := by
  match n with
  | program p => exact name_mem_roleNames_of_mem_block (by decide)
  | type t => simp [children]
  | expr e => cases e <;> simp [children, roleNames, Role.field]
  | stmt s =>
    have condition : (Role.field "condition").name ∈ roleNames := by decide
    cases s with
    | declare b name t i p => cases t <;> cases i <;> simp [children, roleNames, Role.field]
    | ifElse c t e p =>
      exact List.forall_mem_append.mpr ⟨List.forall_mem_cons.mpr ⟨condition,
        name_mem_roleNames_of_mem_block (by decide)⟩, name_mem_roleNames_of_mem_block (by decide)⟩
    | whileLoop c b p =>
      exact List.forall_mem_cons.mpr ⟨condition, name_mem_roleNames_of_mem_block (by decide)⟩
    | _ => simp [children, roleNames, Role.field]

theorem plain_of_mem_children {n : Node} {child : Role × Node} (h : child ∈ n.children) :
    ∀ r ∈ some child.1, r.Plain := by
  have letters : roleNames.all (fun name => name.toList.all Char.isAlpha) = true := rfl
  intro r same
  obtain rfl := Option.some.inj same
  exact List.all_eq_true.mp
    (List.all_eq_true.mp letters child.1.name (name_mem_roleNames n child h))

theorem map_fst_attributes (n : Node) : n.attributes.map Prod.fst = n.nodeClass.attributeNames := by
  match n with
  | program p => rfl
  | type t => rfl
  | expr e => cases e <;> rfl
  | stmt s =>
    cases s with
    | declare b name t i p => cases b <;> rfl
    | jump j p => cases j <;> rfl
    | _ => rfl

theorem newline_not_mem_attribute_name {n : Node} {a : String × String} (h : a ∈ n.attributes) :
    '\n' ∉ a.1.toList := by
  have noNewline : ∀ cls : NodeClass, ∀ name ∈ cls.attributeNames, '\n' ∉ name.toList := by
    intro cls
    cases cls <;> decide
  exact noNewline n.nodeClass a.1 (n.map_fst_attributes ▸ List.mem_map_of_mem h)

theorem newline_not_mem_attributeText (names : Bool) {n : Node}
    (oneLine : ∀ a ∈ n.attributes, '\n' ∉ a.2.toList) : '\n' ∉ (n.attributeText names).toList := by
  refine newline_not_mem_intercalate (by decide) fun text mem => ?_
  obtain ⟨a, among, rfl⟩ := List.mem_map.mp mem
  cases names with
  | false => exact oneLine a among
  | true => simp [newline_not_mem_attribute_name among, oneLine a among]

/-- A line is that at the left margin, indented. -/
theorem outlineLine_eq (options : OutlineOptions) (offset : Nat) (role : Option Role) (n : Node) :
    n.outlineLine options offset role =
      String.ofList (List.replicate offset ' ') ++ n.outlineLine options 0 role := by
  simp [outlineLine, outlinePieces, String.append_assoc]

theorem isLine_outlineLine (options : OutlineOptions) (offset : Nat) {role : Option Role} {n : Node}
    (plain : ∀ r ∈ role, r.Plain) (oneLine : ∀ a ∈ n.attributes, '\n' ∉ a.2.toList) :
    IsLine (n.outlineLine options offset role) := by
  refine isLine_join ?_
  intro piece mem
  simp only [List.mem_append, List.mem_cons, List.not_mem_nil, or_false] at mem
  rcases mem with ((rfl | rfl) | mem) | mem
  · have letters : '\n' ∉ n.nodeClass.name.toList := fun mem => by
      cases NodeClass.isAlpha_of_mem_name _ mem
    simpa using letters
  · cases role with
    | none => exact (by decide : '\n' ∉ ":".toList)
    | some r =>
      have label := (plain r rfl).not_mem_toString (c := '\n') rfl rfl (by decide) (by decide)
      have text : s!" <{r}>:" = " <" ++ r.toString ++ ">:" := rfl
      cases options.roles with
      | false => exact (by decide : '\n' ∉ ":".toList)
      | true => simp [text, label]
  · split at mem <;> simp at mem
    subst mem
    simpa using newline_not_mem_attributeText options.attributeNames oneLine
  · split at mem <;> simp at mem
    subst mem
    have text : s!" @ {n.pos}" = " @ " ++ n.pos.toString := rfl
    simp [text, n.pos.newline_not_mem_toString]

end Node

/-! ## The lines of a subtree -/

namespace Node

/-- The attributes of the node and of all nodes below it have no newline. -/
def OneLine (n : Node) : Prop := ∀ m ∈ n.preorder, ∀ a ∈ m.attributes, '\n' ∉ a.2.toList

theorem OneLine.attributes {n : Node} (h : n.OneLine) : ∀ a ∈ n.attributes, '\n' ∉ a.2.toList :=
  h n (by rw [preorder_eq]; exact List.mem_cons_self)

theorem OneLine.child {n : Node} (h : n.OneLine) {child : Role × Node}
    (among : child ∈ n.children) : child.2.OneLine := by
  intro m mem
  refine h m ?_
  rw [preorder_eq]
  exact List.mem_cons_of_mem _ (List.mem_flatMap.mpr ⟨child, among, mem⟩)

theorem isLine_of_mem_outlineLines {options : OutlineOptions} {n : Node} (oneLine : n.OneLine)
    {offset : Nat} {role : Option Role} (plain : ∀ r ∈ role, r.Plain) :
    ∀ line ∈ n.outlineLines options offset role, IsLine line := by
  induction n using Node.induction generalizing offset role with
  | step n ih =>
    rw [outlineLines_eq, List.forall_mem_cons]
    refine ⟨isLine_outlineLine options offset plain oneLine.attributes, fun line mem => ?_⟩
    obtain ⟨child, among, below⟩ := List.mem_flatMap.mp mem
    exact ih child among (oneLine.child among) (plain_of_mem_children among) line below

@[simp] theorem indent_outlineLine (options : OutlineOptions) (offset : Nat) (role : Option Role)
    (n : Node) : indent (n.outlineLine options offset role) = offset := by
  have margin : (n.outlineLine options 0 role).toList.takeWhile (· == ' ') = [] := by
    simp only [outlineLine, outlinePieces, String.toList_join, List.flatMap_append,
      List.cons_append, List.flatMap_cons]
    cases n.nodeClass <;> rfl
  rw [outlineLine_eq, indent, String.toList_append, String.toList_ofList,
    List.takeWhile_append_of_pos (by simp), margin, List.append_nil, List.length_replicate]

/-- The lines of a subtree stand together: behind the first line they are all indented deeper. -/
theorem isBlock_outlineLines (options : OutlineOptions) (offset : Nat) (role : Option Role)
    (n : Node) : IsBlock indent offset (n.outlineLines options offset role) := by
  induction n using Node.induction generalizing offset role with
  | step n ih =>
    refine ⟨_, _, outlineLines_eq .., indent_outlineLine .., fun line mem => ?_⟩
    obtain ⟨child, among, below⟩ := List.mem_flatMap.mp mem
    have within := (ih child among _ (some child.1)).le below
    have step : 0 < OutlineOptions.indentation := by decide
    omega

end Node

end ImpSyntax
