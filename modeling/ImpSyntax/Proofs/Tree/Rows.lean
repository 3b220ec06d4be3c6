import ImpSyntax.Proofs.Tree.Occurrences
import ImpSyntax.Proofs.Tree.Outline

/-!
# An outline line by line

The lines of an outline are those of the occurrences in the subtree, in order. A line is indented by
the offset and by one step for every node above; what stands behind the indentation is the caption
of the node, which is the same wherever in the tree and at whatever offset the node stands.

Main results:

* `Node.outlineLine_eq_caption` — a line is indentation and caption.
* `Node.splitLines_outline_eq` — the lines of an outline.
* `Node.splitLines_outline` — the lines against the nodes in order, a greater offset, and the lines of
  a subtree.
-/

namespace ImpSyntax

/-! ## Captions -/

/-- A text of so many spaces. -/
def spaces (n : Nat) : String := String.ofList (List.replicate n ' ')

theorem spaces_add (m n : Nat) : spaces (m + n) = spaces m ++ spaces n := by
  rw [spaces, spaces, spaces, ← String.ofList_append, List.replicate_append_replicate]

/-- What a line says of a node with the given role, class, attributes and position, if the names of
attributes, the roles and the positions are shown or not. -/
def caption (attributeNames roles positions : Bool) (role : Option Role) (cls : NodeClass)
    (attributes : List (String × String)) (pos : Position) : String :=
  let label := match role with
    | some role => if roles then " <" ++ role.toString ++ ">:" else ":"
    | none => ":"
  let values := attributes.map fun (name, value) =>
    if attributeNames then name ++ "=" ++ value else value
  cls.name ++ label ++ (if attributes.isEmpty then "" else " " ++ ", ".intercalate values) ++
    (if positions && pos.isKnown then " @ " ++ pos.toString else "")

/-- The caption under the given options. -/
def OutlineOptions.caption (options : OutlineOptions) (role : Option Role) (n : Node) : String :=
  ImpSyntax.caption options.attributeNames options.roles options.positions role n.nodeClass
    n.attributes n.pos

/-- The line of the occurrence, without its newline. -/
def Occurrence.row (options : OutlineOptions) (o : Occurrence) : String :=
  spaces (options.offset + OutlineOptions.indentation * o.above.length) ++
    options.caption o.role o.node

namespace Node

/-- A line is its indentation and the caption. -/
theorem outlineLine_eq_caption (options : OutlineOptions) (offset : Nat) (role : Option Role)
    (n : Node) :
    n.outlineLine options offset role = spaces offset ++ options.caption role n ++ "\n" := by
  have label : ∀ r : Role, s!" <{r}>:" = " <" ++ r.toString ++ ">:" := fun _ => rfl
  have place : s!" @ {n.pos}" = " @ " ++ n.pos.toString := rfl
  simp only [outlineLine, outlinePieces, OutlineOptions.caption, caption, attributeText, spaces,
    label, place]
  by_cases none : n.attributes.isEmpty = true <;>
    by_cases known : (options.positions && n.pos.isKnown) = true <;>
    simp only [none, known] <;> cases role <;> simp [String.append_assoc]

/-! ## Lines and occurrences -/

/-- The lines of a subtree that begins below given nodes. -/
theorem outlineLines_eq_map (options : OutlineOptions) (above : List Node) (role : Option Role)
    (n : Node) :
    n.outlineLines options (options.offset + OutlineOptions.indentation * above.length) role =
      (n.occurrencesFrom above role).map fun o => o.row options ++ "\n" := by
  induction n using Node.induction generalizing above role with
  | step n ih =>
    have deeper : options.offset + OutlineOptions.indentation * above.length +
        OutlineOptions.indentation =
        options.offset + OutlineOptions.indentation * (n :: above).length := by
      rw [List.length_cons, Nat.mul_succ, Nat.add_assoc]
    rw [outlineLines_eq, occurrencesFrom_eq, List.map_cons, List.map_flatMap, deeper,
      outlineLine_eq_caption, List.flatMap_def, List.flatMap_def]
    congr 2
    exact List.map_congr_left fun child among => ih child among _ _

theorem outlineLines_eq_rows (options : OutlineOptions) (n : Node) :
    n.outlineLines options options.offset none =
      (n.occurrences.map (Occurrence.row options)).map (· ++ "\n") := by
  rw [List.map_map]
  exact outlineLines_eq_map options [] none n

/-- The lines of an outline are those of the occurrences, each with a newline behind it. -/
theorem splitLines_outline_eq {n : Node} (oneLine : n.OneLine) (options : OutlineOptions) :
    Text.splitLines (n.outline options) = n.occurrences.map (Occurrence.row options) ++ [""] := by
  have rows : ∀ row ∈ n.occurrences.map (Occurrence.row options), '\n' ∉ row.toList := by
    intro row mem within
    have among : row ++ "\n" ∈ n.outlineLines options options.offset none := by
      rw [outlineLines_eq_rows]
      exact List.mem_map_of_mem mem
    obtain ⟨content, text, none⟩ := isLine_of_mem_outlineLines oneLine (by simp) _ among
    rw [String.toList_append] at text
    exact none (List.append_cancel_right text ▸ within)
  rw [outline, outlineLines_eq_rows, Text.splitLines_join rows]

/-! ## Offsets and subtrees -/

theorem row_of_offset (options : OutlineOptions) (k : Nat) (o : Occurrence) :
    o.row { options with offset := options.offset + k } = spaces k ++ o.row options := by
  rw [Occurrence.row, Occurrence.row, ← String.append_assoc, ← spaces_add]
  exact congrArg (fun n => spaces n ++ _) (by simp only; omega)

/-- Below more nodes a line is indented by one step more for each of them. -/
theorem row_under (options : OutlineOptions) (above : List Node) (o : Occurrence) :
    (o.under above).row options =
      spaces (OutlineOptions.indentation * above.length) ++ o.row options := by
  rw [Occurrence.row, Occurrence.row, ← String.append_assoc, ← spaces_add]
  refine congrArg (fun n => spaces n ++ _) ?_
  rw [Occurrence.under, List.length_append, Nat.mul_add]
  omega

theorem OneLine.of_mem_preorder {n m : Node} (oneLine : n.OneLine) (mem : m ∈ n.preorder) :
    m.OneLine :=
  forall_mem_preorder (motive := OneLine) (fun _ h _ among => h.child among) oneLine m mem

/-- The lines of a subtree stand together. -/
theorem take_drop_rows (options : OutlineOptions) {n : Node} {i : Nat} {o : Occurrence}
    (there : n.occurrences[i]? = some o) :
    ((n.occurrences.map (Occurrence.row options)).drop i).take o.node.size =
      o.row options :: (o.node.occurrences.map (Occurrence.row options)).tail.map
        (spaces (OutlineOptions.indentation * o.above.length) ++ ·) := by
  rw [← List.map_drop, ← List.map_take, take_drop_occurrences there, List.map_cons, ← List.map_tail,
    List.map_map, List.map_map]
  exact congrArg _ (List.map_congr_left fun other _ => row_under options o.above other)

/-- The lines of an outline, against the nodes in order. They are as many as the nodes. Each is
indented by the offset and by four spaces for every node above its node, and says behind that what
is said of this node in this role under these options anywhere. So a greater offset indents every
line further, and the outline of a subtree has the lines that stand for it in the whole outline, but
for their indentation and for the role of its root. -/
theorem splitLines_outline {n : Node} (oneLine : n.OneLine) (options : OutlineOptions) :
    Text.splitLines (n.outline options) =
        (n.occurrences.map fun o => spaces (options.offset + 4 * o.above.length) ++
          caption options.attributeNames options.roles options.positions o.role o.node.nodeClass
            o.node.attributes o.node.pos) ++ [""] ∧
      n.occurrences.map Occurrence.node = n.preorder ∧ n.preorder.length = n.size ∧
      (∀ o ∈ n.occurrences, o = ⟨[], none, n⟩ ∨ ∃ p ∈ n.occurrences, o.IsChildOf p) ∧
      (∀ k, Text.splitLines (n.outline { options with offset := options.offset + k }) =
        (n.occurrences.map fun o => spaces k ++ o.row options) ++ [""]) ∧
      ∀ i o, n.occurrences[i]? = some o →
        ((Text.splitLines (n.outline options)).drop i).take o.node.size =
          o.row options ::
            ((Text.splitLines (o.node.outline options)).take o.node.size).tail.map
              (spaces (4 * o.above.length) ++ ·) := by
  have lines := splitLines_outline_eq oneLine options
  refine ⟨lines, map_node_occurrences n, length_preorder n,
    fun o => exists_parent_of_mem_occurrences, fun k => ?_, fun i o there => ?_⟩
  · rw [splitLines_outline_eq oneLine]
    exact congrArg (· ++ [""]) (List.map_congr_left fun o _ => row_of_offset options k o)
  · have mem : o.node ∈ n.preorder := by
      rw [← map_node_occurrences]
      exact List.mem_map_of_mem (List.mem_of_getElem? there)
    have inside : i + o.node.size ≤ (n.occurrences.map (Occurrence.row options)).length := by
      rw [List.length_map]
      exact add_size_le_length there
    have alone : ((Text.splitLines (o.node.outline options)).take o.node.size) =
        o.node.occurrences.map (Occurrence.row options) := by
      rw [splitLines_outline_eq (oneLine.of_mem_preorder mem)]
      refine List.take_left' ?_
      rw [List.length_map, occurrences, length_occurrencesFrom]
    have block : ((Text.splitLines (n.outline options)).drop i).take o.node.size =
        ((n.occurrences.map (Occurrence.row options)).drop i).take o.node.size := by
      rw [splitLines_outline_eq oneLine, List.drop_append_of_le_length (by omega),
        List.take_append_of_le_length (by rw [List.length_drop]; omega)]
    rw [block, alone]
    exact take_drop_rows options there

/-- The lines of a loop, and those of its condition among them. -/
theorem splitLines_outline_of_loop :
    let condition := Node.expr (.unary "!" (.location "x" ⟨1, 8⟩) ⟨1, 7⟩)
    let loop := Node.stmt (.whileLoop (.unary "!" (.location "x" ⟨1, 8⟩) ⟨1, 7⟩)
      [.jump .leave ⟨2, 5⟩] ⟨1, 1⟩)
    let options : OutlineOptions := ⟨true, true, true, 2⟩
    loop.OneLine ∧
      Text.splitLines (loop.outline options) =
        ["  WhileStatement: @ 1:1",
          "      UnaryOp <condition>: op=! @ 1:7",
          "          Location <expression>: name=x @ 1:8",
          "      BreakStatement <body[0]>: @ 2:5",
          ""] ∧
      ((Text.splitLines (loop.outline options)).drop 1).take 2 =
        "      UnaryOp <condition>: op=! @ 1:7" ::
          ((Text.splitLines (condition.outline options)).take 2).tail.map (spaces 4 ++ ·) := by
  intro condition loop options
  have oneLine : loop.OneLine := by
    simp [loop, OneLine, attributes]
  obtain ⟨lines, -, -, -, -, block⟩ := splitLines_outline oneLine options
  refine ⟨oneLine, lines.trans (by cbv), ?_⟩
  have first : Occurrence.row options ⟨[loop], some (.field "condition"), condition⟩ =
      "      UnaryOp <condition>: op=! @ 1:7" := by cbv
  rw [← first]
  exact block 1 _ rfl

end Node

end ImpSyntax
