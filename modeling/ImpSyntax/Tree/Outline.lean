import ImpSyntax.Tree.Node

/-!
# Outlines

A tree written as an outline: a line for each node, with the class and the attributes, indented
under its parent. The same outline can be written piece by piece to a sink of limited room, which
fails at the first character that does not fit.

Lines are indented as far as they ask for. A formatter that keeps widths in sixteen bits refuses a
width above 65535; of such a one what is said here holds for outlines in which no line is indented
further than that.

Main results:

* `Node.outlineLines_eq` — the lines of a subtree are the line of its root and those of the subtrees
  of its children, in order.
* `Node.writeOutlineFrom_eq` — the pieces go to the sink in the same order.
-/

namespace ImpSyntax

/-! ## Options -/

/-- What an outline shows besides classes and the values of attributes, and how far its first line
is indented. -/
structure OutlineOptions where
  attributeNames : Bool := false
  roles : Bool := false
  positions : Bool := false
  offset : Nat := 0
deriving DecidableEq, Repr, Inhabited

namespace OutlineOptions

/-- Everything that can be shown. -/
def verbose : OutlineOptions := ⟨true, true, true, 0⟩

/-- What tells trees of different form apart, and no positions. -/
def shape : OutlineOptions := ⟨true, true, false, 0⟩

/-- The distance between a line and those of its children. -/
def indentation : Nat := 4

end OutlineOptions

namespace Node

/-! ## Lines -/

/-- The attributes of the node, separated by commas. -/
def attributeText (names : Bool) (n : Node) : String :=
  ", ".intercalate (n.attributes.map fun (name, value) =>
    if names then name ++ "=" ++ value else value)

/-- The pieces of the node's line in an outline. The offset is a width of any size. -/
def outlinePieces (options : OutlineOptions) (offset : Nat) (role : Option Role) (n : Node) :
    List String :=
  let label := match role with
    | some role => if options.roles then s!" <{role}>:" else ":"
    | none => ":"
  let attributes :=
    if n.attributes.isEmpty then [] else [" " ++ n.attributeText options.attributeNames]
  let position := if options.positions && n.pos.isKnown then [s!" @ {n.pos}"] else []
  [String.ofList (List.replicate offset ' ') ++ n.nodeClass.name, label] ++ attributes ++
    position ++ ["\n"]

/-- The node's line in an outline. -/
def outlineLine (options : OutlineOptions) (offset : Nat) (role : Option Role) (n : Node) :
    String :=
  String.join (n.outlinePieces options offset role)

/-- The lines of the subtree. -/
def outlineLines (options : OutlineOptions) (offset : Nat) (role : Option Role) (n : Node) :
    List String :=
  n.outlineLine options offset role ::
    n.children.attach.flatMap fun ⟨child, _⟩ =>
      child.2.outlineLines options (offset + OutlineOptions.indentation) (some child.1)
termination_by n.size
decreasing_by exact size_child_lt ‹_›

theorem outlineLines_eq (options : OutlineOptions) (offset : Nat) (role : Option Role) (n : Node) :
    n.outlineLines options offset role =
      n.outlineLine options offset role ::
        n.children.flatMap fun child =>
          child.2.outlineLines options (offset + OutlineOptions.indentation) (some child.1) := by
  rw [outlineLines]
  simp only [List.flatMap_def]
  congr 2
  exact List.attach_map_val (f := fun child : Role × Node =>
    child.2.outlineLines options (offset + OutlineOptions.indentation) (some child.1))

/-- The outline of the subtree. -/
def outline (options : OutlineOptions) (n : Node) : String :=
  String.join (n.outlineLines options options.offset none)

end Node

/-- The program as an outline without any options. -/
def Program.toString (p : Program) : String := (Node.program p).outline {}

instance : ToString Program := ⟨Program.toString⟩

/-! ## Writing to a sink -/

/-- A place for text that takes only so many characters more. -/
structure Sink where
  room : Nat
  text : String
deriving DecidableEq, Repr

/-- An empty sink for the given number of characters. -/
def Sink.ofRoom (room : Nat) : Sink := ⟨room, ""⟩

/-- The sink with the piece behind its text; a piece that does not fit fills it and is an error. -/
def Sink.put (s : Sink) (piece : String) : Except Sink Sink :=
  if piece.length ≤ s.room then .ok ⟨s.room - piece.length, s.text ++ piece⟩
  else .error ⟨0, s.text ++ String.ofList (piece.toList.take s.room)⟩

namespace Node

/-- The outline of the subtree is put into the sink until a piece does not fit. -/
def writeOutlineFrom (options : OutlineOptions) (offset : Nat) (role : Option Role) (n : Node)
    (sink : Sink) : Except Sink Sink := do
  let sink ← (n.outlinePieces options offset role).foldlM Sink.put sink
  n.children.attach.foldlM (fun sink ⟨child, _⟩ =>
    child.2.writeOutlineFrom options (offset + OutlineOptions.indentation) (some child.1) sink) sink
termination_by n.size
decreasing_by exact size_child_lt ‹_›

/-- The outline of the subtree is put into the sink: the sink behind it, or the full sink at which
writing stopped. -/
def writeOutline (options : OutlineOptions) (n : Node) (sink : Sink) : Except Sink Sink :=
  n.writeOutlineFrom options options.offset none sink

theorem writeOutlineFrom_eq (options : OutlineOptions) (offset : Nat) (role : Option Role)
    (n : Node) (sink : Sink) :
    n.writeOutlineFrom options offset role sink =
      (n.outlinePieces options offset role).foldlM Sink.put sink >>= fun sink =>
        n.children.foldlM (fun sink child => child.2.writeOutlineFrom options
          (offset + OutlineOptions.indentation) (some child.1) sink) sink := by
  rw [writeOutlineFrom]
  congr 1
  funext sink
  exact List.foldlM_subtype (g := fun sink (child : Role × Node) => child.2.writeOutlineFrom
    options (offset + OutlineOptions.indentation) (some child.1) sink) (by simp) |>.trans
      (by rw [List.attach, List.unattach_attachWith])

end Node

end ImpSyntax
