import ImpSyntax.Proofs.SourceText.WellFormed
import ImpSyntax.Proofs.SourceText.RoundTrip
import ImpSyntax.Proofs.Tree.Positions

/-!
# The nodes of a parsed tree

What can stand in a program does so part by part: each node of a well-formed tree has names that are not
reserved, literals that are spelled as their kind asks, operators of the levels that exist, and a
declaration gives what has to be given. No spelling goes over the end of a line, so no text in such a
tree does.

Main results:

* `Node.isProper_of_wellFormed` — the nodes of a well-formed tree.
* `nodes_proper_of_parse` — the nodes of a parsed tree, whose positions are known as well.
-/

namespace ImpSyntax

open Precedence Grammar Reading

/-! ## Spellings and lines -/

/-- The text is that of some token. -/
def IsSpelling (text : String) : Prop := ∃ k : Kind, k.Spells text.toList

theorem IsSpelling.newline_not_mem {text : String} (h : IsSpelling text) : '\n' ∉ text.toList := by
  obtain ⟨k, spelled⟩ := h
  exact spelled.newline_not_mem

theorem IsIdentifier.isSpelling {name : String} (h : IsIdentifier name) : IsSpelling name :=
  ⟨.ident, h⟩

theorem Mark.isSpelling (m : Mark) : IsSpelling m.spelling := ⟨.mark m, String.toList_ofList⟩

theorem LiteralKind.Spells.isSpelling {kind : LiteralKind} {value : String}
    (h : kind.Spells value) : IsSpelling value := by
  cases kind with
  | int => exact ⟨.int, h⟩
  | float => exact ⟨.float, h⟩
  | char => exact ⟨.char, h⟩
  | bool =>
    rcases h with rfl | rfl
    · exact ⟨.keyword .trueWord, rfl⟩
    · exact ⟨.keyword .falseWord, rfl⟩

/-! ## Proper nodes -/

/-- The operator stands in one of the rows 1 to 4 of the table. -/
def HasOperatorRow (op : String) : Prop :=
  ∃ (m : Mark) (level : Nat) (row : Row), Mark.operator? op = some m ∧ rows[level]? = some row ∧
    .mark m ∈ row.kinds ∧ 1 ≤ level ∧ level ≤ 4

/-- What a node holds besides its children can stand in a program, and it has the children that it
needs. -/
def Node.IsProper : Node → Prop
  | .program _ => True
  | .stmt (.assign name _ _ _) => IsIdentifier name
  | .stmt (.declare binding name t init _) => IsIdentifier name ∧ Declarable binding t init
  | .stmt _ => True
  | .expr (.binary op _ _ _) => HasOperatorRow op
  | .expr (.unary op _ _) => op ∈ signSpellings
  | .expr (.literal kind value _) => kind.Spells value
  | .expr (.location name _) => IsIdentifier name
  | .type t => IsIdentifier t.name

/-- The part of the tree can stand in a program. -/
def Node.WellFormed : Node → Prop
  | .program p => p.WellFormed
  | .stmt s => s.WellFormed
  | .expr e => e.WellFormed
  | .type t => IsIdentifier t.name

theorem hasOperatorRow_of_mem {op : String} (h : op ∈ operatorSpellings) : HasOperatorRow op := by
  obtain ⟨m, level, found, rfl⟩ := mem_operatorSpellings_iff.mp h
  have operator : ∀ {m : Mark}, m.isPunctuation = false → Mark.operator? m.spelling = some m :=
    fun plain => Mark.operator?_eq_some_iff.mpr ⟨plain, rfl⟩
  cases m with
  | orOr | andAnd | eqEq | notEq => exact ⟨_, 1, _, operator rfl, rfl, by decide, by decide⟩
  | lt | gt | ltEq | gtEq => exact ⟨_, 2, _, operator rfl, rfl, by decide, by decide⟩
  | plus | minus => exact ⟨_, 3, _, operator rfl, rfl, by decide, by decide⟩
  | times | divide => exact ⟨_, 4, _, operator rfl, rfl, by decide, by decide⟩
  | _ => cases found

namespace Node

theorem WellFormed.isProper {n : Node} (h : n.WellFormed) : n.IsProper := by
  match n with
  | .program _ | .stmt (.print ..) | .stmt (.ifElse ..) | .stmt (.whileLoop ..)
  | .stmt (.jump ..) | .stmt (.expr ..) => trivial
  | .stmt (.assign ..) => exact h.1
  | .stmt (.declare ..) => exact ⟨h.1, h.2.2.2⟩
  | .expr (.binary ..) => exact hasOperatorRow_of_mem h.1
  | .expr (.unary ..) => exact h.1
  | .expr (.literal ..) => exact h
  | .expr (.location ..) => exact h
  | .type _ => exact h

theorem wellFormed_of_mem_block {name : String} {body : List Stmt} {child : Role × Node}
    (mem : child ∈ block name body) (h : Stmt.WellFormedList body) : child.2.WellFormed := by
  have among : child.2 ∈ (block name body).map Prod.snd := List.mem_map_of_mem mem
  rw [map_block fun n => n] at among
  obtain ⟨s, within, same⟩ := List.mem_map.mp among
  rw [← same]
  clear mem among same
  induction body with
  | nil => cases within
  | cons first rest ih =>
    rcases List.mem_cons.mp within with rfl | within
    · exact h.1
    · exact ih h.2 within

/-- The children of what can stand in a program can do so. -/
theorem WellFormed.child {n : Node} (h : n.WellFormed) (child : Role × Node)
    (mem : child ∈ n.children) : child.2.WellFormed := by
  match n with
  | .program _ => exact wellFormed_of_mem_block mem h
  | .stmt (.print ..) | .stmt (.expr ..) =>
    cases List.mem_singleton.mp mem
    exact h
  | .expr (.unary ..) =>
    cases List.mem_singleton.mp mem
    exact h.2
  | .stmt (.assign ..) =>
    simp only [children, List.mem_cons, List.not_mem_nil, or_false] at mem
    rcases mem with rfl | rfl
    · exact h.1
    · exact h.2
  | .expr (.binary ..) =>
    simp only [children, List.mem_cons, List.not_mem_nil, or_false] at mem
    rcases mem with rfl | rfl
    · exact h.2.1
    · exact h.2.2
  | .stmt (.declare _ _ _ init _) =>
    obtain ⟨-, named, valued, -⟩ := h
    simp only [children, List.mem_append, Option.mem_toList,
      Option.map_eq_some_iff] at mem
    rcases mem with ⟨t, is, rfl⟩ | ⟨e, is, rfl⟩
    · exact named t is
    · exact valued e is
  | .stmt (.ifElse _ _ elseBody _) =>
    simp only [children, List.cons_append, List.mem_cons, List.mem_append] at mem
    rcases mem with rfl | mem | mem
    · exact h.1
    · exact wellFormed_of_mem_block mem h.2.1
    · cases elseBody with
      | none => cases mem
      | some body => exact wellFormed_of_mem_block mem h.2.2
  | .stmt (.whileLoop ..) =>
    rcases List.mem_cons.mp mem with rfl | mem
    · exact h.1
    · exact wellFormed_of_mem_block mem h.2
  | .stmt (.jump ..) | .expr (.literal ..) | .expr (.location ..) | .type _ => cases mem

theorem isProper_of_wellFormed {n : Node} (h : n.WellFormed) : ∀ m ∈ n.preorder, m.IsProper :=
  fun m mem => (forall_mem_preorder (fun _ => WellFormed.child) h m mem).isProper

/-- No text that a proper node holds goes over the end of a line. -/
theorem IsProper.newline_not_mem {n : Node} (h : n.IsProper) :
    ∀ a ∈ n.attributes, '\n' ∉ a.2.toList := by
  intro a mem
  match n with
  | .program _ | .stmt (.print ..) | .stmt (.assign ..) | .stmt (.ifElse ..)
  | .stmt (.whileLoop ..) | .stmt (.jump ..) | .stmt (.expr ..) => cases mem
  | .stmt (.declare ..) =>
    cases List.mem_singleton.mp mem
    exact (IsIdentifier.isSpelling h.1).newline_not_mem
  | .expr (.binary ..) =>
    cases List.mem_singleton.mp mem
    obtain ⟨m, _, _, found, -⟩ := h
    rw [(Mark.operator?_eq_some_iff.mp found).2]
    exact m.isSpelling.newline_not_mem
  | .expr (.unary ..) =>
    cases List.mem_singleton.mp mem
    obtain ⟨m, -, rfl⟩ := mem_signSpellings_iff.mp h
    exact m.isSpelling.newline_not_mem
  | .expr (.literal kind _ _) =>
    simp only [attributes, List.mem_cons, List.not_mem_nil, or_false] at mem
    rcases mem with rfl | rfl
    · cases kind <;> decide
    · exact (LiteralKind.Spells.isSpelling h).newline_not_mem
  | .expr (.location ..) | .type _ =>
    cases List.mem_singleton.mp mem
    exact (IsIdentifier.isSpelling h).newline_not_mem

end Node

/-! ## What is parsed -/

theorem isKnown_of_mem_tokenize {source : String} {item : Item} (h : item ∈ tokenize source) :
    item.pos.isKnown = true := by
  have behind : Position.start ≤ item.pos := Scanner.le_pos_of_mem h
  rw [Position.le_iff] at behind
  simp only [Position.start, Position.isKnown, bne_iff_ne] at behind ⊢
  omega

/-- Every node of a program that was read is proper, has no newline in its attributes, and knows its
position. -/
theorem nodes_proper_of_parse {source : String} {p : Program}
    (accepted : (parse source).program? = some p) :
    ∀ n ∈ (Node.program p).preorder,
      n.IsProper ∧ (∀ a ∈ n.attributes, '\n' ∉ a.2.toList) ∧ n.pos.isKnown = true := by
  intro n mem
  have wellFormed : (Node.program p).WellFormed := Program.wellFormed_of_parse accepted
  have proper := Node.isProper_of_wellFormed wellFormed n mem
  obtain ⟨ts, scanned, -, holds⟩ := Holds.preorder_of_parse accepted
  obtain ⟨t, among, same⟩ := holds.placed n mem
  have item : Item.token t ∈ tokenize source := scanned ▸ List.mem_map_of_mem among
  refine ⟨proper, proper.newline_not_mem, ?_⟩
  rw [same]
  exact isKnown_of_mem_tokenize item

/-- In a loop over a character the operators, the constant and all positions are proper. -/
theorem nodes_proper_of_loop :
    let negative : Expr := .unary "!" (.location "c" ⟨1, 8⟩) ⟨1, 7⟩
    let sum : Expr := .binary "+" (.location "c" ⟨2, 5⟩) (.literal .char "'\\''" ⟨2, 9⟩) ⟨2, 5⟩
    let p : Program := ⟨[.whileLoop negative [.assign "c" ⟨2, 1⟩ sum ⟨2, 1⟩] ⟨1, 1⟩], ⟨1, 1⟩⟩
    (parse "while !c \x7b\nc = c + '\\''; \x7d").program? = some p ∧
      (Node.expr sum).IsProper ∧ (Node.expr (.literal .char "'\\''" ⟨2, 9⟩)).IsProper ∧
      ∀ n ∈ (Node.program p).preorder, n.pos.isKnown = true := by
  intro negative sum p
  have accepted : (parse "while !c \x7b\nc = c + '\\''; \x7d").program? = some p := by cbv
  have proper := nodes_proper_of_parse accepted
  refine ⟨accepted, (proper _ ?_).1, (proper _ ?_).1, fun n mem => (proper n mem).2.2⟩
  · simp [p, sum, Node.ofStmts]
  · simp [p, sum, Node.ofStmts]

end ImpSyntax
