/-!
# Positions in a text

A position is a line and a column, both counted from one. Line zero marks a position that is not
known, as in a tree that was built without a text.

Main results:

* `Position.after_append` — reading two texts in a row is reading their concatenation.
* `Position.lt_iff`, `Position.le_iff` — positions are ordered by line, then by column.
-/

namespace ImpSyntax

/-- A place in a text: line and column, counted in characters from one. -/
structure Position where
  line : Nat
  column : Nat
deriving DecidableEq, Repr, Inhabited

namespace Position

/-- The position of what never stood in a text. -/
def unknown : Position := ⟨0, 0⟩

/-- The position of the first character of a text. -/
def start : Position := ⟨1, 1⟩

/-- Whether the position is one in a text. -/
def isKnown (p : Position) : Bool := p.line != 0

/-- Written as `line:column`. -/
def toString (p : Position) : String := s!"{p.line}:{p.column}"

instance : ToString Position := ⟨Position.toString⟩

/-! ## Order -/

/-- Positions compare by line first, then by column. -/
instance : Ord Position where
  compare a b := (compare a.line b.line).then (compare a.column b.column)

instance : LT Position := ⟨fun a b => compare a b = .lt⟩

instance : LE Position := ⟨fun a b => compare a b ≠ .gt⟩

instance (a b : Position) : Decidable (a < b) :=
  inferInstanceAs (Decidable (compare a b = .lt))

instance (a b : Position) : Decidable (a ≤ b) :=
  inferInstanceAs (Decidable (compare a b ≠ .gt))

theorem compare_def (a b : Position) :
    compare a b = (compare a.line b.line).then (compare a.column b.column) := rfl

theorem lt_iff {a b : Position} :
    a < b ↔ a.line < b.line ∨ a.line = b.line ∧ a.column < b.column := by
  change compare a b = .lt ↔ _
  rw [compare_def, Ordering.then_eq_lt, Nat.compare_eq_lt, Nat.compare_eq_eq, Nat.compare_eq_lt]

theorem le_iff {a b : Position} :
    a ≤ b ↔ a.line < b.line ∨ a.line = b.line ∧ a.column ≤ b.column := by
  change compare a b ≠ .gt ↔ _
  rw [compare_def, Ne, Ordering.then_eq_gt, Nat.compare_eq_gt, Nat.compare_eq_eq,
    Nat.compare_eq_gt]
  omega

/-! ## Reading on -/

/-- The position behind one character: a newline opens the next line, any other character is one
column wide. -/
def next (p : Position) (c : Char) : Position :=
  if c = '\n' then ⟨p.line + 1, 1⟩ else ⟨p.line, p.column + 1⟩

/-- The position behind a text. -/
def after (p : Position) (text : List Char) : Position := text.foldl next p

@[simp] theorem after_nil (p : Position) : p.after [] = p := rfl

@[simp] theorem after_cons (p : Position) (c : Char) (text : List Char) :
    p.after (c :: text) = (p.next c).after text := rfl

theorem after_append (p : Position) (a b : List Char) :
    p.after (a ++ b) = (p.after a).after b := List.foldl_append

end Position

end ImpSyntax
