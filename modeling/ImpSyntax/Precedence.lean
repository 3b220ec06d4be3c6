import ImpSyntax.Token

/-!
# Precedence

The operators in rows, from the loosest to the tightest. The rows in between the assignment and the
one-place operators hold the two-place operators of expressions.

Main results:

* `binaryLevel?_mark` — the two-place operators have the levels one to four.
* `binaryAssoc_left` — all of them group to the left.
-/

namespace ImpSyntax

/-- Which way equal operators group. -/
inductive Assoc
  | left
  | right
deriving DecidableEq, Repr, Inhabited

/-- The name of the side. -/
def Assoc.name : Assoc → String
  | left => "left"
  | right => "right"

namespace Precedence

/-- Operators of one level. -/
structure Row where
  assoc : Assoc
  kinds : List Kind
deriving DecidableEq, Repr

/-- All levels, the loosest first; the place of a row is its level. -/
def rows : List Row :=
  [⟨.right, [.mark .equals]⟩,
   ⟨.left, [.mark .orOr, .mark .andAnd, .mark .eqEq, .mark .notEq]⟩,
   ⟨.left, [.mark .lt, .mark .gt, .mark .ltEq, .mark .gtEq]⟩,
   ⟨.left, [.mark .plus, .mark .minus]⟩,
   ⟨.left, [.mark .times, .mark .divide]⟩,
   ⟨.right, [.mark .bang]⟩,
   ⟨.right, [.keyword .elseWord]⟩]

/-- The level of the assignment. -/
def assignmentLevel : Nat := 0

/-- The level of the one-place operators. -/
def unaryLevel : Nat := 5

/-- How many blocks, parentheses, one-place operators and links of operator chains may stand
inside one another. -/
def maxNesting : Nat := 256

end Precedence

open Precedence

/-- The level of `k` and how its row groups, for a two-place operator. -/
def Kind.binaryLevel? (k : Kind) : Option (Nat × Assoc) := do
  let level ← rows.findIdx? (·.kinds.contains k)
  let row ← rows[level]?
  if assignmentLevel < level ∧ level < unaryLevel then some (level, row.assoc) else none

/-- Whether the operator can stand in front of an operand. -/
def Kind.isSign : Kind → Bool
  | .mark .bang | .mark .minus | .mark .plus => true
  | _ => false

/-- The level of the two-place operator `m`. -/
def Mark.level? : Mark → Option Nat
  | .orOr | .andAnd | .eqEq | .notEq => some 1
  | .lt | .gt | .ltEq | .gtEq => some 2
  | .plus | .minus => some 3
  | .times | .divide => some 4
  | _ => none

theorem binaryLevel?_mark (m : Mark) :
    (Kind.mark m).binaryLevel? = m.level?.map fun level => (level, .left) := by
  cases m <;> decide

theorem binaryLevel?_eq_none {k : Kind} (h : ∀ m, k ≠ .mark m) : k.binaryLevel? = none := by
  cases k with
  | keyword w => cases w <;> decide
  | mark m => exact absurd rfl (h m)
  | _ => decide

theorem binaryAssoc_left {k : Kind} {level : Nat} {assoc : Assoc}
    (h : k.binaryLevel? = some (level, assoc)) : assoc = .left := by
  cases k with
  | mark m =>
    rw [binaryLevel?_mark] at h
    simp only [Option.map_eq_some_iff, Prod.mk.injEq] at h
    obtain ⟨_, _, _, rfl⟩ := h
    rfl
  | _ => rw [binaryLevel?_eq_none (by simp)] at h; cases h

end ImpSyntax
