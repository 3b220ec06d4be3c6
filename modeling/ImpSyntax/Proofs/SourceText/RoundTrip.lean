import Mathlib.Tactic.ByContra
import ImpSyntax.Proofs.Language
import ImpSyntax.Proofs.SourceText.Written

/-!
# Parsing the canonical text

The canonical text of a well-formed program is parsed back to the same program, positions aside,
exactly if its demand keeps to the limit. What is parsed from any text is well-formed, so the same
holds of it; but its demand can be larger than that of the text it came from, since parentheses that
are not needed are left out, and the chain that they cut short then counts in full.

Main results:

* `parse_source_iff` — when the text of a well-formed program is parsed back.
* `parse_source_of_parse_iff` — when the text of a parsed program is parsed back.
* `parse_source_regrouped` — a text that is parsed while the text of its program is not.
-/

namespace ImpSyntax

open Precedence Grammar Reading

/-! ## Positions make no difference -/

section Relocate

variable (f : Position → Position)

theorem Expr.isLooserThan_relocate (bound : Nat) (e : Expr) :
    (e.relocate f).isLooserThan bound = e.isLooserThan bound := by
  cases e <;> rfl

theorem Expr.spine_relocate (e : Expr) : (e.relocate f).spine = e.spine := by
  induction e with
  | binary op l r pos ihl _ => simp only [relocate, spine, isLooserThan_relocate, ihl]
  | _ => rfl

theorem Expr.demand_relocate (e : Expr) : (e.relocate f).demand = e.demand := by
  induction e with
  | binary op l r pos ihl ihr =>
    simp only [relocate, demand, spine, isLooserThan_relocate, spine_relocate, ihl, ihr]
  | unary op e pos ih => simp only [relocate, demand, isLooserThan_relocate, ih]
  | _ => rfl

mutual

theorem Stmt.demand_relocate (s : Stmt) : (s.relocate f).demand = s.demand := by
  cases s with
  | declare binding name type init pos => cases init <;> simp [relocate, demand, Expr.demand_relocate]
  | ifElse c thenBody elseBody pos =>
    simp [relocate, demand, Expr.demand_relocate, demandList_relocate, demandElse_relocate]
  | whileLoop c body pos => simp [relocate, demand, Expr.demand_relocate, demandList_relocate]
  | print e | assign _ _ e | expr e => exact e.demand_relocate f
  | jump => rfl

theorem Stmt.demandList_relocate (body : List Stmt) :
    demandList (relocateList f body) = demandList body := by
  cases body with
  | nil => rfl
  | cons s rest => simp [relocateList, demandList, demand_relocate, demandList_relocate]

theorem Stmt.demandElse_relocate (body : Option (List Stmt)) :
    demandElse (relocateElse f body) = demandElse body := by
  cases body with
  | none => rfl
  | some body => simp [relocateElse, demandElse, demandList_relocate]

end

end Relocate

/-! ## What is parsed is well-formed -/

theorem Program.wellFormed_of_parse {source : String} {p : Program}
    (accepted : (parse source).program? = some p) : p.WellFormed := by
  obtain ⟨ts, demand, -, spelled, -, derived, -⟩ := derives_of_parse accepted
  exact Program.wellFormed_of_derives derived spelled

/-! ## Round trips -/

theorem Program.erase_eq_iff {p q : Program} : q.erase = p.erase ↔ q.erase.body = p.erase.body := by
  constructor
  · intro h
    rw [h]
  · intro h
    exact congrArg (Program.mk · .unknown) h

/-- The text of the program is parsed back to the program, positions aside. -/
def Program.ReadsBack (p : Program) : Prop :=
  ∃ q, (parse p.source).program? = some q ∧ q.erase = p.erase

theorem Program.refusedForDepth_source {p : Program} (h : p.WellFormed)
    (deep : maxNesting < p.demand) : RefusedForDepth p.source := by
  obtain ⟨clean, read⟩ := p.words_source h
  exact refusedForDepth_of_derives clean (read ▸ p.derives_words h) deep

theorem Program.readsBack_iff {p : Program} (h : p.WellFormed) :
    p.ReadsBack ↔ p.demand ≤ maxNesting := by
  constructor
  · rintro ⟨q, accepted, -⟩
    by_contra deep
    rw [(p.refusedForDepth_source h (Nat.not_le.mp deep)).1] at accepted
    cases accepted
  · intro within
    obtain ⟨clean, read⟩ := p.words_source h
    obtain ⟨q, accepted, body⟩ :=
      (parse_erase_iff clean p.erase.body).mpr ⟨p.demand, within, read ▸ p.derives_words h⟩
    exact ⟨q, accepted, Program.erase_eq_iff.mpr body⟩

/-- The text of a well-formed program is read back as the program exactly if the demand of the
program is within the limit; beyond it the text is refused, for its depth. -/
theorem parse_source_iff {p : Program} (h : p.WellFormed) :
    (p.ReadsBack ↔ p.demand ≤ maxNesting) ∧
      (maxNesting < p.demand → RefusedForDepth p.source) :=
  ⟨p.readsBack_iff h, p.refusedForDepth_source h⟩

/-- A product with a sum on its left and a sign on its right, and a conditional with empty branches.
-/
theorem parse_source_reads_back :
    let y : Expr := .location "y" .unknown
    let sum : Expr := .binary "+" (.literal .int "1" .unknown) y .unknown
    let p : Program := ⟨[.declare .var "x" none (some (.binary "*" sum (.unary "-" y .unknown)
      .unknown)) .unknown, .ifElse y [] (some []) .unknown], .unknown⟩
    p.WellFormed ∧ p.demand ≤ maxNesting ∧ p.ReadsBack := by
  intro y sum p
  have name : ∀ n : String, n = "x" ∨ n = "y" → IsIdentifier n := by
    rintro n (rfl | rfl) <;>
      exact ⟨⟨by decide, by simp⟩, fun w => by cases w <;> decide⟩
  have wellFormed : p.WellFormed := by
    refine ⟨⟨name "x" (.inl rfl), by simp, ?_, .inr (by simp)⟩,
      ⟨name "y" (.inr rfl), trivial, trivial⟩, trivial⟩
    intro e is
    cases is
    exact ⟨by decide, ⟨by decide, isDigits_singleton rfl, name "y" (.inr rfl)⟩, by decide,
      name "y" (.inr rfl)⟩
  have within : p.demand ≤ maxNesting := by decide
  exact ⟨wellFormed, within, (parse_source_iff wellFormed).1.mpr within⟩

/-- A program that was read from a text is read back from its own text exactly if its demand is
within the limit; otherwise its own text is refused, for its depth. -/
theorem parse_source_of_parse_iff {source : String} {p : Program}
    (accepted : (parse source).program? = some p) :
    (p.ReadsBack ↔ p.demand ≤ maxNesting) ∧
      (maxNesting < p.demand → RefusedForDepth p.source) := by
  have h := Program.wellFormed_of_parse accepted
  exact ⟨p.readsBack_iff h, p.refusedForDepth_source h⟩

/-- A sum in parentheses, to which a name with 255 signs is added. -/
def regrouped : List Token :=
  Mark.openParen.token :: ⟨.int, "1", .unknown⟩ :: Mark.plus.token :: ⟨.int, "2", .unknown⟩ ::
    Mark.closeParen.token :: Mark.plus.token :: signed 255

/-- The tree of these words. -/
def regroupedTree : Expr :=
  .binary "+" (.binary "+" (.literal .int "1" .unknown) (.literal .int "2" .unknown) .unknown)
    (.repeatUnary "-" 255 (.location "x" .unknown)) .unknown

theorem regrouped_isWord : ∀ t ∈ regrouped, t.IsWord := by
  intro t ht
  simp only [regrouped, List.mem_cons] at ht
  rcases ht with rfl | rfl | rfl | rfl | rfl | rfl | ht
  · exact Mark.openParen.isWord_token
  · exact ⟨isDigits_singleton rfl, rfl⟩
  · exact Mark.plus.isWord_token
  · exact ⟨isDigits_singleton rfl, rfl⟩
  · exact Mark.closeParen.isWord_token
  · exact Mark.plus.isWord_token
  · exact signed_isWord 255 t ht

theorem phrase_regrouped : Phrase loosest regrouped regroupedTree 1 256 := by
  have number : ∀ (n : String) (level : Nat), level ≤ unaryLevel →
      Phrase level [⟨.int, n, .unknown⟩] (.literal .int n .unknown) 0 0 :=
    fun n level le => (@Phrase.literal ⟨.int, n, .unknown⟩ .int rfl).mono le
  have sum := (@Phrase.link 3 Mark.plus.token _ _ _ _ _ _ _ _ (number "1" 3 (by decide)) rfl
    (number "2" 4 (by decide))).mono (by decide : loosest ≤ 3)
  have group := (@Phrase.group Mark.openParen.token Mark.closeParen.token _ _ _ _ rfl sum rfl).mono
    (by decide : 3 ≤ unaryLevel)
  have whole := @Phrase.link 3 Mark.plus.token _ _ _ _ _ _ _ _ group rfl
    ((phrase_signed 255).mono (by decide : 4 ≤ unaryLevel))
  exact whole.mono (by decide : loosest ≤ 3)

theorem Expr.isLooserThan_repeatUnary (op : String) {e : Expr} (h : e.isLooserThan unaryLevel = false)
    (n : Nat) : (e.repeatUnary op n).isLooserThan unaryLevel = false := by
  cases n with
  | zero => exact h
  | succ n => rfl

theorem Expr.demand_repeatUnary (op : String) {e : Expr} (h : e.isLooserThan unaryLevel = false)
    (n : Nat) : (e.repeatUnary op n).demand = e.demand + n := by
  induction n with
  | zero => rfl
  | succ n ih =>
    have bare := isLooserThan_repeatUnary op h n
    show enclosedDemand ((e.repeatUnary op n).isLooserThan unaryLevel)
      (e.repeatUnary op n).demand + 1 = _
    rw [bare, ih]
    rfl

/-- Without its parentheses the sum is part of the chain, so that the signs stand one level deeper. -/
theorem demand_regroupedTree : regroupedTree.demand = 257 := by
  have signs := Expr.demand_repeatUnary "-" (rfl : (Expr.location "x" .unknown).isLooserThan _ = _)
    255
  have level : binaryLevel "+" = (3, .left) := binaryLevel_spelling (m := .plus) rfl
  have bare : (Expr.repeatUnary "-" 255 (.location "x" .unknown)).isLooserThan 4 = false := rfl
  have leaf : ∀ n bound, (Expr.literal .int n .unknown).isLooserThan bound = false := fun _ _ => rfl
  have sum : ∀ l r, (Expr.binary "+" l r .unknown).isLooserThan 3 = false := by
    intro l r
    rw [Expr.isLooserThan, level]
    rfl
  simp [regroupedTree, Expr.demand, Expr.spine, Expr.leftBound, Expr.rightBound,
    Expr.enclosedDemand, level, bare, leaf, sum, signs]

/-- The text with parentheses keeps within the limit. In the text of its program the sum is a link
of the chain, so that all 255 signs are one level further in, and the last one is too deep. -/
theorem parse_source_regrouped :
    ∃ p, (parse (valueText regrouped)).program? = some p ∧ p.demand = 257 ∧ ¬ p.ReadsBack ∧
      RefusedForDepth p.source := by
  obtain ⟨p, accepted, body⟩ := parse_valueText phrase_regrouped regrouped_isWord (Nat.le_refl _)
  have demand : p.demand = 257 := by
    rw [Program.demand, ← Stmt.demandList_relocate fun _ => .unknown]
    show Stmt.demandList p.erase.body = 257
    rw [body, ← demand_regroupedTree]
    exact Nat.max_zero _
  have deep : maxNesting < p.demand := by rw [demand]; decide
  have condition := parse_source_of_parse_iff accepted
  exact ⟨p, accepted, demand, fun back => Nat.not_le.mpr deep (condition.1.mp back),
    condition.2 deep⟩

end ImpSyntax
