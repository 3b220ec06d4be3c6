import Mathlib
import ImpSyntax.Proofs.Descent.Past
import ImpSyntax.Proofs.Descent.Termination

/-!
# The nesting behind a rule

A rule leaves the nesting as it found it, with a result and with a report, and has it between that
level and the limit on the way. The loop over statements therefore begins every statement at the
level at which it was called, also behind statements that failed, and reads it as if it was the first
one.

Main results:

* `Descent.Returns.balanced` — a rule that comes back is balanced.
* `Descent.statements_eq_turns` — what the loop reads are the statements that its turns come to.
* `Descent.depth_of_mem_turns` — all turns of the loop begin at one level.
* `Descent.nesting_balanced` — the nesting behind each rule and in front of each statement.
-/

namespace ImpSyntax.Descent

open Precedence

variable {α : Type}

/-! ## Balanced rules -/

/-- At the cursor the rule comes to a result or a report, and is back at the level at which it was
called. The values that the nesting had on the way stand in front of those that it had before; none
of them is further out than that level, and none is beyond the limit. -/
def Balanced (rule : Rule α) (c : Cursor) : Prop :=
  ∃ out c' new, rule c = some (out, c') ∧ c'.depth = c.depth ∧ c'.levels = new ++ c.levels ∧
    ∀ l ∈ new, c.depth ≤ l ∧ l ≤ maxNesting

theorem Returns.balanced {k : Nat} {rule : Rule α} {c : Cursor} (h : Returns k rule c) :
    Balanced rule c := by
  obtain ⟨out, c', run, go, level, -⟩ := h
  obtain ⟨new, levels, bounds⟩ := go.levels
  exact ⟨out, c', new, run, level, levels, bounds⟩

/-! ## The turns of the loop -/

/-- A turn of the loop over statements: how many calls are left to the loops inside of it, the cursor
at which it begins, and the statement that it comes to, if that does not fail. -/
structure Turn where
  calls : Nat
  cursor : Cursor
  stmt? : Option Stmt
deriving DecidableEq, Repr

/-- The turns of the loop over statements, in order. -/
def turns (expression : Rule Expr) (closing : Kind) : Nat → Cursor → List Turn
  | 0, _ => []
  | n + 1, c =>
    if c.ahead.kind = closing ∨ c.ahead.kind = .eof then []
    else match pass expression (inner expression n) closing c with
      | none => []
      | some (s, c') => ⟨n, c, s⟩ :: turns expression closing n c'

section Turns

variable {n : Nat} {expression : Rule Expr} {closing : Kind} {c : Cursor}

/-- The loop reads the statements that its turns come to, one after the other. -/
theorem statements_eq_turns {read body : List Stmt} {c' : Cursor}
    (h : statements expression n closing read c = some (body, c')) :
    body = read.reverse ++ (turns expression closing n c).filterMap Turn.stmt? := by
  induction n generalizing read c with
  | zero => cases h
  | succ n ih =>
    rw [statements] at h
    dsimp only at h
    rw [turns]
    split at h
    · next closed =>
      cases h
      rw [if_pos closed]
      simp
    · next open_ =>
      rw [if_neg open_]
      have h : ((pass expression (inner expression n) closing c).bind fun r =>
          statements expression n closing (r.1.toList ++ read) r.2) = some (body, c') := h
      cases run : pass expression (inner expression n) closing c with
      | none =>
        rw [run] at h
        cases h
      | some r =>
        obtain ⟨s, c₁⟩ := r
        rw [run] at h
        rw [ih h]
        cases s <;> simp

/-- A turn comes to what the pass at its cursor comes to. -/
theorem pass_of_mem_turns {t : Turn} (mem : t ∈ turns expression closing n c) :
    ∃ c', pass expression (inner expression t.calls) closing t.cursor = some (t.stmt?, c') := by
  induction n generalizing c with
  | zero => cases mem
  | succ n ih =>
    rw [turns] at mem
    split at mem
    · cases mem
    · split at mem
      · cases mem
      · next s c' run =>
        rcases List.mem_cons.mp mem with rfl | behind
        · exact ⟨c', run⟩
        · exact ih behind

/-- Every turn begins at the level of the first one. -/
theorem depth_of_mem_turns {m : Nat} (value : Reads m expression) (le : n ≤ m) (fits : Fits n c)
    {t : Turn} (mem : t ∈ turns expression closing n c) : t.cursor.depth = c.depth := by
  induction n generalizing c with
  | zero => cases mem
  | succ n ih =>
    rw [turns] at mem
    split at mem
    · cases mem
    · next open_ =>
      have more : c.ahead.kind ≠ .eof := fun end_ => open_ (.inr end_)
      have inside : ∀ c, Fits n c → Returns 0 (inner expression n) c :=
        fun _ => returns_body value (Nat.le_of_succ_le le)
      obtain ⟨s, c', run, go, level, took⟩ := pass_returns closing (value.mono le) inside more fits
      rw [run] at mem
      rcases List.mem_cons.mp mem with rfl | behind
      · rfl
      · have fits' := fits.behind (go.of_begin took) took
        exact (ih (Nat.le_of_succ_le le) fits' behind).trans level

theorem carries_inner {past : Past} (value : ∀ past, Carries past expression expression) (n : Nat) :
    Carries past (inner expression n) (inner expression n) :=
  carries_lift fun c => statements_after value n _ [] c past

end Turns

/-! ## All rules -/

/-- From every cursor whose nesting is within the limit, and with as many calls as there are tokens or
more, each rule comes to a result or a report and is back at its level, with the nesting between that
level and the limit all the way; no step goes further out than level zero, since there it would come
to nothing. So does the loop over statements. What it reads are the statements of its turns; every
turn, also one behind a failure, begins at the level of the loop, and comes to what it would come to
at the first token of a text at that level, leaving the same cursor with the past of the turn behind
it. -/
theorem nesting_balanced (c : Cursor) (spare : Nat) (limit : c.depth ≤ maxNesting) :
    let n := c.left + spare
    let value := expression (within n)
    (Balanced (statement value (inner value n)) c ∧ Balanced (block (inner value n)) c ∧
      Balanced value c ∧ (∀ floor, Balanced (binary (within n) floor) c) ∧
      Balanced (unary (within n)) c ∧ Balanced (primary (within n)) c) ∧
    ∀ closing, ∃ body c' new, statements value (n + 1) closing [] c = some (body, c') ∧
      c'.depth = c.depth ∧ c'.levels = new ++ c.levels ∧
      (∀ l ∈ new, c.depth ≤ l ∧ l ≤ maxNesting) ∧
      body = (turns value closing (n + 1) c).filterMap Turn.stmt? ∧
      ∀ t ∈ turns value closing (n + 1) c, t.cursor.depth = c.depth ∧
        ∃ behind, pass value (inner value t.calls) closing
            (.first c.depth t.cursor.ahead t.cursor.items) = some (t.stmt?, behind) ∧
          pass value (inner value t.calls) closing t.cursor =
            some (t.stmt?, behind.after t.cursor.past) := by
  intro n value
  have fits : Fits (n + 1) c := ⟨by omega, limit⟩
  have calls : (within n).Return n := return_within n
  have reads : Reads (n + 1) value := reads_within n
  have inside : ∀ c, Fits n c → Returns 0 (inner value n) c :=
    fun _ => returns_body reads (Nat.le_succ n)
  have carries : ∀ past, Carries past value value := fun past =>
    carries_expression (carries_within past n)
  refine ⟨⟨?_, ?_, ?_, fun floor => ?_, ?_, ?_⟩, fun closing => ?_⟩
  · exact (returns_statement reads inside fits).balanced
  · exact (returns_block inside fits).balanced
  · exact (returns_expression calls fits).balanced
  · exact (returns_binary calls fits floor).balanced
  · exact (returns_unary calls fits).balanced
  · exact (returns_primary calls fits).balanced
  · obtain ⟨body, c', run, go, level, -⟩ :=
      statements_returns closing reads (Nat.le_refl _) [] fits
    obtain ⟨new, levels, bounds⟩ := go.levels
    refine ⟨body, c', new, run, level, levels, bounds, statements_eq_turns run, fun t mem => ?_⟩
    have same : t.cursor.depth = c.depth := depth_of_mem_turns reads (Nat.le_refl _) fits mem
    refine ⟨same, ?_⟩
    obtain ⟨last, run⟩ := pass_of_mem_turns mem
    have first := pass_eq_first carries (fun past => carries_inner carries t.calls) closing t.cursor
    rw [same, run] at first
    obtain ⟨⟨s, behind⟩, found, left⟩ := Option.map_eq_some_iff.mp first.symm
    cases left
    exact ⟨behind, found, run⟩

/-- One level is left in front of `!!; !x; }`. The first statement asks for two and fails; the second
asks for one, and is read. -/
theorem nesting_balanced_at_last_level :
    let c : Cursor := { Cursor.ofItems (tokenize "!!; !x; \x7d") with depth := 255 }
    let value := expression (within 7)
    c.depth ≤ maxNesting ∧ Balanced (statement value (inner value 7)) c ∧
      ∃ body c', statements value 8 (.mark .closeBrace) [] c = some (body, c') ∧ c'.depth = 255 ∧
        body = [.expr (.unary "!" (.location "x" ⟨1, 6⟩) ⟨1, 5⟩) ⟨1, 5⟩] := by
  intro c value
  have limit : c.depth ≤ maxNesting := by decide
  have left : c.left + 0 = 7 := by cbv
  have all := nesting_balanced c 0 limit
  dsimp only at all
  rw [left] at all
  obtain ⟨⟨stmt, -⟩, loop⟩ := all
  obtain ⟨body, c', new, run, level, -, -, read, -⟩ := loop (.mark .closeBrace)
  have second : (turns value (.mark .closeBrace) 8 c).filterMap Turn.stmt? =
      [.expr (.unary "!" (.location "x" ⟨1, 6⟩) ⟨1, 5⟩) ⟨1, 5⟩] := by cbv
  exact ⟨limit, stmt, body, c', run, level, read.trans second⟩

end ImpSyntax.Descent
