import Mathlib.Tactic.SplitIfs
import ImpSyntax.Proofs.Lexical.Spelling

/-!
# Patterns

A pattern reads beginnings of a text. It may read several, and then says which of them goes first: a
run of characters is read as long as it can be, or as short as it can be, and of two alternatives the
first is tried before the second. What a pattern finds in a text is the beginning that goes first.

Main results:

* `Pattern.mem_splits_iff` — what a pattern can read.
* `Pattern.first?_both_many` — a run at the end of a pattern is read to its end.
* `Pattern.Unambiguous.length_le` — nothing longer can be read, where only the run leaves a choice.
-/

namespace ImpSyntax

/-- A pattern over characters. -/
inductive Pattern
  /-- The text itself. -/
  | exactly (text : List Char)
  /-- One character that passes the test. -/
  | one (p : Char → Bool)
  /-- Any number of characters that pass the test, more of them first. -/
  | many (p : Char → Bool)
  /-- Any number of characters, fewer of them first. -/
  | fewest
  | both (first second : Pattern)
  | either (first second : Pattern)

namespace Pattern

/-- One character that passes the test, and any number of them behind it, more of them first. -/
def repeated (p : Char → Bool) : Pattern := both (one p) (many p)

/-! ## What a pattern finds -/

/-- A text in two, with the first character moved to the front part. -/
def consFront (c : Char) (split : List Char × List Char) : List Char × List Char :=
  (c :: split.1, split.2)

/-- The runs that begin a text, longer ones first. -/
def runs (p : Char → Bool) : List Char → List (List Char × List Char)
  | [] => [([], [])]
  | c :: cs => if p c then (runs p cs).map (consFront c) ++ [([], c :: cs)] else [([], c :: cs)]

/-- All beginnings of a text, shorter ones first. -/
def beginnings : List Char → List (List Char × List Char)
  | [] => [([], [])]
  | c :: cs => ([], c :: cs) :: (beginnings cs).map (consFront c)

/-- The beginnings of the text that the pattern reads, each with the rest, those that go first in
front. -/
def splits : Pattern → List Char → List (List Char × List Char)
  | exactly text, cs => if text.isPrefixOf cs then [(text, cs.drop text.length)] else []
  | one _, [] => []
  | one p, c :: cs => if p c then [([c], cs)] else []
  | many p, cs => runs p cs
  | fewest, cs => beginnings cs
  | both a b, cs => (a.splits cs).flatMap fun x => (b.splits x.2).map fun y => (x.1 ++ y.1, y.2)
  | either a b, cs => a.splits cs ++ b.splits cs

/-- What the pattern finds at the beginning of the text. -/
def first? (a : Pattern) (cs : List Char) : Option (List Char × List Char) := (a.splits cs).head?

/-! ## What a pattern can read -/

/-- Whether the pattern can read the text. -/
def Reads : Pattern → List Char → Prop
  | exactly text, x => x = text
  | one p, x => ∃ c, x = [c] ∧ p c = true
  | many p, x => ∀ c ∈ x, p c = true
  | fewest, _ => True
  | both a b, x => ∃ y z, x = y ++ z ∧ a.Reads y ∧ b.Reads z
  | either a b, x => a.Reads x ∨ b.Reads x

section ConsFront

variable {c d : Char} {x rest : List Char} {splits : List (List Char × List Char)}

theorem nil_not_mem_consFront : ([], rest) ∉ splits.map (consFront c) := by
  intro mem
  obtain ⟨split, -, same⟩ := List.mem_map.mp mem
  cases same

theorem cons_mem_consFront :
    (d :: x, rest) ∈ splits.map (consFront c) ↔ d = c ∧ (x, rest) ∈ splits := by
  constructor
  · intro mem
    obtain ⟨⟨y, behind⟩, found, same⟩ := List.mem_map.mp mem
    cases same
    exact ⟨rfl, found⟩
  · rintro ⟨rfl, mem⟩
    exact List.mem_map.mpr ⟨(x, rest), mem, rfl⟩

end ConsFront

theorem mem_runs_iff {p : Char → Bool} {cs x rest : List Char} :
    (x, rest) ∈ runs p cs ↔ x ++ rest = cs ∧ ∀ c ∈ x, p c = true := by
  induction cs generalizing x with
  | nil =>
    rw [runs, List.mem_singleton, Prod.mk.injEq, List.append_eq_nil_iff]
    constructor
    · rintro ⟨rfl, rfl⟩
      simp
    · exact And.left
  | cons c cs ih =>
    unfold runs
    cases x with
    | nil => split_ifs <;> simp [nil_not_mem_consFront]
    | cons d y =>
      split_ifs with pass
      · simp only [List.mem_append, cons_mem_consFront, ih, List.mem_singleton, Prod.mk.injEq,
          reduceCtorEq, false_and, or_false, List.cons_append, List.cons.injEq, List.forall_mem_cons]
        constructor
        · rintro ⟨rfl, whole, all⟩
          exact ⟨⟨rfl, whole⟩, pass, all⟩
        · rintro ⟨⟨rfl, whole⟩, -, all⟩
          exact ⟨rfl, whole, all⟩
      · simp only [List.mem_singleton, Prod.mk.injEq, reduceCtorEq, false_and, false_iff]
        rintro ⟨whole, all⟩
        obtain ⟨rfl, -⟩ := List.cons.inj whole
        exact pass (all d List.mem_cons_self)

theorem mem_beginnings_iff {cs x rest : List Char} :
    (x, rest) ∈ beginnings cs ↔ x ++ rest = cs := by
  induction cs generalizing x with
  | nil => simp [beginnings]
  | cons c cs ih =>
    cases x with
    | nil => simp [beginnings, nil_not_mem_consFront]
    | cons d y => simp [beginnings, cons_mem_consFront, ih]

/-- A pattern finds nothing but the beginnings of a text that it can read, and all of these. -/
theorem mem_splits_iff {a : Pattern} {cs x rest : List Char} :
    (x, rest) ∈ a.splits cs ↔ x ++ rest = cs ∧ a.Reads x := by
  induction a generalizing cs x rest with
  | exactly text =>
    unfold splits
    split_ifs with begins
    · obtain ⟨behind, rfl⟩ := List.isPrefixOf_iff_prefix.mp begins
      simp only [List.drop_left, List.mem_singleton, Prod.mk.injEq, Reads]
      constructor
      · rintro ⟨rfl, rfl⟩
        exact ⟨rfl, rfl⟩
      · rintro ⟨whole, rfl⟩
        exact ⟨rfl, List.append_cancel_left whole⟩
    · simp only [List.not_mem_nil, Reads, false_iff]
      rintro ⟨rfl, rfl⟩
      exact begins (List.isPrefixOf_iff_prefix.mpr (List.prefix_append _ _))
  | one p =>
    cases cs with
    | nil =>
      simp only [splits, List.not_mem_nil, List.append_eq_nil_iff, Reads, false_iff]
      rintro ⟨⟨rfl, -⟩, c, same, -⟩
      cases same
    | cons c cs =>
      unfold splits
      split_ifs with pass
      · simp only [List.mem_singleton, Prod.mk.injEq, Reads]
        constructor
        · rintro ⟨rfl, rfl⟩
          exact ⟨rfl, c, rfl, pass⟩
        · rintro ⟨whole, d, rfl, -⟩
          obtain ⟨rfl, rfl⟩ := List.cons.inj whole
          exact ⟨rfl, rfl⟩
      · simp only [List.not_mem_nil, Reads, false_iff]
        rintro ⟨whole, d, rfl, passed⟩
        obtain ⟨rfl, -⟩ := List.cons.inj whole
        exact pass passed
  | many p => exact mem_runs_iff
  | fewest => exact mem_beginnings_iff.trans (and_iff_left trivial).symm
  | both a b iha ihb =>
    simp only [splits, List.mem_flatMap, List.mem_map, Prod.mk.injEq, Prod.exists, iha, ihb, Reads]
    constructor
    · rintro ⟨y, behind, ⟨rfl, ya⟩, z, rest', ⟨rfl, zb⟩, rfl, rfl⟩
      exact ⟨List.append_assoc _ _ _, y, z, rfl, ya, zb⟩
    · rintro ⟨rfl, y, z, rfl, ya, zb⟩
      exact ⟨y, z ++ rest, ⟨(List.append_assoc _ _ _).symm, ya⟩, z, rest, ⟨rfl, zb⟩, rfl, rfl⟩
  | either a b iha ihb =>
    rw [splits, List.mem_append, iha, ihb]
    exact and_or_left.symm

theorem reads_of_first? {a : Pattern} {cs x rest : List Char}
    (h : a.first? cs = some (x, rest)) : x ++ rest = cs ∧ a.Reads x :=
  mem_splits_iff.mp (List.mem_of_head? h)

theorem not_reads_of_first?_eq_none {a : Pattern} {cs x : List Char} (h : a.first? cs = none)
    (reads : a.Reads x) : ¬ x <+: cs := by
  rintro ⟨rest, whole⟩
  have mem := mem_splits_iff.mpr ⟨whole, reads⟩
  rw [List.head?_eq_none_iff.mp h] at mem
  cases mem

/-! ## Runs at the end of a pattern -/

theorem head?_runs (p : Char → Bool) (cs : List Char) :
    (runs p cs).head? = some (cs.takeWhile p, cs.dropWhile p) := by
  induction cs with
  | nil => rfl
  | cons c cs ih =>
    unfold runs
    split_ifs with pass
    · simp [ih, consFront, pass]
    · simp [pass]

theorem first?_both_many (a : Pattern) (p : Char → Bool) (cs : List Char) :
    (a.both (many p)).first? cs =
      (a.first? cs).map fun x => (x.1 ++ x.2.takeWhile p, x.2.dropWhile p) := by
  unfold first?
  rw [splits]
  cases a.splits cs with
  | nil => rfl
  | cons x others =>
    rw [List.flatMap_cons, List.head?_append, List.head?_map, splits, head?_runs]
    rfl

/-- The pattern leaves no choice: it can read one beginning of a text at most. -/
def Unambiguous (a : Pattern) : Prop :=
  ∀ cs x y : List Char, a.Reads x → a.Reads y → x <+: cs → y <+: cs → x = y

/-- What an unambiguous pattern and a run behind it find is the longest that they can read. -/
theorem Unambiguous.length_le {a : Pattern} (h : a.Unambiguous) {p : Char → Bool}
    {cs x y rest : List Char} (found : (a.both (many p)).first? cs = some (x, rest))
    (reads : (a.both (many p)).Reads y) (begins : y <+: cs) : y.length ≤ x.length := by
  rw [first?_both_many, Option.map_eq_some_iff] at found
  obtain ⟨⟨front, behind⟩, first, same⟩ := found
  cases same
  obtain ⟨whole, frontReads⟩ := reads_of_first? first
  obtain ⟨front', run, rfl, frontReads', all⟩ := reads
  have same := h _ _ _ frontReads frontReads' ⟨_, whole⟩ ((List.prefix_append front' run).trans begins)
  subst same
  obtain ⟨tail, whole'⟩ := begins
  have behindEq : behind = run ++ tail := by
    rw [← whole, List.append_assoc] at whole'
    exact (List.append_cancel_left whole').symm
  rw [behindEq, List.takeWhile_append_of_pos all]
  simp only [List.length_append]
  omega

theorem splits_both_assoc (a b c : Pattern) (cs : List Char) :
    (a.both (b.both c)).splits cs = ((a.both b).both c).splits cs := by
  simp only [splits, List.flatMap_assoc, List.flatMap_map, List.map_flatMap, List.map_map,
    Function.comp_def, List.append_assoc]

end Pattern

end ImpSyntax
