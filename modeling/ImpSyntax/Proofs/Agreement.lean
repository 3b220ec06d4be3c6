import Mathlib
import ImpSyntax.Proofs.Language
import ImpSyntax.Proofs.Lexical.Lines

/-!
# Texts that agree

The parser sees a text as the items that are found in it, one after the other. What is reported on the
first items of a text is settled when they have been read, and nothing that follows changes it. Where
the items stand is handed on into trees and reports and decides nothing, so texts that differ in their
layout alone come to the same.

Main results:

* `Parser.exists_reports_foldl_feed` — every report is made at an item.
* `reportsWithin_eq` — the reports on the first items of a text are those of reading these alone.
* `reportsWithin_eq_of_take_eq` — they are the same in all texts that begin with these items.
* `parse_eq_of_erase_eq` — what texts of the same items come to, positions aside.
-/

namespace ImpSyntax

/-! ## Texts that agree in the beginning -/

/-- Every report is made at one of the items that are read. -/
theorem Parser.exists_reports_foldl_feed (p : Parser) (items : List Item) :
    ∃ new : List Report, (items.foldl feed p).reports = new ++ p.reports ∧
      ∀ r ∈ new, r.pos ∈ items.map Item.pos := by
  induction items generalizing p with
  | nil => exact ⟨[], rfl, by simp⟩
  | cons item items ih =>
    obtain ⟨first, added, here, -⟩ := adds_feed p item
    obtain ⟨new, reports, there⟩ := ih (p.feed item)
    refine ⟨new ++ first, ?_, fun r mem => ?_⟩
    · rw [List.foldl_cons, reports, added, List.append_assoc]
    · rcases List.mem_append.mp mem with mem | mem
      · exact List.mem_cons_of_mem _ (there r mem)
      · rw [here r mem]
        exact List.mem_cons_self

/-- The reports on a text that are made at one of its first `k` items. -/
def reportsWithin (source : String) (k : Nat) : List Report :=
  (parse source).reports.filter fun r => r.pos ∈ ((tokenize source).take k).map Item.pos

/-- No item behind the first `k` begins where one of these does. -/
theorem pos_not_mem_take {source : String} {k : Nat} {pos : Position}
    (behind : pos ∈ ((tokenize source).drop k).map Item.pos) :
    pos ∉ ((tokenize source).take k).map Item.pos := by
  intro front
  obtain ⟨b, hb, rfl⟩ := List.mem_map.mp behind
  obtain ⟨a, ha, same⟩ := List.mem_map.mp front
  have ordered := pairwise_pos_tokenize source
  have split : ((tokenize source).take k ++ (tokenize source).drop k).Pairwise
      (fun a b => a.pos < b.pos) := by
    rw [List.take_append_drop]
    exact ordered
  have before : a.pos < b.pos := (List.pairwise_append.mp split).2.2 a ha b hb
  rw [same, Position.lt_iff] at before
  omega

/-- The reports on the first `k` items are those that there are when these have been read. -/
theorem reportsWithin_eq (source : String) (k : Nat) :
    reportsWithin source k =
      (((tokenize source).take k).foldl Parser.feed .start).reports.reverse := by
  obtain ⟨early, made, inFront⟩ :=
    Parser.exists_reports_foldl_feed .start ((tokenize source).take k)
  obtain ⟨late, reports, behind⟩ := Parser.exists_reports_foldl_feed
    (((tokenize source).take k).foldl Parser.feed .start) ((tokenize source).drop k)
  have none : Parser.start.reports = [] := rfl
  rw [none, List.append_nil] at made
  have whole : (parse source).reports = early.reverse ++ late.reverse := by
    show ((tokenize source).foldl Parser.feed .start).reports.reverse = _
    rw [← List.reverse_append, ← made, ← reports, ← List.foldl_append, List.take_append_drop]
  have kept : ∀ r ∈ early.reverse, r.pos ∈ ((tokenize source).take k).map Item.pos :=
    fun r mem => inFront r (List.mem_reverse.mp mem)
  have left : ∀ r ∈ late.reverse, r.pos ∉ ((tokenize source).take k).map Item.pos :=
    fun r mem => pos_not_mem_take (behind r (List.mem_reverse.mp mem))
  rw [reportsWithin, whole, List.filter_append, made, List.filter_eq_self.mpr (by simpa using kept),
    List.filter_eq_nil_iff.mpr (by simpa using left), List.append_nil]

theorem reportsWithin_prefix (source : String) (k : Nat) :
    reportsWithin source k <+: (parse source).reports := by
  have later := Parser.reports_foldl_feed (((tokenize source).take k).foldl Parser.feed .start)
    ((tokenize source).drop k)
  rw [← List.foldl_append, List.take_append_drop] at later
  rw [reportsWithin_eq]
  exact List.reverse_prefix.mpr later

/-- On two texts with the same first `k` items the reports at these items are the same, and they are
the first ones. -/
theorem reportsWithin_eq_of_take_eq {source other : String} {k : Nat}
    (same : (tokenize source).take k = (tokenize other).take k) :
    reportsWithin source k = reportsWithin other k ∧
      reportsWithin source k <+: (parse source).reports ∧
      reportsWithin other k <+: (parse other).reports := by
  refine ⟨?_, reportsWithin_prefix source k, reportsWithin_prefix other k⟩
  rw [reportsWithin_eq, reportsWithin_eq, same]

/-- What follows the fourth item makes no difference to the two reports in front of it. -/
theorem reportsWithin_behind_fault :
    (tokenize "x y;\n@ z;").take 4 = (tokenize "x y;\n@ \x7d if").take 4 ∧
      reportsWithin "x y;\n@ z;" 4 = reportsWithin "x y;\n@ \x7d if" 4 ∧
      reportsWithin "x y;\n@ z;" 4 =
        [⟨.syntactic (.missing .semicolon "y"), ⟨1, 3⟩⟩, ⟨.lexical (.illegal '@'), ⟨2, 1⟩⟩] ∧
      (parse "x y;\n@ z;").reports ≠ (parse "x y;\n@ \x7d if").reports := by
  have same : (tokenize "x y;\n@ z;").take 4 = (tokenize "x y;\n@ \x7d if").take 4 := by cbv
  refine ⟨same, (reportsWithin_eq_of_take_eq same).1, by cbv, ?_⟩
  have more : (parse "x y;\n@ \x7d if").reports.length = 4 := by cbv
  have fewer : (parse "x y;\n@ z;").reports.length = 2 := by cbv
  intro equal
  rw [equal, more] at fewer
  cases fewer

/-! ## Texts that differ in their layout -/

/-- Texts that differ only in the positions of their items have programs that differ only in
positions, and reports that do so. -/
theorem parse_eq_of_erase_eq {source other : String}
    (same : (tokenize source).map Item.erase = (tokenize other).map Item.erase) :
    (parse source).program?.map Program.erase = (parse other).program?.map Program.erase ∧
      (parse source).reports.map Report.fault = (parse other).reports.map Report.fault := by
  have moved (text : String) : Parser.run ((tokenize text).map Item.erase) =
      (parse text).relocate fun _ => .unknown :=
    Parser.run_relocate (fun _ => .unknown) (tokenize_ne_nil text)
  have both : (parse source).relocate (fun _ => .unknown) =
      (parse other).relocate fun _ => .unknown := by
    rw [← moved source, ← moved other, same]
  constructor
  · have programs := congrArg Parsed.program? both
    rw [Parsed.program?_relocate, Parsed.program?_relocate] at programs
    exact programs
  · have faults := congrArg (fun p => p.reports.map Report.fault) both
    simpa [Parsed.relocate, Report.relocate, Function.comp_def] using faults

/-- A comment and other line ends move the reports and leave them as they are otherwise. -/
theorem parse_block_in_other_layout :
    (tokenize "if a \x7b b @ c; d e; \x7d").map Item.erase =
        (tokenize "if a\x7bb@/* c */c;\nd\te;\x7d").map Item.erase ∧
      (parse "if a \x7b b @ c; d e; \x7d").reports.map Report.fault =
        (parse "if a\x7bb@/* c */c;\nd\te;\x7d").reports.map Report.fault ∧
      (parse "if a \x7b b @ c; d e; \x7d").reports =
        [⟨.lexical (.illegal '@'), ⟨1, 10⟩⟩, ⟨.syntactic (.missing .semicolon "e"), ⟨1, 17⟩⟩] ∧
      (parse "if a\x7bb@/* c */c;\nd\te;\x7d").reports =
        [⟨.lexical (.illegal '@'), ⟨1, 7⟩⟩, ⟨.syntactic (.missing .semicolon "e"), ⟨2, 3⟩⟩] := by
  have same : (tokenize "if a \x7b b @ c; d e; \x7d").map Item.erase =
      (tokenize "if a\x7bb@/* c */c;\nd\te;\x7d").map Item.erase := by cbv
  exact ⟨same, (parse_eq_of_erase_eq same).2, by cbv, by cbv⟩

end ImpSyntax
