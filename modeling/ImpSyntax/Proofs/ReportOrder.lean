import ImpSyntax.Proofs.Lexical.Lines
import ImpSyntax.Proofs.Parser.Steps

/-!
# The order of reports

Reports are made in the order in which the text is read. A step reports nothing but what is wrong at
its own item, and not more than one fault, except at the end of the text: there every statement that
is still being read fails.

Main results:

* `Parser.reports_foldl_front` — the reports on items in front of the end go up from one to the next.
* `parse_reports_in_order` — the reports on a text never go back, and only at its end do several of
  them share a position.
-/

namespace ImpSyntax

namespace Parser

/-- The reports on items in front of the end, in the order in which they are made. -/
theorem reports_foldl_front {items : List Item} (goesOn : ∀ t, .token t ∈ items → t.kind ≠ .eof)
    (ordered : items.Pairwise fun a b => a.pos < b.pos) (p : Parser) :
    ∃ new : List Report, (items.foldl feed p).reports = new.reverse ++ p.reports ∧
      new.Pairwise (fun a b => a.pos < b.pos) ∧ ∀ r ∈ new, ∃ item ∈ items, r.pos = item.pos := by
  induction items generalizing p with
  | nil => exact ⟨[], rfl, .nil, by simp⟩
  | cons item items ih =>
    obtain ⟨before, others⟩ := List.pairwise_cons.mp ordered
    obtain ⟨first, added, here, atMost⟩ := adds_feed p item
    have once : first.length ≤ 1 := atMost fun t same => goesOn t (same ▸ List.mem_cons_self)
    obtain ⟨new, reports, pairwise, there⟩ :=
      ih (fun t mem => goesOn t (List.mem_cons_of_mem _ mem)) others (p.feed item)
    refine ⟨first ++ new, ?_, ?_, fun r mem => ?_⟩
    · have same : first.reverse = first := by
        match first, once with
        | [], _ => rfl
        | [r], _ => rfl
      rw [List.foldl_cons, reports, added, List.reverse_append, same, List.append_assoc]
    · refine List.pairwise_append.mpr ⟨?_, pairwise, fun a ha b hb => ?_⟩
      · match first, once with
        | [], _ => exact .nil
        | [r], _ => exact List.pairwise_singleton _ r
      · obtain ⟨later, mem, pos⟩ := there b hb
        rw [here a ha, pos]
        exact before later mem
    · rcases List.mem_append.mp mem with mem | mem
      · exact ⟨item, List.mem_cons_self, here r mem⟩
      · obtain ⟨later, found, pos⟩ := there r mem
        exact ⟨later, List.mem_cons_of_mem _ found, pos⟩

end Parser

/-- One report stands in front of another: the first is on an earlier place, or both are on statements
that are not over at the end `last`. -/
def Report.Precedes (last : Position) (a b : Report) : Prop :=
  a.pos < b.pos ∨
    (a.pos = last ∧ b.pos = last ∧ a.isLexical = false ∧ b.isLexical = false)

theorem parse_reports_precede (source : String) :
    (parse source).reports.Pairwise (Report.Precedes (endOf source)) := by
  have ordered := pairwise_pos_tokenize source
  have whole := tokenize_eq_front_append source
  have split : (frontOf source ++ [Item.token (.eof (endOf source))]).Pairwise
      (fun a b => a.pos < b.pos) := whole ▸ ordered
  obtain ⟨front, -, ahead⟩ := List.pairwise_append.mp split
  obtain ⟨new, reports, pairwise, places⟩ :=
    Parser.reports_foldl_front (fun _ => ne_eof_of_mem_frontOf) front .start
  obtain ⟨last, added, all, -⟩ :=
    Parser.adds_feedToken ((frontOf source).foldl Parser.feed .start) (.eof (endOf source))
  have made : (parse source).reports = new ++ last.reverse := by
    show ((tokenize source).foldl Parser.feed .start).reports.reverse = _
    rw [whole, List.foldl_append]
    show (Parser.feedToken _ _).reports.reverse = _
    rw [added, reports]
    simp [Parser.start]
  rw [made]
  refine List.pairwise_append.mpr ⟨pairwise.imp .inl, ?_, fun a ha b hb => ?_⟩
  · refine List.pairwise_of_forall_mem_list fun a ha b hb => .inr ?_
    obtain ⟨lexA, posA⟩ := all a (List.mem_reverse.mp ha)
    obtain ⟨lexB, posB⟩ := all b (List.mem_reverse.mp hb)
    exact ⟨posA, posB, lexA, lexB⟩
  · obtain ⟨item, mem, pos⟩ := places a ha
    rw [Report.Precedes, pos, (all b (List.mem_reverse.mp hb)).2]
    exact .inl (ahead item mem _ List.mem_cons_self)

/-! ## The reports on a text -/

/-- Reports come in the order of the text. Only at its end can several be made at one position, and
these are syntactic. -/
theorem parse_reports_in_order (source : String) :
    ((parse source).reports.Pairwise fun a b => a.pos ≤ b.pos) ∧
      ((parse source).reports.Pairwise fun a b => a.pos = b.pos →
        a.pos = endOf source ∧ a.isLexical = false ∧ b.isLexical = false) ∧
      (tokenize source).getLast? = some (.token (.eof (endOf source))) := by
  have ordered := parse_reports_precede source
  refine ⟨ordered.imp ?_, ordered.imp ?_, ?_⟩
  · rintro a b (before | ⟨posA, posB, -⟩)
    · exact Position.le_of_lt before
    · rw [posA, posB]
      exact Position.le_after _ []
  · rintro a b (before | ⟨posA, -, lexA, lexB⟩) same
    · rw [same] at before
      exact absurd before (by simp [Position.lt_iff])
    · exact ⟨posA, lexA, lexB⟩
  · rw [tokenize_eq_front_append, List.getLast?_concat]

end ImpSyntax
