import Mathlib
import ImpSyntax.Diagnostics
import ImpSyntax.Proofs.Parser.History

/-!
# What is reported

Everything that the scanner finds at fault is reported. A statement that fails is reported too,
unless a lexical fault behind the beginning of the statement silences it, and a lexical fault does
so only until the next statement begins: one that begins in a block lifts the silence from the
statement around it. No failure goes without any report, so a text is accepted exactly if nothing
went wrong in it.

Main results:

* `parse_lexical_reports` — the lexical reports are those of the scanner, in order.
* `parse_reports_of_incidents` — the reports are those of the incidents that are not held back.
* `reports_eq_nil_iff_incidents` — where nothing is reported nothing went wrong.
* `failure_heard_iff_covered` — which failures are reported.
-/

namespace ImpSyntax

/-! ## Lexical faults -/

/-- What is reported of the item. -/
def Item.report? : Item → Option Report
  | token _ => none
  | fault reason pos => some ⟨.lexical reason, pos⟩

theorem Parser.lexical_foldl_feed (p : Parser) (items : List Item) :
    (items.foldl feed p).reports.filter (·.isLexical) =
      (items.filterMap Item.report?).reverse ++ p.reports.filter (·.isLexical) := by
  induction items generalizing p with
  | nil => rfl
  | cons item items ih =>
    rw [List.foldl_cons, ih]
    cases item with
    | token t =>
      show _ ++ (p.feedToken t).reports.filter _ = _
      rw [lexical_feedToken]
      rfl
    | fault reason pos =>
      rw [List.filterMap_cons]
      show _ = (_ :: _).reverse ++ _
      rw [List.reverse_cons, List.append_assoc]
      rfl

theorem parse_lexical_reports (source : String) :
    (parse source).reports.filter (·.isLexical) = (tokenize source).filterMap Item.report? := by
  show (Parser.reports _).reverse.filter _ = _
  rw [List.filter_reverse, Parser.lexical_foldl_feed]
  show (_ ++ []).reverse = _
  rw [List.append_nil, List.reverse_reverse]

/-! ## Incidents -/

theorem parse_reports_of_incidents (source : String) :
    (parse source).reports = (incidents source).filterMap Incident.report? := by
  have sound := Account.sound_of (tokenize source)
  rw [incidents, List.filterMap_reverse, ← sound.reports_eq, Account.parser_of]
  rfl

theorem judgedBy_starts {source : String} {f : Failure} (h : .failure f ∈ incidents source) :
    f.JudgedBy (tokenize source) (starts source) := by
  have sound := Account.sound_of (tokenize source)
  have judged := (sound.judged f (List.mem_reverse.mp h)).2
  unfold Failure.JudgedBy starts at *
  simpa only [List.mem_reverse] using judged

/-- What silences a failure is reported itself. -/
theorem reports_eq_nil_iff_incidents (source : String) :
    (parse source).reports = [] ↔ incidents source = [] := by
  constructor
  · intro quiet
    apply List.eq_nil_iff_forall_not_mem.mpr
    intro incident mem
    have silent : incident.report? = none := by
      have all := parse_reports_of_incidents source
      rw [quiet] at all
      exact List.filterMap_eq_nil_iff.mp all.symm incident mem
    cases incident with
    | lexical reason pos => cases silent
    | failure f =>
      obtain ⟨-, -, -, heard⟩ := judgedBy_starts mem
      have held : f.heard ≠ true := by
        intro loud
        rw [Incident.report?, if_pos loud] at silent
        cases silent
      have bad : ∃ k, FaultAt (tokenize source) k := by
        apply Classical.byContradiction
        intro clean
        exact held (heard.mpr fun k _ _ fault => absurd ⟨k, fault⟩ clean)
      obtain ⟨k, reason, pos, fault⟩ := bad
      have reported := parse_lexical_reports source
      rw [quiet] at reported
      have none := List.filterMap_eq_nil_iff.mp reported.symm _ (List.mem_of_getElem? fault)
      cases none
  · intro fine
    rw [parse_reports_of_incidents, fine]
    rfl

/-! ## Acceptance -/

/-- The lexical reports are the faults that the scanner finds. A program comes out exactly if
nothing is reported, that is, if nothing went wrong. Diagnostics collect what is reported, and are
empty exactly if a program comes out. -/
theorem parse_reports_lexical_and_accepts_iff (source : String) :
    (parse source).reports.filter (·.isLexical) = (tokenize source).filterMap Item.report? ∧
      ((parse source).program?.isSome = true ↔ (parse source).reports = []) ∧
      ((parse source).program?.isSome = true ↔ incidents source = []) ∧
      (Diagnostics.empty.parse source).2.reports = (parse source).reports ∧
      ((Diagnostics.empty.parse source).1 = none ↔
        (Diagnostics.empty.parse source).2.isEmpty = false) := by
  have accepted : (parse source).program?.isSome = true ↔ (parse source).reports = [] := by
    rw [Option.isSome_iff_ne_none, Ne, Parsed.program?_eq_none_iff, Ne, not_not]
  have collected : (Diagnostics.empty.parse source).2.reports = (parse source).reports :=
    List.nil_append _
  refine ⟨parse_lexical_reports source, accepted, ?_, collected, ?_⟩
  · exact accepted.trans (reports_eq_nil_iff_incidents source)
  · rw [Diagnostics.isEmpty, collected, List.isEmpty_eq_false_iff]
    exact Parsed.program?_eq_none_iff

/-! ## Failures -/

/-- The reports are those of the incidents. A failure is reported exactly if every lexical fault
between the beginning of its statement and its own place has the beginning of another statement
behind it, in front of that place. -/
theorem failure_heard_iff_covered (source : String) :
    (parse source).reports = (incidents source).filterMap Incident.report? ∧
      ∀ f, .failure f ∈ incidents source →
        f.first ∈ starts source ∧ f.first ≤ f.place ∧
        (tokenize source)[f.place]? = some (.token f.token) ∧
        (f.heard = true ↔
          ∀ k, f.first < k → k < f.place → FaultAt (tokenize source) k →
            ∃ j ∈ starts source, k < j ∧ j < f.place) :=
  ⟨parse_reports_of_incidents source, fun _ mem => judgedBy_starts mem⟩

/-- The statement in the block lifts the silence: the loop around it lacks its end, and that is
reported although a lexical fault stands behind the beginning of the loop. -/
theorem failure_heard_behind_inner_statement :
    ∃ f, .failure f ∈ incidents "while @ x \x7b y;" ∧ f.heard = true ∧ f.first = 0 ∧ f.place = 6 ∧
      FaultAt (tokenize "while @ x \x7b y;") 1 ∧
      ∃ j ∈ starts "while @ x \x7b y;", 1 < j ∧ j < 6 := by
  have found : incidents "while @ x \x7b y;" =
      [.lexical (.illegal '@') ⟨1, 7⟩,
        .failure ⟨0, 6, .eof ⟨1, 15⟩, .unexpectedEnd .closeBrace, true⟩] := by cbv
  have fault : FaultAt (tokenize "while @ x \x7b y;") 1 := ⟨.illegal '@', ⟨1, 7⟩, by cbv⟩
  have mem : .failure ⟨0, 6, .eof ⟨1, 15⟩, .unexpectedEnd .closeBrace, true⟩ ∈
      incidents "while @ x \x7b y;" := by
    rw [found]
    exact List.mem_cons_of_mem _ List.mem_cons_self
  obtain ⟨-, -, -, heard⟩ := (failure_heard_iff_covered "while @ x \x7b y;").2 _ mem
  exact ⟨_, mem, rfl, rfl, rfl, fault, heard.mp rfl 1 (by decide) (by decide) fault⟩

end ImpSyntax
