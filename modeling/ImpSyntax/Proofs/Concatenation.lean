import Mathlib
import ImpSyntax.Proofs.Language
import ImpSyntax.Proofs.Parser.Braces
import ImpSyntax.Proofs.Recovery

/-!
# A program and a text below it

Behind a program nothing is open, but that a conditional at its end could go on with an `else`. A text
below it that does not begin with one is read as it is read alone, also where it is not a program: the
reports on the whole are those on that text, further down, and if there are none the statements of the
one are followed by the statements of the other.

Main results:

* `Parser.rests_of_quiet` — the state behind a program.
* `reports_append_newline` — the reports on a program and a text below it.
* `parse_append_newline` — which of these are accepted, and with which statements.
-/

namespace ImpSyntax

open Precedence Grammar

namespace Parser

/-! ## The state behind a program -/

/-- The state with a conditional that could go on with an `else` taken as complete. -/
def withoutElse (p : Parser) : Parser :=
  match p.mode with
  | .thenRead c thenBody pos => p.push (.ifElse c thenBody none pos)
  | _ => p

theorem withoutElse_reports (p : Parser) : p.withoutElse.reports = p.reports := by
  unfold withoutElse
  split <;> rfl

theorem withoutElse_feed_fault (p : Parser) (reason : LexicalFault) (pos : Position) :
    p.withoutElse.feed (.fault reason pos) = (p.feed (.fault reason pos)).withoutElse := by
  obtain ⟨blocks, body, mode, pending, reports⟩ := p
  cases mode <;> rfl

theorem feedToken_withoutElse (p : Parser) {t : Token} (other : t.kind ≠ .keyword .elseWord) :
    p.withoutElse.feedToken t = p.feedToken t := by
  unfold withoutElse
  split
  · next c thenBody pos mode =>
    rw [feedToken_thenRead mode, if_neg other]
    exact feedToken_ready rfl
  · rfl

/-- A text that does not begin with `else` is read as it is behind a complete conditional. -/
theorem foldl_feed_withoutElse {items : List Item} {last : Token} (eof : last.kind = .eof)
    (noElse : ∀ t ∈ (items.filterMap Item.token?).head?, t.kind ≠ .keyword .elseWord) (p : Parser) :
    (items ++ [Item.token last]).foldl feed p.withoutElse =
      (items ++ [Item.token last]).foldl feed p := by
  induction items generalizing p with
  | nil => exact feedToken_withoutElse p (by rw [eof]; simp)
  | cons item items ih =>
    cases item with
    | token t =>
      have first : p.withoutElse.feedToken t = p.feedToken t :=
        feedToken_withoutElse p (noElse t rfl)
      exact congrArg (fun q => (items ++ [Item.token last]).foldl feed q) first
    | fault reason pos =>
      rw [List.cons_append, List.foldl_cons, withoutElse_feed_fault]
      exact ih noElse _

/-- Where the end of the text would not be reported, nothing is open. -/
theorem rests_of_quiet {ts : List Token} {last : Token} (goesOn : ∀ t ∈ ts, t.kind ≠ .eof)
    (eof : last.kind = .eof) (quiet : ((ts ++ [last]).foldl feedToken start).reports = []) :
    (ts.foldl feedToken start).withoutElse.Rests false := by
  rw [List.foldl_append] at quiet
  have account := accounts_of_quiet goesOn (quiet_of_foldl quiet)
  have heeds := account.ne_recovering
  have room := hasRoom_of_quiet account.1 (List.cons_ne_nil last []) quiet
  have nothing := (lacks_feedToken eof account.1 room).eq_zero quiet
  generalize ts.foldl feedToken start = p at *
  rw [level] at nothing
  have blocks : p.blocks = [] := List.length_eq_zero_iff.mp (by omega)
  unfold withoutElse
  cases h : p.mode with
  | ready => exact ⟨blocks, account.1, h⟩
  | thenRead => exact ⟨blocks, account.1, rfl⟩
  | recovering => exact absurd h heeds
  -- Every other mode lacks something, the end of a block or that of a statement.
  | opening | expr | closing | declaring | named | typed | elseRead =>
    rw [h] at nothing
    simp [Mode.opened, Mode.atBoundary] at nothing

/-- Behind a program a text is read as it is read alone, as far as the reports go. -/
theorem reports_behind_quiet {ts : List Token} {eof last : Token}
    (goesOn : ∀ t ∈ ts, t.kind ≠ .eof) (end_ : eof.kind = .eof)
    (quiet : ((ts ++ [eof]).foldl feedToken start).reports = []) {items : List Item}
    (goesOn' : ∀ t, .token t ∈ items → t.kind ≠ .eof) (last_ : last.kind = .eof)
    (noElse : ∀ t ∈ (items.filterMap Item.token?).head?, t.kind ≠ .keyword .elseWord) :
    ((items ++ [Item.token last]).foldl feed (ts.foldl feedToken start)).reports =
      ((items ++ [Item.token last]).foldl feed start).reports := by
  have rests := rests_of_quiet goesOn end_ quiet
  have none : (ts.foldl feedToken start).withoutElse.reports = [] := by
    rw [List.foldl_append] at quiet
    rw [withoutElse_reports]
    exact quiet_of_foldl quiet
  rw [← foldl_feed_withoutElse last_ noElse, rests.eq_atop, reports_foldl_feed_atop goesOn', none,
    List.append_nil]

end Parser

/-! ## The text below -/

theorem ne_eof_of_mem_frontOf_relocate (f : Position → Position) {source : String} {t : Token}
    (h : .token t ∈ (frontOf source).map (·.relocate f)) : t.kind ≠ .eof := by
  obtain ⟨item, mem, same⟩ := List.mem_map.mp h
  cases item with
  | token u =>
    cases same
    exact (ne_eof_of_mem_frontOf mem : u.kind ≠ .eof)
  | fault => cases same

/-- The first token of a text, where it stands further down. -/
theorem first_frontOf_relocate (f : Position → Position) {source : String} {k : Kind}
    (h : ∀ t ∈ (words source).head?, t.kind ≠ k) :
    ∀ t ∈ (((frontOf source).map (·.relocate f)).filterMap Item.token?).head?, t.kind ≠ k := by
  have moved (item : Item) : (item.relocate f).token? = item.token?.map (·.relocate f) := by
    cases item <;> rfl
  rw [words_eq (tokenize_eq_front_append source) fun _ => ne_eof_of_mem_frontOf,
    List.head?_map] at h
  rw [List.filterMap_map, Function.comp_def, funext moved, ← List.map_filterMap, List.head?_map]
  intro t mem
  obtain ⟨u, first, rfl⟩ := Option.mem_map.mp mem
  exact h u.erase (Option.mem_map_of_mem _ first)

/-- The tokens of a program and the end behind them are read without a report. -/
theorem quiet_of_parse {source : String} {p : Program}
    (accepted : (parse source).program? = some p) {ts : List Token}
    (front : frontOf source = ts.map .token) :
    ((ts ++ [Token.eof (endOf source)]).foldl Parser.feedToken .start).reports = [] := by
  have none := (Parsed.program?_eq_some_iff.mp accepted).1
  rw [parse, Parser.run, tokenize_eq_front_append, front, ← List.map_singleton, ← List.map_append,
    Parser.foldl_feed_tokens] at none
  exact List.reverse_eq_nil_iff.mp none

/-- The tokens of a program derive it where they stand further down. -/
theorem derives_relocate {source : String} {p : Program}
    (accepted : (parse source).program? = some p) (f : Position → Position) :
    ∃ (ts : List Token) (demand : Nat),
      (tokenize source).map (·.relocate f) = (ts ++ [Token.eof (f (endOf source))]).map .token ∧
      Derives (.statements (Stmt.relocateList f p.body)) ts demand ∧ demand ≤ maxNesting := by
  obtain ⟨ts, -, front, spelled, -⟩ := derives_of_parse accepted
  have moved : (tokenize source).map (·.relocate f) =
      (ts.map (·.relocate f) ++ [Token.eof (f (endOf source))]).map .token := by
    rw [tokenize_eq_front_append, front, List.map_append, List.map_append, List.map_map,
      List.map_map]
    rfl
  have goesOn : ∀ t ∈ ts, t.kind ≠ .eof := fun t mem => (spelled t mem).ne_eof
  have run : (Parser.run ((tokenize source).map (·.relocate f))).program? = some (p.relocate f) := by
    rw [Parser.run_relocate f (tokenize_ne_nil source), Parsed.program?_relocate]
    exact congrArg (Option.map _) accepted
  rw [moved] at run
  obtain ⟨demand, within, derived⟩ :=
    Parser.derives_of_run (Token.ne_eof_of_mem_relocate goesOn f) rfl run
  exact ⟨_, demand, moved, derived, within⟩

section Below

variable {a b : String} {p : Program} (accepted : (parse a).program? = some p)
  (unmarked : b.toList.head? ≠ some '\ufeff')
include accepted unmarked

/-- A program below a program is a program, of the statements of both. -/
theorem body_append_newline {q : Program} (below : (parse b).program? = some q) :
    (parse (a ++ "\n" ++ b)).program?.map Program.body =
      some (p.body ++ Stmt.relocateList (.below (lineCount a)) q.body) := by
  obtain ⟨ts, demand, front, -, -, first, within⟩ := derives_of_parse accepted
  obtain ⟨us, demand', moved, second, within'⟩ :=
    derives_relocate below (.below (lineCount a))
  have whole := tokenize_append_newline (faultFree_of_parse accepted).closed unmarked
  rw [front, moved, ← List.map_append, ← List.append_assoc] at whole
  rw [parse, whole, Parser.run_of_derives (first.statements_append second)
    (Nat.max_le.mpr ⟨within, within'⟩) rfl]
  rfl

variable (noElse : ∀ t ∈ (words b).head?, t.kind ≠ .keyword .elseWord)
include noElse

/-- What is reported on a text below a program is what is reported on it alone. -/
theorem reports_append_newline :
    (parse (a ++ "\n" ++ b)).reports =
      (parse b).reports.map (·.relocate (.below (lineCount a))) := by
  obtain ⟨ts, -, front, spelled, -⟩ := derives_of_parse accepted
  have goesOn : ∀ t ∈ ts, t.kind ≠ .eof := fun t mem => (spelled t mem).ne_eof
  have quiet := quiet_of_parse accepted front
  have whole := tokenize_append_newline (faultFree_of_parse accepted).closed unmarked
  have moved : (tokenize b).map (·.relocate (.below (lineCount a))) =
      (frontOf b).map (·.relocate (.below (lineCount a))) ++
        [.token (.eof ((endOf b).below (lineCount a)))] := by
    rw [tokenize_eq_front_append, List.map_append]
    rfl
  have alone := Parser.run_relocate (.below (lineCount a)) (tokenize_ne_nil b)
  calc (parse (a ++ "\n" ++ b)).reports
      = (((tokenize b).map (·.relocate (.below (lineCount a)))).foldl Parser.feed
          (ts.foldl Parser.feedToken .start)).reports.reverse := by
        rw [parse, Parser.run, whole, List.foldl_append, front, Parser.foldl_feed_tokens]
    _ = (Parser.run ((tokenize b).map (·.relocate (.below (lineCount a))))).reports := by
        rw [moved, Parser.reports_behind_quiet goesOn rfl quiet
          (fun _ => ne_eof_of_mem_frontOf_relocate _) rfl (first_frontOf_relocate _ noElse)]
        rfl
    _ = (parse b).reports.map (·.relocate (.below (lineCount a))) := by
        rw [alone]
        rfl

end Below

/-- A text that is accepted makes no difference to one that stands below it, but that all positions
are further down: the reports are the same, and so are the statements, behind those of the text
above. -/
theorem parse_append_newline {a b : String} {p : Program}
    (accepted : (parse a).program? = some p) (unmarked : b.toList.head? ≠ some '\ufeff')
    (noElse : ∀ t ∈ (words b).head?, t.kind ≠ .keyword .elseWord) :
    (parse (a ++ "\n" ++ b)).reports =
        (parse b).reports.map (·.relocate (.below (lineCount a))) ∧
      (parse (a ++ "\n" ++ b)).program?.map Program.body =
        (parse b).program?.map fun q =>
          p.body ++ Stmt.relocateList (.below (lineCount a)) q.body := by
  have reports := reports_append_newline accepted unmarked noElse
  refine ⟨reports, ?_⟩
  cases below : (parse b).program? with
  | none =>
    have rejected : (parse (a ++ "\n" ++ b)).program? = none := by
      rw [Parsed.program?_eq_none_iff, reports, Ne, List.map_eq_nil_iff]
      exact Parsed.program?_eq_none_iff.mp below
    rw [rejected]
    rfl
  | some q =>
    rw [body_append_newline accepted unmarked below]
    rfl

/-- A fault is found, or a program begins, where a conditional could still go on. -/
theorem parse_below_conditional :
    (parse "if x \x7b\x7d").program? =
        some ⟨[.ifElse (.location "x" ⟨1, 4⟩) [] none ⟨1, 1⟩], ⟨1, 1⟩⟩ ∧
      (∀ b ∈ ["@ y z", "y = 2;"], b.toList.head? ≠ some '\ufeff' ∧
        ∀ t ∈ (words b).head?, t.kind ≠ .keyword .elseWord) ∧
      (parse ("if x \x7b\x7d" ++ "\n" ++ "@ y z")).reports =
        [⟨.lexical (.illegal '@'), ⟨2, 1⟩⟩, ⟨.syntactic (.missing .semicolon "z"), ⟨2, 5⟩⟩] ∧
      (parse ("if x \x7b\x7d" ++ "\n" ++ "y = 2;")).program?.map Program.body =
        some [.ifElse (.location "x" ⟨1, 4⟩) [] none ⟨1, 1⟩,
          .assign "y" ⟨2, 1⟩ (.literal .int "2" ⟨2, 5⟩) ⟨2, 1⟩] := by
  have accepted : (parse "if x \x7b\x7d").program? =
      some ⟨[.ifElse (.location "x" ⟨1, 4⟩) [] none ⟨1, 1⟩], ⟨1, 1⟩⟩ := by cbv
  have names : (words "@ y z").head? = some ⟨.ident, "y", .unknown⟩ ∧
      (words "y = 2;").head? = some ⟨.ident, "y", .unknown⟩ := by constructor <;> cbv
  have below : ∀ b ∈ ["@ y z", "y = 2;"], b.toList.head? ≠ some '\ufeff' ∧
      ∀ t ∈ (words b).head?, t.kind ≠ .keyword .elseWord := by
    simp [names]
  have faulty := below "@ y z" (by simp)
  have clean := below "y = 2;" (by simp)
  refine ⟨accepted, below, ?_, ?_⟩
  · rw [(parse_append_newline accepted faulty.1 faulty.2).1]
    cbv
  · rw [(parse_append_newline accepted clean.1 clean.2).2]
    cbv

end ImpSyntax
