import Mathlib
import ImpSyntax.Proofs.Lexical.Lines
import ImpSyntax.Proofs.Parser.Viable

/-!
# Where the first syntax fault lies

In a text without lexical faults the first report lies at the first token with which no program goes
on: the tokens in front of it are the beginning of a program, and with that token behind them they are
the beginning of none. A nesting too deep is the exception, as what is refused for it can be
grammatical.

Main results:

* `Parser.exists_firstReport` — the first report is made by one step.
* `Parser.firstReport_of_sentence` — a program is refused for its depth alone.
* `parse_first_report_at_first_impossible` — the tokens in front of the first report, and the token
  at it.
-/

namespace ImpSyntax

open Precedence Grammar

namespace Parser

/-- The first report on the tokens, if there is one. -/
def firstReport (ts : List Token) : Option Report := (ts.foldl feedToken start).reports.getLast?

section FirstReport

variable {ts before : List Token} {t : Token} {r : Report}

theorem firstReport_eq_none_iff :
    firstReport ts = none ↔ (ts.foldl feedToken start).reports = [] := List.getLast?_eq_none_iff

theorem parse_reports_head? {source : String} (tokens : tokenize source = ts.map .token) :
    (parse source).reports.head? = firstReport ts := by
  rw [parse, run, tokens, foldl_feed_tokens, List.head?_reverse, firstReport]

/-- What is read behind it leaves the first report as it is. -/
theorem firstReport_append (first : firstReport ts = some r) (us : List Token) :
    firstReport (ts ++ us) = some r := by
  obtain ⟨new, added⟩ := reports_foldl_feedToken (ts.foldl feedToken start) us
  have first' : (ts.foldl feedToken start).reports.getLast? = some r := first
  rw [firstReport, List.foldl_append, ← added, List.getLast?_append, first', Option.some_or]

theorem firstReport_erase (ts : List Token) :
    firstReport (ts.map Token.erase) = (firstReport ts).map (·.relocate fun _ => .unknown) := by
  have moved := foldl_feed_relocate (fun _ => .unknown) start (ts.map .token)
  have same : (ts.map Item.token).map (·.relocate fun _ => .unknown) =
      (ts.map Token.erase).map .token := by
    rw [List.map_map, List.map_map]
    rfl
  rw [same, foldl_feed_tokens, foldl_feed_tokens] at moved
  have state : (ts.map Token.erase).foldl feedToken start =
      (ts.foldl feedToken start).relocate fun _ => .unknown := moved
  rw [firstReport, state, relocate, List.getLast?_map, firstReport]

/-- The first report is made by one step. -/
theorem exists_firstReport (first : firstReport ts = some r) :
    ∃ before t after, ts = before ++ t :: after ∧ firstReport before = none ∧
      firstReport (before ++ [t]) = some r := by
  induction ts using List.reverseRecOn with
  | nil => cases first
  | append_singleton ts t ih =>
    cases earlier : firstReport ts with
    | none => exact ⟨ts, t, [], rfl, earlier, first⟩
    | some r' =>
      have same := firstReport_append earlier [t]
      rw [first, Option.some.injEq] at same
      subst same
      obtain ⟨before, u, after, rfl, quiet, made⟩ := ih earlier
      exact ⟨before, u, after ++ [t], by simp, quiet, made⟩

theorem pos_of_firstReport (quiet : firstReport before = none)
    (made : firstReport (before ++ [t]) = some r) : r.pos = t.pos := by
  obtain ⟨new, added, all, -⟩ := adds_feedToken (before.foldl feedToken start) t
  rw [firstReport_eq_none_iff.mp quiet, List.append_nil] at added
  rw [firstReport, List.foldl_append, List.foldl_cons, List.foldl_nil, added] at made
  exact (all r (List.mem_of_getLast? made)).2

/-- Where there is no room for the next token, the first report is that of a nesting too deep. -/
theorem hasRoom_of_firstReport (open_ : (before.foldl feedToken start).pending = false)
    (quiet : firstReport before = none) (made : firstReport (before ++ [t]) = some r)
    (shallow : r.fault ≠ .syntactic .tooDeep) : (before.foldl feedToken start).HasRoom := by
  by_contra full
  obtain ⟨pos, new, refused⟩ := refuses_of_not_hasRoom open_ full t
  rw [firstReport_eq_none_iff.mp quiet] at refused
  rw [firstReport, List.foldl_append, List.foldl_cons, List.foldl_nil, ← refused,
    List.getLast?_append, List.getLast?_singleton, Option.some_or, Option.some.injEq] at made
  exact shallow (made ▸ rfl)

/-- A program is refused for its depth alone. -/
theorem firstReport_of_sentence {eof : Token} (sentence : IsSentence ts) (he : eof.kind = .eof)
    (first : firstReport (ts ++ [eof]) = some r) : r.fault = .syntactic .tooDeep := by
  obtain ⟨body, demand, derived⟩ := sentence
  have whole : (run ((ts ++ [eof]).map .token)).reports.head? = some r := by
    rw [← first, run, foldl_feed_tokens, List.head?_reverse, firstReport]
  by_cases fits : demand ≤ maxNesting
  · rw [run_of_derives derived fits he] at whole
    cases whole
  · obtain ⟨pos, deep⟩ := run_tooDeep_of_derives derived (Nat.not_le.mp fits) [.token eof]
    rw [List.map_append, List.map_singleton] at whole
    rw [deep] at whole
    cases whole
    rfl

/-- No program goes on with the token at which the first report is made, wherever its tokens are. -/
theorem not_prefix_of_firstReport (made : firstReport (before ++ [t]) = some r)
    (shallow : r.fault ≠ .syntactic .tooDeep) (sentence : IsSentence ts) (pos : Position) :
    ¬ (before ++ [t]).map Token.erase <+: (ts ++ [Token.eof pos]).map Token.erase := by
  rintro ⟨rest, whole⟩
  have erased := firstReport_erase (before ++ [t])
  rw [made] at erased
  have sentenceFirst := firstReport_append erased rest
  rw [whole, firstReport_erase] at sentenceFirst
  obtain ⟨r', first, same⟩ := Option.map_eq_some_iff.mp sentenceFirst
  have fault : r'.fault = r.fault := (Report.mk.inj same).1
  exact shallow (fault ▸ firstReport_of_sentence sentence rfl first)

/-- The tokens in front of the first report are the beginning of a program. -/
theorem completable_of_firstReport (goesOn : ∀ u ∈ before, u.kind ≠ .eof)
    (quiet : firstReport before = none) (made : firstReport (before ++ [t]) = some r)
    (shallow : r.fault ≠ .syntactic .tooDeep) : Completable IsSentence before := by
  have account := accounts_of_quiet goesOn (firstReport_eq_none_iff.mp quiet)
  exact account.completable (hasRoom_of_firstReport account.1 quiet made shallow)

end FirstReport

end Parser

/-! ## The first report on a text -/

/-- No two items of a text begin at the same position. -/
theorem item_eq_of_pos_eq {source : String} {a b : Item} (ha : a ∈ tokenize source)
    (hb : b ∈ tokenize source) (same : a.pos = b.pos) : a = b := by
  have ordered := pairwise_pos_tokenize source
  have apart : ((tokenize source).map Item.pos).Nodup := by
    refine List.pairwise_map.mpr (ordered.imp fun before same => ?_)
    rw [same, Position.lt_iff] at before
    omega
  exact List.inj_on_of_nodup_map apart ha hb same

/-- The first report on a text without lexical faults is made at the first token with which no text
can be accepted: what is in front of it can be completed, and nothing that is accepted begins with
it and what is in front of it. A nesting too deep is no such report. -/
theorem parse_first_report_at_first_impossible {source : String} {r : Report}
    (clean : FaultFree source) (first : (parse source).reports.head? = some r)
    (shallow : r.fault ≠ .syntactic .tooDeep) :
    ∃ before t after, tokenize source = (before ++ t :: after).map .token ∧ t.pos = r.pos ∧
      (∀ u, .token u ∈ tokenize source → u.pos = r.pos → u = t) ∧
      Completable IsSentence (before.map Token.erase) ∧
      ∀ ts pos, IsSentence ts →
        ¬ (before ++ [t]).map Token.erase <+: (ts ++ [Token.eof pos]).map Token.erase := by
  obtain ⟨ts, front, goesOn, -⟩ := clean.exists_tokens
  have tokens : tokenize source = (ts ++ [Token.eof (endOf source)]).map .token := by
    rw [tokenize_eq_front_append, front, List.map_append, List.map_singleton]
  rw [Parser.parse_reports_head? tokens] at first
  obtain ⟨before, t, after, split, quiet, made⟩ := Parser.exists_firstReport first
  have place := Parser.pos_of_firstReport quiet made
  have inFront : before <+: ts := by
    refine List.prefix_of_prefix_length_le ⟨t :: after, split.symm⟩ (List.prefix_append _ _) ?_
    have lengths := congrArg List.length split
    simp only [List.length_append, List.length_cons, List.length_nil] at lengths
    omega
  rw [split] at tokens
  refine ⟨before, t, after, tokens, place.symm, fun u mem same => ?_, ?_, fun us pos sentence =>
    Parser.not_prefix_of_firstReport made shallow sentence pos⟩
  · have there : .token t ∈ tokenize source := by simp [tokens]
    exact Item.token.inj (item_eq_of_pos_eq mem there (same.trans place))
  · have quiet' := Parser.firstReport_erase before
    have made' := Parser.firstReport_erase (before ++ [t])
    rw [quiet] at quiet'
    rw [made, List.map_append] at made'
    refine Parser.completable_of_firstReport (fun u mem => ?_) quiet' made' shallow
    obtain ⟨u', mem', rfl⟩ := List.mem_map.mp mem
    exact goesOn u' (inFront.subset mem')

/-- Behind a name that begins a statement no name can stand. -/
theorem parse_first_report_behind_name :
    FaultFree "x y;" ∧
      (parse "x y;").reports.head? = some ⟨.syntactic (.missing .semicolon "y"), ⟨1, 3⟩⟩ ∧
      Completable IsSentence [⟨.ident, "x", .unknown⟩] ∧
      ∀ ts pos, IsSentence ts →
        ¬ [⟨.ident, "x", .unknown⟩, ⟨.ident, "y", .unknown⟩] <+:
          (ts ++ [Token.eof pos]).map Token.erase := by
  have tokens : tokenize "x y;" =
      [⟨.ident, "x", ⟨1, 1⟩⟩, ⟨.ident, "y", ⟨1, 3⟩⟩, ⟨.mark .semicolon, ";", ⟨1, 4⟩⟩,
        .eof ⟨1, 5⟩].map .token := by cbv
  have clean : FaultFree "x y;" := by
    rw [FaultFree, tokens]
    decide
  have first : (parse "x y;").reports.head? =
      some ⟨.syntactic (.missing .semicolon "y"), ⟨1, 3⟩⟩ := by cbv
  obtain ⟨before, t, after, split, -, only, viable, impossible⟩ :=
    parse_first_report_at_first_impossible clean first (by simp)
  have isName : (⟨.ident, "y", ⟨1, 3⟩⟩ : Token) = t := only _ (by simp [tokens]) rfl
  subst isName
  rw [tokens, List.map_inj_right fun _ _ => Item.token.inj] at split
  cases before with
  | nil => simp at split
  | cons x others =>
    cases others with
    | nil =>
      cases split
      exact ⟨clean, first, viable, impossible⟩
    | cons y rest =>
      -- the name would be behind itself
      have later : (⟨.ident, "y", ⟨1, 3⟩⟩ : Token) ∈
          [⟨.mark .semicolon, ";", ⟨1, 4⟩⟩, Token.eof ⟨1, 5⟩] := by
        simp only [List.cons_append, List.cons.injEq] at split
        rw [split.2.2]
        simp
      simp [Token.eof] at later

end ImpSyntax
