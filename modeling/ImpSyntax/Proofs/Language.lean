import ImpSyntax.Proofs.Lexical.Lines
import ImpSyntax.Proofs.Parser.Sound
import ImpSyntax.Tree.Build

/-!
# The language of the parser

A text in which the scanner finds nothing at fault is accepted exactly if its words are derived as a
program whose demand keeps to the limit, and then that program is what comes out. A text whose words
are derived beyond the limit is rejected, and the first report on it is that of a nesting too deep.

Main results:

* `derives_of_parse` — the tokens of an accepted text derive its program.
* `parse_eq_some_iff_derives` — which texts are accepted, and with which programs.
-/

namespace ImpSyntax

open Precedence Grammar Reading

/-- The text is rejected, and the first report on it is that of a nesting too deep. -/
def RefusedForDepth (source : String) : Prop :=
  (parse source).program? = none ∧
    ∃ pos, (parse source).reports.head? = some ⟨.syntactic .tooDeep, pos⟩

theorem words_pos {source : String} {t : Token} (h : t ∈ words source) : t.pos = .unknown := by
  obtain ⟨t', -, rfl⟩ := List.mem_map.mp h
  rfl

theorem Grammar.startOf_eq_unknown {ts : List Token} (h : ∀ t ∈ ts, t.pos = .unknown) :
    startOf ts = .unknown := by
  cases ts with
  | nil => rfl
  | cons t ts => exact h t List.mem_cons_self

theorem tokenize_ne_nil (source : String) : tokenize source ≠ [] := by
  obtain ⟨items, last, found, -⟩ :=
    Scanner.items_shape (withoutByteOrderMark source.toList) .start
  have scanned : tokenize source = items ++ [.token (.eof last)] := found
  simp [scanned]

theorem Parser.reports_foldl_feed_ne_nil {items : List Item} {reason : LexicalFault}
    {pos : Position} (h : .fault reason pos ∈ items) (p : Parser) :
    (items.foldl feed p).reports ≠ [] := by
  obtain ⟨before, behind, rfl⟩ := List.append_of_mem h
  rw [List.foldl_append, List.foldl_cons]
  intro none
  have kept := reports_foldl_feed ((before.foldl feed p).feed (.fault reason pos)) behind
  rw [none, List.suffix_nil] at kept
  cases kept

theorem faultFree_of_parse {source : String} {p : Program}
    (accepted : (parse source).program? = some p) : FaultFree source := by
  have quiet := (Parsed.program?_eq_some_iff.mp accepted).1
  have none : ((tokenize source).foldl Parser.feed .start).reports = [] :=
    List.reverse_eq_nil_iff.mp quiet
  intro item hitem
  cases item with
  | token t => rfl
  | fault reason pos => exact absurd none (Parser.reports_foldl_feed_ne_nil hitem _)

section Clean

variable {source : String} (clean : FaultFree source)
include clean

/-- Parsing a text and its words comes to the same, but for the positions. -/
theorem run_words :
    Parser.run ((words source ++ [Token.eof .unknown]).map .token) =
      (parse source).relocate fun _ => .unknown := by
  rw [← tokenize_eq_words clean]
  exact Parser.run_relocate (fun _ => .unknown) (tokenize_ne_nil source)

theorem parse_erase_iff (body : List Stmt) :
    (∃ p, (parse source).program? = some p ∧ p.erase.body = body) ↔
      ∃ demand ≤ maxNesting, Derives (.statements body) (words source) demand := by
  have notEof : ∀ t ∈ words source, t.kind ≠ .eof := fun t ht => (words_spelled ht).ne_eof
  have begun : startOf (words source ++ [Token.eof .unknown]) = .unknown := by
    refine startOf_eq_unknown fun t ht => ?_
    rcases List.mem_append.mp ht with ht | ht
    · exact words_pos ht
    · cases List.mem_singleton.mp ht
      rfl
  have accepted := @Parser.run_eq_some_iff _ (.eof .unknown) ⟨body, .unknown⟩ notEof rfl
  rw [run_words clean, Parsed.program?_relocate, Option.map_eq_some_iff, begun] at accepted
  have same : ∀ p : Program, p.erase.body = body ↔ p.erase = ⟨body, .unknown⟩ := by
    intro p
    constructor
    · rintro rfl; rfl
    · rintro h; rw [h]
  simp only [same]
  exact accepted.trans (and_iff_left rfl)

theorem refusedForDepth_of_derives {body : List Stmt} {demand : Nat}
    (h : Derives (.statements body) (words source) demand) (deep : maxNesting < demand) :
    RefusedForDepth source := by
  obtain ⟨pos, reported⟩ := Parser.run_tooDeep_of_derives h deep [.token (.eof .unknown)]
  have whole := run_words clean
  rw [List.map_append] at whole
  rw [List.map_singleton] at whole
  rw [whole] at reported
  change ((parse source).reports.map _).head? = _ at reported
  rw [List.head?_map, Option.map_eq_some_iff] at reported
  obtain ⟨⟨reason, at_⟩, first, same⟩ := reported
  cases same
  refine ⟨Parsed.program?_eq_none_iff.mpr fun none => ?_, at_, first⟩
  rw [none] at first
  cases first

end Clean

/-! ## Expressions as texts -/

/-- Words that are an expression, and a semicolon, are a program. -/
theorem derives_value {ts : List Token} {e : Expr} {links demand : Nat}
    (h : Phrase loosest ts e links demand) (all : ∀ t ∈ ts, t.IsWord) :
    Derives (.statements [.expr e .unknown]) (ts ++ [Mark.semicolon.token]) demand := by
  have stmt := @Derives.expr Mark.semicolon.token _ _ _ _ h rfl
  have whole := stmt.cons .nil
  rw [startOf_eq_unknown fun t ht => (all t ht).2, Nat.max_zero, List.append_nil] at whole
  exact whole

/-- The text of an expression that stands as a statement. -/
def valueText (ts : List Token) : String := spaced (ts ++ [Mark.semicolon.token])

theorem words_valueText {ts : List Token} (all : ∀ t ∈ ts, t.IsWord) :
    FaultFree (valueText ts) ∧ words (valueText ts) = ts ++ [Mark.semicolon.token] := by
  refine words_spaced fun t ht => ?_
  rcases List.mem_append.mp ht with ht | ht
  · exact all t ht
  · cases List.mem_singleton.mp ht
    exact Mark.semicolon.isWord_token

theorem parse_valueText {ts : List Token} {e : Expr} {links demand : Nat}
    (h : Phrase loosest ts e links demand) (all : ∀ t ∈ ts, t.IsWord)
    (within : demand ≤ maxNesting) :
    ∃ p, (parse (valueText ts)).program? = some p ∧ p.erase.body = [.expr e .unknown] := by
  obtain ⟨clean, words_eq⟩ := words_valueText all
  refine (parse_erase_iff clean _).mpr ⟨demand, within, ?_⟩
  rw [words_eq]
  exact derives_value h all

/-- A name with `n` signs in front of it. -/
def signed (n : Nat) : List Token :=
  List.replicate n Mark.minus.token ++ [⟨.ident, "x", .unknown⟩]

theorem signed_isWord (n : Nat) : ∀ t ∈ signed n, t.IsWord := by
  intro t ht
  rcases List.mem_append.mp ht with ht | ht
  · rw [List.eq_of_mem_replicate ht]
    exact Mark.minus.isWord_token
  · cases List.mem_singleton.mp ht
    exact ⟨⟨⟨by decide, by simp⟩, fun w => by cases w <;> decide⟩, rfl⟩

theorem phrase_signed (n : Nat) :
    Phrase unaryLevel (signed n) (.repeatUnary "-" n (.location "x" .unknown)) 0 n := by
  induction n with
  | zero => exact .name rfl
  | succ n ih => exact @Phrase.sign Mark.minus.token _ _ _ _ rfl ih

/-! ## Acceptance -/

/-- A parsed program is derived within the limit from the tokens in front of the end, which are
spelled as their kinds say. -/
theorem derives_of_parse {source : String} {p : Program}
    (accepted : (parse source).program? = some p) :
    ∃ (ts : List Token) (demand : Nat), frontOf source = ts.map .token ∧
      (∀ t ∈ ts, t.kind.Spells t.lexeme.toList) ∧ words source = ts.map Token.erase ∧
      Derives (.statements p.body) ts demand ∧ demand ≤ maxNesting := by
  obtain ⟨ts, front, goesOn, tokens⟩ := (faultFree_of_parse accepted).exists_tokens
  have run : (Parser.run ((ts ++ [Token.eof (endOf source)]).map .token)).program? = some p := by
    rw [List.map_append, ← front, List.map_singleton, ← tokenize_eq_front_append]
    exact accepted
  obtain ⟨demand, within, derived⟩ := Parser.derives_of_run goesOn rfl run
  refine ⟨ts, demand, front, fun t mem => ?_, tokens, derived, within⟩
  have word : t.erase ∈ words source := tokens ▸ List.mem_map_of_mem mem
  have spelled := words_spelled word
  exact spelled

/-- A text without lexical faults is accepted with the statements that the grammar derives from its
words, where their demand is within the limit, and with no others. Where the grammar derives
statements of a greater demand the text is refused, for its depth. -/
theorem parse_eq_some_iff_derives {source : String} (clean : FaultFree source) :
    (∀ body : List Stmt, (∃ p, (parse source).program? = some p ∧ p.erase.body = body) ↔
      ∃ demand ≤ maxNesting, Derives (.statements body) (words source) demand) ∧
    ∀ (body : List Stmt) (demand : Nat), Derives (.statements body) (words source) demand →
      maxNesting < demand → RefusedForDepth source :=
  ⟨parse_erase_iff clean, fun _ _ derived deep => refusedForDepth_of_derives clean derived deep⟩

/-- A name behind 256 signs is read; behind one sign more it is too deep. -/
theorem parse_signed_at_limit :
    FaultFree (valueText (signed 256)) ∧
      (∃ p, (parse (valueText (signed 256))).program? = some p ∧
        p.erase.body = [.expr (.repeatUnary "-" 256 (.location "x" .unknown)) .unknown]) ∧
      FaultFree (valueText (signed 257)) ∧ RefusedForDepth (valueText (signed 257)) := by
  obtain ⟨clean, words_eq⟩ := words_valueText (signed_isWord 256)
  obtain ⟨clean', words_eq'⟩ := words_valueText (signed_isWord 257)
  have loose : loosest ≤ unaryLevel := by decide
  have derived := derives_value ((phrase_signed 256).mono loose) (signed_isWord 256)
  have derived' := derives_value ((phrase_signed 257).mono loose) (signed_isWord 257)
  rw [← words_eq] at derived
  rw [← words_eq'] at derived'
  exact ⟨clean, ((parse_eq_some_iff_derives clean).1 _).mpr ⟨256, Nat.le_refl _, derived⟩,
    clean', (parse_eq_some_iff_derives clean').2 _ 257 derived' (by decide)⟩

end ImpSyntax
