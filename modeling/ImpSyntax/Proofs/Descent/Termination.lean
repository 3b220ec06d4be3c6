import Mathlib.Data.List.Perm.Subperm
import ImpSyntax.Proofs.Descent.Statements
import ImpSyntax.Proofs.Language

/-!
# Every text is read to its end

With more calls left to them than there are tokens, the rules come to an end on every text, well
formed or not, and what they make of it is what the parser makes of it. All tokens are taken by
then, and statements were begun at tokens of their own.

Main results:

* `Descent.run_eq_parse` — the rules and the parser come to the same program and the same reports.
* `Descent.run_terminates` — the rules come to an end, and where every step on the way goes.
-/

namespace ImpSyntax

open ImpSyntax.Account

/-! ## Items and their end -/

/-- How many tokens there are in front of the place. -/
def Item.tokensBefore (items : List Item) (place : Nat) : Nat :=
  ((items.take place).filterMap token?).length

theorem Item.tokensBefore_succ {items : List Item} {place : Nat} {item : Item}
    (at_ : items[place]? = some item) :
    tokensBefore items (place + 1) = tokensBefore items place + item.token?.toList.length := by
  unfold tokensBefore
  rw [List.take_add_one, at_, List.filterMap_append, List.length_append]
  cases item <;> rfl

section Front

variable {front : List Item} (goesOn : ∀ t, .token t ∈ front → t.kind ≠ .eof)
include goesOn

theorem Item.countTokens_front (last : Position) :
    countTokens (front ++ [.token (.eof last)]) = (front.filterMap token?).length := by
  induction front with
  | nil => rfl
  | cons item front ih =>
    have behind := ih fun t mem => goesOn t (List.mem_cons_of_mem _ mem)
    cases item with
    | token t =>
      rw [List.cons_append, countTokens, if_neg (goesOn t List.mem_cons_self), behind]
      rfl
    | fault reason pos => exact behind

/-- The account of a text, with its places counted in tokens and not in items. -/
theorem Account.renumber_foldl_feed {items : List Item} {last : Position} {k : Nat}
    (behind : items.drop k = front ++ [.token (.eof last)]) (a : Account) (pos : Position) :
    (((front ++ [Item.token (.eof last)]).zipIdx k).foldl feed a).renumber
        (Item.tokensBefore items) =
      (a.renumber (Item.tokensBefore items)).feedFrom (Item.tokensBefore items k) pos
        (front ++ [.token (.eof last)]) := by
  induction front generalizing k a pos with
  | nil => exact feed_renumber (Item.tokensBefore items) a (.token (.eof last))
  | cons item front ih =>
    have at_ : items[k]? = some item := by
      rw [← List.head?_drop, behind]
      rfl
    have next : items.drop (k + 1) = front ++ [.token (.eof last)] := by
      rw [← List.tail_drop, behind]
      rfl
    have step := feed_renumber (n := k) (Item.tokensBefore items) a item
    have rest := ih (fun t mem => goesOn t (List.mem_cons_of_mem _ mem)) next (a.feed (item, k))
    rw [step, Item.tokensBefore_succ at_] at rest
    cases item with
    | token t =>
      rw [List.cons_append, feedFrom, if_neg (goesOn t List.mem_cons_self)]
      exact rest t.pos
    | fault reason pos' => exact rest pos

end Front

theorem countTokens_tokenize (source : String) :
    Item.countTokens (tokenize source) = (words source).length := by
  have whole := tokenize_eq_front_append source
  rw [words_eq whole fun _ => ne_eof_of_mem_frontOf, List.length_map, whole]
  exact Item.countTokens_front (fun _ => ne_eof_of_mem_frontOf) _

/-- Where nothing was reported, nothing is held back. -/
theorem Parser.pending_of_quiet {items : List Item}
    (quiet : (items.foldl feed .start).reports = []) :
    (items.foldl feed .start).pending = false := by
  cases held : (items.foldl feed .start).pending with
  | false => rfl
  | true =>
    have sound := (Account.sound_of items).pending_iff
    rw [Account.parser_of] at sound
    obtain ⟨k, -, ⟨reason, pos, fault⟩, -⟩ := sound.mp held
    exact absurd quiet (reports_foldl_feed_ne_nil (List.mem_of_getElem? fault) .start)

/-- A text in which nothing is at fault begins at the token that is ahead in front of it. -/
theorem Descent.Cursor.pos_ofItems {items : List Item} (some_ : items ≠ [])
    (clean : ∀ reason pos, .fault reason pos ∉ items) :
    (ofItems items).ahead.pos = Item.firstPos items := by
  cases items with
  | nil => exact absurd rfl some_
  | cons item items =>
    cases item with
    | token t => rfl
    | fault reason pos => exact absurd List.mem_cons_self (clean reason pos)

namespace Descent

/-! ## The end of a run -/

section Run

variable {n : Nat} {items : List Item}

/-- In front of a text no token was taken and no statement begun, outside of all blocks. -/
theorem Cursor.ofItems_fresh (items : List Item) :
    (ofItems items).taken = 0 ∧ (ofItems items).depth = 0 ∧ (ofItems items).starts = [] := by
  obtain ⟨taken, depth, starts, -⟩ := pull_keeps (blank .start) items
  exact ⟨taken, depth, starts⟩

theorem fits_ofItems (enough : Item.countTokens items < n) : Fits n (Cursor.ofItems items) where
  left_lt := by
    rw [Cursor.ofItems, Cursor.left_pull]
    exact enough
  depth_le := (Cursor.ofItems_fresh items).2.1 ▸ Nat.zero_le _

/-- More calls than tokens are never used up. -/
theorem run_returns (enough : Item.countTokens items < n) :
    ∃ body c, run n items =
        some (⟨⟨body, (Cursor.ofItems items).ahead.pos⟩, c.reports.reverse⟩, c) ∧
      statements (expression (within n)) n .eof [] (Cursor.ofItems items) = some (body, c) ∧
      Onward 0 (Cursor.ofItems items) c ∧ c.ahead.kind = .eof := by
  obtain ⟨body, c, found, go, -, ended⟩ :=
    statements_returns .eof (reads_within n) (Nat.le_succ n) [] (fits_ofItems enough)
  refine ⟨body, c, ?_, found, go, ended.elim id id⟩
  unfold run
  dsimp only
  rw [found]
  rfl

/-- At the end all tokens were taken, and no more statements were begun than there were tokens. -/
theorem taken_at_end {c : Cursor} (go : Onward 0 (Cursor.ofItems items) c)
    (ended : c.ahead.kind = .eof) :
    c.taken = Item.countTokens items ∧ c.starts.Nodup ∧
      (∀ k ∈ c.starts, k < Item.countTokens items) ∧
      c.starts.length ≤ Item.countTokens items := by
  obtain ⟨taken, -, starts⟩ := Cursor.ofItems_fresh items
  have count := go.count
  rw [taken, Cursor.left_eq_zero ended, Cursor.ofItems, Cursor.left_pull, Nat.add_zero,
    Nat.zero_add] at count
  obtain ⟨new, same, sorted, range⟩ := go.starts
  rw [starts, List.append_nil] at same
  subst same
  have distinct : c.starts.Nodup := sorted.imp fun gt => Nat.ne_of_gt gt
  have below : ∀ k ∈ c.starts, k < Item.countTokens items := fun k hk => count ▸ (range k hk).2
  refine ⟨count, distinct, below, ?_⟩
  have places : c.starts ⊆ List.range (Item.countTokens items) :=
    fun k hk => List.mem_range.mpr (below k hk)
  have fewer := (List.subperm_of_subset distinct places).length_le
  rwa [List.length_range] at fewer

/-- What is seen of the account of the items is what the rules come to. -/
theorem seen_of_run {front : List Item} {last : Position}
    (goesOn : ∀ t, .token t ∈ front → t.kind ≠ .eof) (whole : items = front ++ [.token (.eof last)])
    (enough : Item.countTokens items < n) {body : List Stmt} {c : Cursor}
    (run : statements (expression (within n)) n .eof [] (Cursor.ofItems items) = some (body, c))
    (ended : c.ahead.kind = .eof) :
    ((Account.of items).renumber (Item.tokensBefore items)).seen =
      (if c.reports = [] ∧ c.pending = false then some body.reverse else none, c.reports, c.starts,
        c.incidents) := by
  have level : Account.start.parser.blocks.length = (Cursor.ofItems items).depth :=
    (Cursor.ofItems_fresh items).2.1.symm
  have fed : (Account.of items).renumber (Item.tokensBefore items) =
      Account.start.feedFrom 0 .start items := by
    have counted := renumber_foldl_feed goesOn ((List.drop_zero (l := items)).trans whole) .start .start
    rw [← whole] at counted
    exact counted
  calc ((Account.of items).renumber (Item.tokensBefore items)).seen
      = outcome .start (Cursor.ofItems items) := by
        rw [fed]
        exact seen_feedFrom (b := .start) (c := .blank .start) rfl items
    _ = outcome (ready .start body.reverse) c :=
        statements_follow (a := .start) (models_within n) (Nat.le_succ n) rfl (fits_ofItems enough)
          level run
    _ = (((ready .start body.reverse).along c).finish c.taken c.ahead).seen := by
        rw [outcome, outcomeBehind, if_pos ended, feedToken_ready rfl, between_eq_finish ended]
    _ = _ := rfl

end Run

/-- The rules and the parser come to the same program and the same reports. -/
theorem run_eq_parse {source : String} {n : Nat} (enough : (words source).length < n) :
    ∃ parsed c, run n (tokenize source) = some (parsed, c) ∧
      parsed.program? = (parse source).program? ∧ parsed.reports = (parse source).reports ∧
      Onward 0 (Cursor.ofItems (tokenize source)) c ∧ c.ahead.kind = .eof := by
  rw [← countTokens_tokenize] at enough
  obtain ⟨body, c, found, looped, go, ended⟩ := run_returns enough
  have same := seen_of_run (fun _ => ne_eof_of_mem_frontOf) (tokenize_eq_front_append source) enough
    looped ended
  have parser := Account.parser_of (tokenize source)
  rw [← parser_renumber (Item.tokensBefore (tokenize source))] at parser
  generalize (Account.of (tokenize source)).renumber _ = a at same parser
  have reports : ((tokenize source).foldl Parser.feed .start).reports = c.reports :=
    parser ▸ congrArg (·.2.1) same
  refine ⟨_, c, found, ?_, congrArg List.reverse reports.symm, go, ended⟩
  by_cases quiet : c.reports = []
  · have quiet' := reports.trans quiet
    have body' : some ((tokenize source).foldl Parser.feed .start).body = some body.reverse := by
      have first := congrArg Prod.fst same
      have clear : a.parser.reports = [] ∧ a.parser.pending = false :=
        parser ▸ ⟨quiet', Parser.pending_of_quiet quiet'⟩
      rw [seen, if_pos clear, parser] at first
      dsimp only at first
      split at first
      · exact first
      · cases first
    have clean : ∀ reason pos, .fault reason pos ∉ tokenize source :=
      fun _ _ mem => Parser.reports_foldl_feed_ne_nil mem .start quiet'
    have pos := Cursor.pos_ofItems (tokenize_ne_nil source) clean
    simp [Parsed.program?, parse, Parser.run, quiet, quiet', pos, Option.some.inj body']
  · simp [Parsed.program?, parse, Parser.run, reports, quiet]

/-! ## All steps on the way -/

/-- The statements inside a block, with `n` passes left to the loop over them. -/
def inner (expression : Rule Expr) (n : Nat) : Rule (List Stmt) :=
  ExceptT.lift (statements expression n (.mark .closeBrace) [])

theorem pass_takes {m n : Nat} (le : n ≤ m) {c : Cursor} (fits : Fits (n + 1) c)
    (more : c.ahead.kind ≠ .eof) (closing : Kind) :
    ∃ s c', pass (expression (within m)) (inner (expression (within m)) n) closing c = some (s, c') ∧
      c.taken < c'.taken ∧ ∃ behind, c'.starts = behind ++ c.taken :: c.starts := by
  have value := reads_within m
  obtain ⟨s, c', passed, go, -, took⟩ := pass_returns closing (value.mono (Nat.succ_le_succ le))
    (fun _ => returns_body value (Nat.le_succ_of_le le)) more fits
  obtain ⟨behind, starts, -⟩ := go.starts
  exact ⟨s, c', passed, took, behind, starts⟩

/-- The rules come to an end on every text, with as many calls as there are tokens and one more, or
any greater number of them. The end is ahead then, and every statement that was begun was begun at a
token of its own. On the way each pass of a loop over statements takes a token, whether the statement
fails or not, and puts down where it began; the search for a place to go on takes a token or stops;
and the rules of expressions take one or fail, but for a chain without a link. -/
theorem run_terminates (source : String) (spare : Nat) :
    (∃ parsed c, run ((words source).length + 1 + spare) (tokenize source) = some (parsed, c) ∧
      parsed.program? = (parse source).program? ∧ parsed.reports = (parse source).reports ∧
      c.ahead.kind = .eof ∧ c.taken = (words source).length ∧ c.starts.Nodup ∧
      (∀ k ∈ c.starts, k < (words source).length) ∧
      c.starts.length ≤ (words source).length) ∧
    (∀ m n closing c, n ≤ m → Fits (n + 1) c → c.ahead.kind ≠ .eof →
      ∃ s c', pass (expression (within m)) (inner (expression (within m)) n) closing c =
        some (s, c') ∧ c.taken < c'.taken ∧
        ∃ behind, c'.starts = behind ++ c.taken :: c.starts) ∧
    (∀ closing c, (synchronize closing c = c ∧ stopsAt closing c.ahead.kind = true) ∨
      c.taken < (synchronize closing c).taken) ∧
    ∀ n c, Fits (n + 1) c →
      Returns 1 (expression (within n)) c ∧ Returns 1 (unary (within n)) c ∧
      Returns 1 (primary (within n)) c ∧ ∀ floor, Returns 1 (binary (within n) floor) c ∧
        ∀ left start, ∃ out c', links (within n) floor left start c = some (out, c') ∧
          Onward 0 c c' ∧ (c' = c ∨ c.taken < c'.taken) := by
  refine ⟨?_, fun m n closing c le fits more => pass_takes le fits more closing,
    synchronize_takes, fun n c fits => ?_⟩
  · have enough : (words source).length < (words source).length + 1 + spare := by omega
    obtain ⟨parsed, c, found, program, reports, go, ended⟩ := run_eq_parse enough
    have atEnd := taken_at_end go ended
    rw [countTokens_tokenize] at atEnd
    exact ⟨parsed, c, found, program, reports, ended, atEnd⟩
  · have calls := return_within n
    exact ⟨returns_expression calls fits, returns_unary calls fits, returns_primary calls fits,
      fun floor => ⟨returns_binary calls fits floor, links_return calls fits floor⟩⟩

end Descent

end ImpSyntax
