import Mathlib.Tactic.SplitIfs
import ImpSyntax.Proofs.Parser.Steps

/-!
# What was read before takes no part in parsing

The statements that were complete and the reports that were made before a place in the text only lie
below those to come. Taking a step and laying them below commute, as long as the text goes on. At its
end blocks that are still open are given up with the statements in front of them, so that only the
reports are certain to be the same there.

Main results:

* `Parser.feedToken_atop` — a step of the state with more below it.
* `Parser.foldl_feed_atop` — the same for items in a row.
* `Parser.reports_foldl_feed_atop` — the reports on a whole text.
-/

namespace ImpSyntax

/-- The open blocks, with more statements in front of that of the outermost one. -/
def OpenBlock.allAtop (below : List Stmt) : List OpenBlock → List OpenBlock
  | [] => []
  | [block] => [{ block with before := block.before ++ below }]
  | block :: outer => block :: allAtop below outer

namespace OpenBlock

variable {below : List Stmt}

@[simp] theorem length_allAtop (blocks : List OpenBlock) :
    (allAtop below blocks).length = blocks.length := by
  fun_induction allAtop below blocks with
  | case1 => rfl
  | case2 => rfl
  | case3 block outer _ ih => rw [List.length_cons, List.length_cons, ih]

@[simp] theorem allAtop_eq_nil_iff {blocks : List OpenBlock} :
    allAtop below blocks = [] ↔ blocks = [] := by
  rw [← List.length_eq_zero_iff, length_allAtop, List.length_eq_zero_iff]

end OpenBlock

namespace Parser

open Precedence

/-- The statements of the innermost block, with more below them if that is no block at all. -/
def bodyAtop (below : List Stmt) (p : Parser) : List Stmt :=
  match p.blocks with
  | [] => p.body ++ below
  | _ :: _ => p.body

/-- The state with complete statements and reports below all that it holds, the last one first. -/
def atop (below : List Stmt) (earlier : List Report) (p : Parser) : Parser :=
  { p with
    blocks := OpenBlock.allAtop below p.blocks
    body := p.bodyAtop below
    reports := p.reports ++ earlier }

variable {below : List Stmt} {earlier : List Report}

section Steps

variable (p : Parser) (t : Token)

theorem into_atop (mode : Mode) :
    (p.atop below earlier).into mode = (p.into mode).atop below earlier := rfl

theorem expect_atop (goal : Goal) :
    (p.atop below earlier).expect goal = (p.expect goal).atop below earlier := by
  unfold expect
  rw [← into_atop]
  show into _ (.expr goal (.start (OpenBlock.allAtop below p.blocks).length)) = _
  rw [OpenBlock.length_allAtop]

theorem push_atop (s : Stmt) : (p.atop below earlier).push s = (p.push s).atop below earlier := by
  obtain ⟨blocks, body, mode, pending, reports⟩ := p
  cases blocks <;> rfl

theorem enter_atop (head : BlockHead) :
    (p.atop below earlier).enter head = (p.enter head).atop below earlier := by
  obtain ⟨blocks, body, mode, pending, reports⟩ := p
  cases blocks <;> rfl

variable (below earlier) in
theorem close_atop {block : OpenBlock} {outer : List OpenBlock} (h : p.blocks = block :: outer) :
    ∃ block' outer', (p.atop below earlier).blocks = block' :: outer' ∧
      (p.atop below earlier).close block' outer' = (p.close block outer).atop below earlier := by
  obtain ⟨blocks, body, mode, pending, reports⟩ := p
  cases h
  obtain ⟨head, before⟩ := block
  cases outer with
  | nil =>
    refine ⟨⟨head, before ++ below⟩, [], rfl, ?_⟩
    cases head <;> rfl
  | cons next outer =>
    refine ⟨⟨head, before⟩, OpenBlock.allAtop below (next :: outer), rfl, ?_⟩
    cases head <;> rfl

theorem begin_atop : (p.atop below earlier).begin t = (p.begin t).atop below earlier := by
  have depth : (p.atop below earlier).blocks.length = p.blocks.length := OpenBlock.length_allAtop _
  unfold begin
  split
  · exact expect_atop p.fresh (.print t.pos)
  · rfl
  · rfl
  · exact expect_atop p.fresh (.ifCondition t.pos)
  · exact expect_atop p.fresh (.whileCondition t.pos)
  · rfl
  · rfl
  · dsimp only
    rw [depth]
    cases Reading.begin p.blocks.length t <;> rfl

theorem resumesAt_atop : (p.atop below earlier).ResumesAt t ↔ p.ResumesAt t := by
  show _ ∨ (_ ∧ OpenBlock.allAtop below p.blocks ≠ []) ∨ _ ↔ _
  rw [Ne, OpenBlock.allAtop_eq_nil_iff]
  rfl

variable (below earlier) in
/-- The step at `t` leads from the state with more below it to `q'` and from the state alone to `q`:
the one is the other with more below it. Where the text ends this is said of the reports only. -/
def LeadsAtop (t : Token) (q' q : Parser) : Prop :=
  q' = q.atop below earlier ∨ t.kind = .eof ∧ q'.reports = q.reports ++ earlier

theorem reports_finish_atop (pos : Position) :
    ((p.atop below earlier).finish pos).reports = (p.finish pos).reports ++ earlier := by
  have lacking (r : Report) :
      (OpenBlock.allAtop below p.blocks).map (fun _ => r) = p.blocks.map fun _ => r := by
    rw [List.map_const', List.map_const', OpenBlock.length_allAtop]
  unfold finish atop
  dsimp only
  rw [lacking]
  split
  · rfl
  · rw [List.append_assoc]

theorem between_atop :
    LeadsAtop below earlier t ((p.atop below earlier).between t) (p.between t) := by
  rcases between_cases p t with ⟨kind, made⟩ | ⟨block, outer, kind, blocks, made⟩ |
    ⟨notEof, inside, made⟩ <;> rw [made]
  · rw [between_eq_finish kind]
    exact .inr ⟨kind, reports_finish_atop p t.pos⟩
  · obtain ⟨block', outer', blocks', same⟩ := close_atop below earlier p blocks
    rw [between_eq_close kind blocks', same]
    exact .inl rfl
  · rw [between_eq_begin notEof fun kind => OpenBlock.allAtop_eq_nil_iff.mpr (inside kind), begin_atop]
    exact .inl rfl

theorem recover_atop :
    LeadsAtop below earlier t ((p.atop below earlier).recover t) (p.recover t) := by
  rcases recover_cases p t with ⟨kind, made⟩ | ⟨resumes, made⟩ | ⟨kind, stays, made⟩ <;> rw [made]
  · exact .inl (recover_eq_ready kind)
  · rw [recover_eq_between ((resumesAt_atop p t).mpr resumes)]
    exact between_atop p t
  · exact .inl (recover_eq_recovering kind (mt (resumesAt_atop p t).mp stays))

theorem fail_atop (fault : SyntaxFault) :
    LeadsAtop below earlier t ((p.atop below earlier).fail fault t) (p.fail fault t) := by
  have behind := @recover_atop below earlier
    { p with reports := if p.pending then p.reports else ⟨.syntactic fault, t.pos⟩ :: p.reports } t
  have failed : { p.atop below earlier with
      reports := if p.pending then p.reports ++ earlier
        else ⟨.syntactic fault, t.pos⟩ :: (p.reports ++ earlier) } =
      atop below earlier { p with
        reports := if p.pending then p.reports else ⟨.syntactic fault, t.pos⟩ :: p.reports } := by
    unfold atop
    dsimp only
    split <;> rfl
  rw [← failed] at behind
  exact behind

theorem finishStmt_atop (s : Stmt) :
    LeadsAtop below earlier t ((p.atop below earlier).finishStmt s t) (p.finishStmt s t) := by
  unfold finishStmt
  split
  · exact .inl (push_atop p s)
  · exact fail_atop p t _

theorem openBlock_atop (head : BlockHead) :
    LeadsAtop below earlier t ((p.atop below earlier).openBlock head t) (p.openBlock head t) := by
  unfold openBlock
  split
  · exact .inl rfl
  · exact fail_atop p t _

theorem complete_atop (goal : Goal) (e : Expr) :
    LeadsAtop below earlier t ((p.atop below earlier).complete goal e t) (p.complete goal e t) := by
  unfold complete
  cases goal with
  | print | assign | init => exact finishStmt_atop p t _
  | ifCondition | whileCondition => exact openBlock_atop p t _
  | value fromName pos =>
    dsimp only
    split_ifs
    · cases fromName with
      | false => exact fail_atop p t _
      | true =>
        cases e with
        | location => exact .inl (expect_atop p _)
        | _ => exact fail_atop p t _
    · exact finishStmt_atop p t _

/-- A step of the state with more below it. -/
theorem feedToken_atop :
    LeadsAtop below earlier t ((p.atop below earlier).feedToken t) (p.feedToken t) := by
  have mode {m : Mode} (h : p.mode = m) : (p.atop below earlier).mode = m := h
  cases h : p.mode with
  | ready => rw [feedToken_ready h, feedToken_ready (mode h)]; exact between_atop p t
  | recovering =>
    rw [feedToken_recovering h, feedToken_recovering (mode h)]
    exact recover_atop p t
  | expr goal r =>
    rw [feedToken_expr h, feedToken_expr (mode h)]
    cases r.feed t with
    | more => exact .inl rfl
    | done => exact complete_atop p t goal _
    | fault => exact fail_atop p t _
  | closing s =>
    rw [feedToken_closing h, feedToken_closing (mode h)]
    exact finishStmt_atop p t s
  | declaring binding pos =>
    rw [feedToken_declaring h, feedToken_declaring (mode h)]
    split_ifs
    · exact .inl rfl
    · exact fail_atop p t _
  | named binding first pos =>
    rw [feedToken_named h, feedToken_named (mode h)]
    split_ifs
    · exact .inl rfl
    · exact .inl (expect_atop p _)
    · exact fail_atop p t _
  | typed binding type name pos =>
    cases binding with
    | var =>
      rw [feedToken_typed_var h, feedToken_typed_var (mode h)]
      split_ifs
      · exact .inl (expect_atop p _)
      · exact finishStmt_atop p t _
    | const =>
      rw [feedToken_typed_const h, feedToken_typed_const (mode h)]
      split_ifs
      · exact .inl (expect_atop p _)
      · exact fail_atop p t _
  | opening head =>
    have depth : (p.atop below earlier).blocks.length = p.blocks.length :=
      OpenBlock.length_allAtop _
    rw [feedToken_opening h, feedToken_opening (mode h), depth]
    split_ifs
    · rw [enter_atop]
      exact between_atop _ t
    · exact fail_atop p t _
  | thenRead c thenBody pos =>
    rw [feedToken_thenRead h, feedToken_thenRead (mode h)]
    split_ifs
    · exact .inl rfl
    · rw [push_atop]
      exact between_atop _ t
  | elseRead c thenBody pos =>
    rw [feedToken_elseRead h, feedToken_elseRead (mode h)]
    exact openBlock_atop p t _

end Steps

/-! ## Items in a row -/

theorem feed_atop (p : Parser) {item : Item} (goesOn : ∀ t, item = .token t → t.kind ≠ .eof) :
    (p.atop below earlier).feed item = (p.feed item).atop below earlier := by
  cases item with
  | token t =>
    rcases feedToken_atop p t with same | ⟨eof, -⟩
    · exact same
    · exact absurd eof (goesOn t rfl)
  | fault reason pos => rfl

theorem foldl_feed_atop {items : List Item} (goesOn : ∀ t, .token t ∈ items → t.kind ≠ .eof)
    (p : Parser) :
    items.foldl feed (p.atop below earlier) = (items.foldl feed p).atop below earlier := by
  induction items generalizing p with
  | nil => rfl
  | cons item items ih =>
    rw [List.foldl_cons, feed_atop p fun t same => goesOn t (same ▸ List.mem_cons_self),
      ih fun t mem => goesOn t (List.mem_cons_of_mem item mem), List.foldl_cons]

theorem foldl_feedToken_atop {ts : List Token} (goesOn : ∀ t ∈ ts, t.kind ≠ .eof) (p : Parser) :
    ts.foldl feedToken (p.atop below earlier) = (ts.foldl feedToken p).atop below earlier := by
  have items := @foldl_feed_atop below earlier (ts.map .token) (by simpa using goesOn) p
  rw [List.foldl_map, List.foldl_map] at items
  exact items

/-- The reports on a whole text, with others below them. -/
theorem reports_foldl_feed_atop {items : List Item}
    (goesOn : ∀ t, .token t ∈ items → t.kind ≠ .eof) (last : Token) (p : Parser) :
    ((items ++ [Item.token last]).foldl feed (p.atop below earlier)).reports =
      ((items ++ [Item.token last]).foldl feed p).reports ++ earlier := by
  rw [List.foldl_append, List.foldl_append, foldl_feed_atop goesOn]
  rcases @feedToken_atop below earlier (items.foldl feed p) last with same | ⟨-, reports⟩
  · exact congrArg Parser.reports same
  · exact reports

end Parser

end ImpSyntax
