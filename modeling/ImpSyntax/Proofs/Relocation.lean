import Mathlib.Tactic.SplitIfs
import ImpSyntax.Proofs.Parser.Steps

/-!
# Positions take no part in parsing

Everything that holds positions can be moved: its positions are mapped and all else is kept. Parsing
commutes with moving, so that no decision of the parser hangs on where a token stands.

Main results:

* `Reading.feed_relocate`, `Parser.feed_relocate` — a step on moved items gives the moved state.
* `Parser.run_relocate` — moved items make up the moved program, with the moved reports.
-/

namespace ImpSyntax

variable (f : Position → Position)

/-! ## Moving what the scanner gives -/

/-- The token at the mapped position. -/
def Token.relocate (t : Token) : Token := ⟨t.kind, t.lexeme, f t.pos⟩

/-- The item at the mapped position. -/
def Item.relocate : Item → Item
  | token t => token (t.relocate f)
  | fault reason p => fault reason (f p)

/-- The report at the mapped position. -/
def Report.relocate (r : Report) : Report := ⟨r.fault, f r.pos⟩

@[simp] theorem Token.relocate_kind (t : Token) : (t.relocate f).kind = t.kind := rfl

@[simp] theorem Token.relocate_lexeme (t : Token) : (t.relocate f).lexeme = t.lexeme := rfl

@[simp] theorem Token.relocate_pos (t : Token) : (t.relocate f).pos = f t.pos := rfl

@[simp] theorem Token.relocate_eof (p : Position) : (Token.eof p).relocate f = Token.eof (f p) := rfl

theorem Item.relocate_pos (item : Item) : (item.relocate f).pos = f item.pos := by
  cases item <;> rfl

@[simp] theorem SyntaxFault.insteadOf_relocate (expected : Expectation) (t : Token) :
    insteadOf expected (t.relocate f) = insteadOf expected t := rfl

/-! ## Moving an expression in part -/

/-- The open construct with every position mapped. -/
def Frame.relocate : Frame → Frame
  | sign op p outer => sign op (f p) outer
  | group p outer => group (f p) outer
  | link op floor left begun outer => link op floor (left.relocate f) (f begun) outer

/-- What is needed next, with every position mapped. -/
def Need.relocate : Need → Need
  | inner => inner
  | operand => operand
  | operator e begun => operator (e.relocate f) (f begun)

namespace Reading

/-- The reading with every position mapped. -/
def relocate (r : Reading) : Reading := ⟨r.frames.map (·.relocate f), r.depth, r.need.relocate f⟩

end Reading

/-- The outcome with every position mapped. -/
def Outcome.relocate : Outcome → Outcome
  | more r => more (r.relocate f)
  | done e => done (e.relocate f)
  | fault reason => fault reason

namespace Reading

theorem operand_relocate (frames : List Frame) (depth : Nat) (t : Token) :
    operand (frames.map (·.relocate f)) depth (t.relocate f) =
      (operand frames depth t).map (·.relocate f) := by
  obtain ⟨kind, lexeme, pos⟩ := t
  unfold Token.relocate operand
  dsimp only
  split_ifs
  · rfl
  · rfl
  · rfl
  · split <;> rfl

theorem taken_relocate (made : Except SyntaxFault Reading) :
    taken (made.map (·.relocate f)) = (taken made).relocate f := by
  cases made <;> rfl

theorem link_relocate (t : Token) (floor : Nat) (frames : List Frame) (depth : Nat) (e : Expr)
    (start : Position) :
    link (t.relocate f) floor (frames.map (·.relocate f)) depth (e.relocate f) (f start) =
      (link t floor frames depth e start).relocate f := by
  unfold link
  split <;> rfl

theorem settle_relocate (t : Token) (frames : List Frame) (depth : Nat) (e : Expr)
    (start : Position) :
    settle (t.relocate f) (frames.map (·.relocate f)) depth (e.relocate f) (f start) =
      (settle t frames depth e start).relocate f := by
  induction frames generalizing depth e start with
  | nil =>
    unfold settle
    dsimp only [List.map_nil, Token.relocate_kind]
    cases rightFloor? t.kind loosest with
    | none => rfl
    | some next => exact link_relocate f t next [] depth e start
  | cons frame frames ih =>
    cases frame with
    | sign op p outer => exact ih outer (.unary op e p) p
    | group p outer =>
      rw [List.map_cons, Frame.relocate, settle, settle, Token.relocate_kind]
      cases rightFloor? t.kind loosest with
      | none =>
        by_cases closed : t.kind = .mark .closeParen
        · simp only [closed, if_true]
          rfl
        · simp only [closed, if_false]
          rfl
      | some next => exact link_relocate f t next (.group p outer :: frames) depth e start
    | link op floor left begun outer =>
      rw [List.map_cons, Frame.relocate, settle, settle, Token.relocate_kind]
      cases rightFloor? t.kind floor with
      | none => exact ih outer (.binary op left e begun) begun
      | some next =>
        exact link_relocate f t next (.link op floor left begun outer :: frames) depth e start

theorem feed_relocate (r : Reading) (t : Token) :
    (r.relocate f).feed (t.relocate f) = (r.feed t).relocate f := by
  obtain ⟨frames, depth, need⟩ := r
  have read (depth : Nat) :
      taken (operand (frames.map (·.relocate f)) depth (t.relocate f)) =
        (taken (operand frames depth t)).relocate f := by
    rw [operand_relocate, taken_relocate]
  cases need with
  | inner =>
    unfold feed relocate Need.relocate
    dsimp only
    split_ifs
    · exact read (depth + 1)
    · rfl
  | operand => exact read depth
  | operator e start => exact settle_relocate f t frames depth e start

end Reading

/-! ## Moving statements in part -/

/-- The head of a block with every position mapped. -/
def BlockHead.relocate : BlockHead → BlockHead
  | thenBlock c p => thenBlock (c.relocate f) (f p)
  | elseBlock c thenBody p => elseBlock (c.relocate f) (Stmt.relocateList f thenBody) (f p)
  | whileBlock c p => whileBlock (c.relocate f) (f p)

/-- The open block with every position mapped. -/
def OpenBlock.relocate (b : OpenBlock) : OpenBlock :=
  ⟨b.head.relocate f, Stmt.relocateList f b.before⟩

/-- The goal with every position mapped. -/
def Goal.relocate : Goal → Goal
  | print p => print (f p)
  | assign name namePos p => assign name (f namePos) (f p)
  | init binding name type p => init binding name (type.map (·.relocate f)) (f p)
  | ifCondition p => ifCondition (f p)
  | whileCondition p => whileCondition (f p)
  | value fromName p => value fromName (f p)

/-- The mode with every position mapped. -/
def Mode.relocate : Mode → Mode
  | ready => ready
  | recovering => recovering
  | expr goal r => expr (goal.relocate f) (r.relocate f)
  | closing s => closing (s.relocate f)
  | declaring binding p => declaring binding (f p)
  | named binding first p => named binding (first.relocate f) (f p)
  | typed binding type name p => typed binding (type.relocate f) name (f p)
  | opening head => opening (head.relocate f)
  | thenRead c thenBody p => thenRead (c.relocate f) (Stmt.relocateList f thenBody) (f p)
  | elseRead c thenBody p => elseRead (c.relocate f) (Stmt.relocateList f thenBody) (f p)

theorem Stmt.relocateList_eq_map (body : List Stmt) :
    Stmt.relocateList f body = body.map (·.relocate f) := by
  induction body with
  | nil => rfl
  | cons s rest ih => simp only [Stmt.relocateList, List.map_cons, ih]

theorem Stmt.relocateList_reverse (body : List Stmt) :
    Stmt.relocateList f body.reverse = (Stmt.relocateList f body).reverse := by
  simp only [Stmt.relocateList_eq_map, List.map_reverse]

namespace Parser

/-- The state with every position mapped. -/
def relocate (p : Parser) : Parser where
  blocks := p.blocks.map (·.relocate f)
  body := Stmt.relocateList f p.body
  mode := p.mode.relocate f
  pending := p.pending
  reports := p.reports.map (·.relocate f)

theorem expect_relocate (p : Parser) (goal : Goal) :
    (p.relocate f).expect (goal.relocate f) = (p.expect goal).relocate f := by
  simp only [expect, relocate, List.length_map]
  rfl

theorem close_relocate (p : Parser) (block : OpenBlock) (outer : List OpenBlock) :
    (p.relocate f).close (block.relocate f) (outer.map (·.relocate f)) =
      (p.close block outer).relocate f := by
  obtain ⟨head, before⟩ := block
  have body : (Stmt.relocateList f p.body).reverse = Stmt.relocateList f p.body.reverse :=
    (Stmt.relocateList_reverse f p.body).symm
  cases head <;>
    simp only [close, relocate, OpenBlock.relocate, BlockHead.relocate, Mode.relocate, push, body,
      Stmt.relocateList, Stmt.relocate, Stmt.relocateElse]

theorem finish_relocate (p : Parser) (pos : Position) :
    (p.relocate f).finish (f pos) = (p.finish pos).relocate f := by
  simp only [finish, relocate, List.map_map, List.map_nil]
  split <;> simp [Mode.relocate, Report.relocate, Function.comp_def]

theorem begin_relocate (p : Parser) (t : Token) :
    (p.relocate f).begin (t.relocate f) = (p.begin t).relocate f := by
  have begun := Reading.operand_relocate f [] p.blocks.length t
  unfold begin
  simp only [Token.relocate_kind, Token.relocate_pos]
  split
  · exact expect_relocate f { p with pending := false } (.print t.pos)
  · rfl
  · rfl
  · exact expect_relocate f { p with pending := false } (.ifCondition t.pos)
  · exact expect_relocate f { p with pending := false } (.whileCondition t.pos)
  · rfl
  · rfl
  · simp only [Reading.begin, relocate, List.length_map, List.map_nil] at begun ⊢
    rw [begun]
    cases Reading.operand [] p.blocks.length t <;> rfl

theorem between_relocate (p : Parser) (t : Token) :
    (p.relocate f).between (t.relocate f) = (p.between t).relocate f := by
  rcases between_cases p t with ⟨kind, h⟩ | ⟨block, outer, kind, blocks, h⟩ | ⟨kind, blocks, h⟩ <;>
    rw [h]
  · rw [between_eq_finish (by exact kind)]
    exact finish_relocate f p t.pos
  · have moved : (p.relocate f).blocks = block.relocate f :: outer.map (·.relocate f) := by
      rw [relocate, blocks, List.map_cons]
    rw [between_eq_close (by exact kind) moved]
    exact close_relocate f p block outer
  · have moved : (t.relocate f).kind = .mark .closeBrace → (p.relocate f).blocks = [] := by
      intro closed
      rw [relocate, blocks closed, List.map_nil]
    rw [between_eq_begin (by exact kind) moved]
    exact begin_relocate f p t

theorem resumesAt_relocate (p : Parser) (t : Token) :
    (p.relocate f).ResumesAt (t.relocate f) ↔ p.ResumesAt t := by
  simp only [ResumesAt, relocate, Token.relocate_kind, ne_eq, List.map_eq_nil_iff]

theorem recover_relocate (p : Parser) (t : Token) :
    (p.relocate f).recover (t.relocate f) = (p.recover t).relocate f := by
  rcases recover_cases p t with ⟨kind, h⟩ | ⟨resumes, h⟩ | ⟨kind, resumes, h⟩ <;> rw [h]
  · exact recover_eq_ready (by exact kind)
  · rw [recover_eq_between ((resumesAt_relocate f p t).mpr resumes)]
    exact between_relocate f p t
  · exact recover_eq_recovering (by exact kind) (mt (resumesAt_relocate f p t).mp resumes)

theorem fail_relocate (p : Parser) (fault : SyntaxFault) (t : Token) :
    (p.relocate f).fail fault (t.relocate f) = (p.fail fault t).relocate f := by
  unfold fail
  rw [← recover_relocate]
  unfold relocate
  dsimp only
  split <;> rfl

theorem finishStmt_relocate (p : Parser) (s : Stmt) (t : Token) :
    (p.relocate f).finishStmt (s.relocate f) (t.relocate f) = (p.finishStmt s t).relocate f := by
  obtain ⟨kind, lexeme, pos⟩ := t
  unfold finishStmt Token.relocate
  dsimp only
  split_ifs
  · rfl
  · exact fail_relocate f p _ ⟨kind, lexeme, pos⟩

theorem openBlock_relocate (p : Parser) (head : BlockHead) (t : Token) :
    (p.relocate f).openBlock (head.relocate f) (t.relocate f) =
      (p.openBlock head t).relocate f := by
  obtain ⟨kind, lexeme, pos⟩ := t
  unfold openBlock Token.relocate
  dsimp only
  split_ifs
  · rfl
  · exact fail_relocate f p _ ⟨kind, lexeme, pos⟩

theorem complete_relocate (p : Parser) (goal : Goal) (e : Expr) (t : Token) :
    (p.relocate f).complete (goal.relocate f) (e.relocate f) (t.relocate f) =
      (p.complete goal e t).relocate f := by
  cases goal with
  | print pos => exact finishStmt_relocate f p (.print e pos) t
  | assign name namePos pos => exact finishStmt_relocate f p (.assign name namePos e pos) t
  | init binding name type pos =>
    exact finishStmt_relocate f p (.declare binding name type (some e) pos) t
  | ifCondition pos => exact openBlock_relocate f p (.thenBlock e pos) t
  | whileCondition pos => exact openBlock_relocate f p (.whileBlock e pos) t
  | value fromName pos =>
    by_cases equals : t.kind = .mark .equals
    · have moved : (t.relocate f).kind = .mark .equals := equals
      simp only [Goal.relocate, complete, equals, moved, if_true]
      cases fromName with
      | false => exact fail_relocate f p .invalidTarget t
      | true =>
        cases e with
        | location name namePos => exact expect_relocate f p (.assign name namePos pos)
        | _ => exact fail_relocate f p .invalidTarget t
    · have moved : (t.relocate f).kind ≠ .mark .equals := equals
      simp only [Goal.relocate, complete, equals, moved, if_false]
      exact finishStmt_relocate f p (.expr e pos) t

theorem feedToken_relocate (p : Parser) (t : Token) :
    (p.relocate f).feedToken (t.relocate f) = (p.feedToken t).relocate f := by
  have mode {m : Mode} (h : p.mode = m) : (p.relocate f).mode = m.relocate f := by
    rw [relocate, h]
  have kind {k : Kind} (h : t.kind = k) : (t.relocate f).kind = k := h
  have otherKind {k : Kind} (h : t.kind ≠ k) : (t.relocate f).kind ≠ k := h
  cases h : p.mode with
  | ready =>
    rw [feedToken_ready h, feedToken_ready (mode h)]
    exact between_relocate f p t
  | recovering =>
    rw [feedToken_recovering h, feedToken_recovering (mode h)]
    exact recover_relocate f p t
  | expr goal r =>
    rw [feedToken_expr h, feedToken_expr (mode h), Reading.feed_relocate]
    cases r.feed t with
    | more r' => rfl
    | done e => exact complete_relocate f p goal e t
    | fault reason => exact fail_relocate f p reason t
  | closing s =>
    rw [feedToken_closing h, feedToken_closing (mode h)]
    exact finishStmt_relocate f p s t
  | declaring binding pos =>
    rw [feedToken_declaring h, feedToken_declaring (mode h)]
    by_cases name : t.kind = .ident
    · rw [if_pos name, if_pos (kind name)]
      rfl
    · rw [if_neg name, if_neg (otherKind name)]
      exact fail_relocate f p _ t
  | named binding first pos =>
    rw [feedToken_named h, feedToken_named (mode h)]
    by_cases name : t.kind = .ident
    · rw [if_pos name, if_pos (kind name)]
      rfl
    rw [if_neg name, if_neg (otherKind name)]
    by_cases equals : t.kind = .mark .equals
    · rw [if_pos equals, if_pos (kind equals)]
      exact expect_relocate f p (.init binding first.name none pos)
    · rw [if_neg equals, if_neg (otherKind equals)]
      exact fail_relocate f p _ t
  | typed binding type name pos =>
    cases binding with
    | var =>
      rw [feedToken_typed_var h, feedToken_typed_var (mode h)]
      by_cases equals : t.kind = .mark .equals
      · rw [if_pos equals, if_pos (kind equals)]
        exact expect_relocate f p (.init .var name (some type) pos)
      · rw [if_neg equals, if_neg (otherKind equals)]
        exact finishStmt_relocate f p (.declare .var name (some type) none pos) t
    | const =>
      rw [feedToken_typed_const h, feedToken_typed_const (mode h)]
      by_cases equals : t.kind = .mark .equals
      · rw [if_pos equals, if_pos (kind equals)]
        exact expect_relocate f p (.init .const name (some type) pos)
      · rw [if_neg equals, if_neg (otherKind equals)]
        exact fail_relocate f p _ t
  | opening head =>
    rw [feedToken_opening h, feedToken_opening (mode h)]
    have depth : (p.relocate f).blocks.length = p.blocks.length := List.length_map _
    rw [depth]
    split_ifs
    · exact between_relocate f (p.enter head) t
    · exact fail_relocate f p .tooDeep t
  | thenRead c thenBody pos =>
    rw [feedToken_thenRead h, feedToken_thenRead (mode h)]
    by_cases otherwise : t.kind = .keyword .elseWord
    · rw [if_pos otherwise, if_pos (kind otherwise)]
      rfl
    · rw [if_neg otherwise, if_neg (otherKind otherwise)]
      exact between_relocate f (p.push (.ifElse c thenBody none pos)) t
  | elseRead c thenBody pos =>
    rw [feedToken_elseRead h, feedToken_elseRead (mode h)]
    exact openBlock_relocate f p (.elseBlock c thenBody pos) t

theorem feed_relocate (p : Parser) (item : Item) :
    (p.relocate f).feed (item.relocate f) = (p.feed item).relocate f := by
  cases item with
  | token t => exact feedToken_relocate f p t
  | fault reason pos => rfl

theorem foldl_feed_relocate (p : Parser) (items : List Item) :
    (items.map (·.relocate f)).foldl feed (p.relocate f) = (items.foldl feed p).relocate f := by
  induction items generalizing p with
  | nil => rfl
  | cons item items ih => rw [List.map_cons, List.foldl_cons, feed_relocate, ih, List.foldl_cons]

end Parser

/-! ## Moving a whole text -/

/-- What came of a text, with every position mapped. -/
def Parsed.relocate (p : Parsed) : Parsed := ⟨p.program.relocate f, p.reports.map (·.relocate f)⟩

theorem Parsed.program?_relocate (p : Parsed) :
    (p.relocate f).program? = p.program?.map (·.relocate f) := by
  unfold program? relocate
  cases p.reports <;> rfl

theorem Item.firstPos_relocate {items : List Item} (h : items ≠ []) :
    firstPos (items.map (·.relocate f)) = f (firstPos items) := by
  obtain ⟨item, rest, rfl⟩ := List.exists_cons_of_ne_nil h
  exact item.relocate_pos f

theorem Parser.run_relocate {items : List Item} (h : items ≠ []) :
    Parser.run (items.map (·.relocate f)) = (Parser.run items).relocate f := by
  have read : (items.map (·.relocate f)).foldl Parser.feed Parser.start =
      (items.foldl Parser.feed Parser.start).relocate f :=
    Parser.foldl_feed_relocate f Parser.start items
  have body := Stmt.relocateList_reverse f (items.foldl Parser.feed Parser.start).body
  unfold Parser.run Parsed.relocate Program.relocate
  rw [Item.firstPos_relocate f h, body, List.map_reverse]
  rw [read]
  rfl

end ImpSyntax
