import Mathlib.Data.List.Induction
import ImpSyntax.Proofs.Parser.Sound

/-!
# Braces, and what is lacking at the end

As long as nothing is reported, the blocks that are open are those whose braces have been opened and
not closed, and the statement in hand is at a boundary exactly behind a semicolon or a brace. If the
text ends there, each open block lacks its end, and so does a statement that is not at a boundary;
each of these is reported once, and nothing else is.

Main results:

* `Parser.turn_feedToken` — what a token that is not reported does to the open blocks.
* `Parser.level_foldl` — the open blocks are counted by the braces.
* `Parser.lacks_feedToken` — what is reported at the end.
-/

namespace ImpSyntax

open Precedence Grammar

/-- Whether a token of the kind ends a statement, or begins or ends a block. -/
def Kind.isBoundary (k : Kind) : Bool :=
  k == .mark .semicolon || k == .mark .openBrace || k == .mark .closeBrace

/-- A token with which an expression goes on, or a statement begins, is at no boundary. -/
theorem Kind.isBoundary_of_inExpression {k : Kind} (h : k.inExpression = true) :
    k.isBoundary = false := by
  cases k with
  | mark m => cases m <;> first | rfl | cases h
  | _ => rfl

theorem Kind.isBoundary_of_begins {k : Kind} (h : k.begins = true) : k.isBoundary = false := by
  cases k with
  | mark m => cases m <;> first | rfl | cases h
  | _ => rfl

/-- Whether no statement is in hand that lacks something, but for the block that has just been
opened. -/
def Mode.atBoundary : Mode → Bool
  | .ready | .recovering | .opening _ | .thenRead .. => true
  | _ => false

/-- How many blocks the mode opens. -/
def Mode.opened : Mode → Nat
  | .opening _ => 1
  | _ => 0

theorem Mode.opened_eq_zero {mode : Mode} (h : mode.atBoundary = false) : mode.opened = 0 := by
  cases mode <;> first | rfl | cases h

namespace Parser

/-- How many braces are open. -/
def level (p : Parser) : Nat := p.blocks.length + p.mode.opened

/-! ## Steps without a report -/

/-- What a token does to the open blocks, and where it leads the statement in hand. -/
structure Turn (p : Parser) (t : Token) (q : Parser) : Prop where
  level : q.level + (if t.kind = .mark .closeBrace then 1 else 0) =
    p.level + (if t.kind = .mark .openBrace then 1 else 0)
  boundary : q.mode.atBoundary = t.kind.isBoundary

section Turn

variable {p q : Parser} {t : Token}

theorem turn_inside (h : t.kind.isBoundary = false) (blocks : q.blocks.length = p.level)
    (mode : q.mode.atBoundary = false) : Turn p t q := by
  have notOpen : t.kind ≠ .mark .openBrace := by intro kind; rw [kind] at h; cases h
  have notClose : t.kind ≠ .mark .closeBrace := by intro kind; rw [kind] at h; cases h
  refine ⟨?_, by rw [mode, h]⟩
  rw [if_neg notOpen, if_neg notClose, Parser.level, Mode.opened_eq_zero mode, blocks]

theorem turn_semicolon (h : t.kind = .mark .semicolon) (blocks : q.blocks.length = p.level)
    (mode : q.mode = .ready) : Turn p t q := by
  refine ⟨?_, by rw [mode, h]; rfl⟩
  rw [h, Parser.level, mode, blocks]
  rfl

theorem turn_open {head : BlockHead} (h : t.kind = .mark .openBrace)
    (blocks : q.blocks.length = p.level) (mode : q.mode = .opening head) : Turn p t q := by
  refine ⟨?_, by rw [mode, h]; rfl⟩
  rw [h, Parser.level, mode, blocks]
  rfl

theorem turn_close {block : OpenBlock} {outer : List OpenBlock} (h : t.kind = .mark .closeBrace)
    (level : p.level = p.blocks.length) (inside : p.blocks = block :: outer) :
    Turn p t (p.close block outer) := by
  have shape : (p.close block outer).blocks = outer ∧
      (p.close block outer).mode.opened = 0 ∧ (p.close block outer).mode.atBoundary = true := by
    obtain ⟨head, before⟩ := block
    cases head <;> exact ⟨rfl, rfl, rfl⟩
  obtain ⟨blocks, opened, boundary⟩ := shape
  refine ⟨?_, by rw [boundary, h]; rfl⟩
  rw [h, Parser.level, blocks, opened, level, inside]
  rfl

/-- The same token does the same to a state with as many open braces. -/
theorem Turn.of_level {p' : Parser} (h : Turn p' t q) (level : p'.level = p.level) : Turn p t q :=
  ⟨by rw [h.level, level], h.boundary⟩

section Quiet

variable (level : p.level = p.blocks.length)
include level

theorem turn_begin (quiet : (p.begin t).reports = []) : Turn p t (p.begin t) := by
  have into : ∀ {mode : Mode}, t.kind.begins = true → mode.atBoundary = false →
      Turn p t (p.fresh.into mode) :=
    fun begins mode => turn_inside (Kind.isBoundary_of_begins begins) level.symm mode
  by_cases starts : t.kind.startsStatement = true
  · have begins : t.kind.begins = true := by rw [Kind.begins, starts, Bool.true_or]
    rcases Kind.startsStatement_cases starts with h | h | h | ⟨binding, h⟩ | ⟨j, h⟩
    · rw [begin_print h]; exact into begins rfl
    · rw [begin_if h]; exact into begins rfl
    · rw [begin_while h]; exact into begins rfl
    · rw [begin_declaration h]; exact into begins rfl
    · rw [begin_jump h]; exact into begins rfl
  · rw [begin_expression (by simpa using starts)] at quiet ⊢
    by_cases operand : t.kind.startsOperand = true
    · split at quiet
      · next r _ => exact into (Kind.begins_of_startsOperand operand) rfl
      · cases quiet
    · have refused := Reading.operand_outside (by simpa using operand) [] p.blocks.length
      rw [Reading.begin, refused] at quiet
      cases quiet

theorem turn_between (quiet : (p.between t).reports = []) (goesOn : t.kind ≠ .eof) :
    Turn p t (p.between t) := by
  rcases between_cases p t with ⟨eof, -⟩ | ⟨block, outer, close, inside, h⟩ | ⟨-, -, h⟩
  · exact absurd eof goesOn
  · rw [h]
    exact turn_close close level inside
  · rw [h] at quiet ⊢
    exact turn_begin level quiet

variable (open_ : p.pending = false)
include open_

theorem turn_finishStmt {s : Stmt} (quiet : (p.finishStmt s t).reports = []) :
    Turn p t (p.finishStmt s t) := by
  obtain ⟨ht, pushed⟩ := finishStmt_quiet open_ quiet
  rw [pushed]
  exact turn_semicolon ht level.symm rfl

theorem turn_openBlock {head : BlockHead} (quiet : (p.openBlock head t).reports = []) :
    Turn p t (p.openBlock head t) := by
  obtain ⟨ht, opened⟩ := openBlock_quiet open_ quiet
  rw [opened]
  exact turn_open ht level.symm rfl

theorem turn_complete {goal : Goal} {e : Expr} (quiet : (p.complete goal e t).reports = []) :
    Turn p t (p.complete goal e t) := by
  cases goal with
  | print pos => exact turn_finishStmt level open_ quiet
  | assign name namePos pos => exact turn_finishStmt level open_ quiet
  | init binding name type pos => exact turn_finishStmt level open_ quiet
  | ifCondition pos => exact turn_openBlock level open_ quiet
  | whileCondition pos => exact turn_openBlock level open_ quiet
  | value fromName pos =>
    by_cases ht : t.kind = .mark .equals
    · obtain ⟨name, namePos, -, -, step⟩ := complete_equals_quiet open_ ht quiet
      rw [step]
      exact turn_inside (by rw [ht]; rfl) level.symm rfl
    · have step : p.complete (.value fromName pos) e t = p.finishStmt (.expr e pos) t := if_neg ht
      rw [step] at quiet ⊢
      exact turn_finishStmt level open_ quiet

end Quiet

theorem turn_feedToken (open_ : p.pending = false) (heeds : p.mode ≠ .recovering)
    (goesOn : t.kind ≠ .eof) (quiet : (p.feedToken t).reports = []) : Turn p t (p.feedToken t) := by
  have level : p.mode.opened = 0 → p.level = p.blocks.length := fun none => by
    rw [Parser.level, none, Nat.add_zero]
  have failed : ∀ {reason : SyntaxFault}, (p.fail reason t).reports ≠ [] :=
    reports_fail_ne_nil open_ _
  cases h : p.mode with
  | recovering => exact absurd h heeds
  | ready =>
    rw [feedToken_ready h] at quiet ⊢
    exact turn_between (level (by rw [h]; rfl)) quiet goesOn
  | expr goal r =>
    have level := level (by rw [h]; rfl)
    rw [feedToken_expr h] at quiet ⊢
    split at quiet
    · next r' more =>
      have inside := Kind.isBoundary_of_inExpression (Reading.inExpression_of_more more)
      exact turn_inside inside level.symm rfl
    · exact turn_complete level open_ quiet
    · exact absurd quiet failed
  | closing s =>
    rw [feedToken_closing h] at quiet ⊢
    exact turn_finishStmt (level (by rw [h]; rfl)) open_ quiet
  | declaring binding pos =>
    have level := level (by rw [h]; rfl)
    rw [feedToken_declaring h] at quiet ⊢
    split_ifs at quiet ⊢ with name
    · exact turn_inside (by rw [name]; rfl) level.symm rfl
    · exact absurd quiet failed
  | named binding first pos =>
    have level := level (by rw [h]; rfl)
    rw [feedToken_named h] at quiet ⊢
    split_ifs at quiet ⊢ with name equals
    · exact turn_inside (by rw [name]; rfl) level.symm rfl
    · exact turn_inside (by rw [equals]; rfl) level.symm rfl
    · exact absurd quiet failed
  | typed binding type name pos =>
    have level := level (by rw [h]; rfl)
    cases binding with
    | var =>
      rw [feedToken_typed_var h] at quiet ⊢
      split_ifs at quiet ⊢ with equals
      · exact turn_inside (by rw [equals]; rfl) level.symm rfl
      · exact turn_finishStmt level open_ quiet
    | const =>
      rw [feedToken_typed_const h] at quiet ⊢
      split_ifs at quiet ⊢ with equals
      · exact turn_inside (by rw [equals]; rfl) level.symm rfl
      · exact absurd quiet failed
  | opening head =>
    have same : (p.enter head).level = p.level := by
      rw [Parser.level, Parser.level, h]
      rfl
    rw [feedToken_opening h] at quiet ⊢
    split_ifs at quiet ⊢ with room
    · exact (turn_between (p := p.enter head) rfl quiet goesOn).of_level same
    · exact absurd quiet failed
  | thenRead c thenBody pos =>
    have level := level (by rw [h]; rfl)
    rw [feedToken_thenRead h] at quiet ⊢
    split_ifs at quiet ⊢ with other
    · exact turn_inside (by rw [other]; rfl) level.symm rfl
    · exact (turn_between (p := p.push _) rfl quiet goesOn).of_level level.symm
  | elseRead c thenBody pos =>
    rw [feedToken_elseRead h] at quiet ⊢
    exact turn_openBlock (level (by rw [h]; rfl)) open_ quiet

end Turn

/-! ## Runs without a report -/

/-- How many braces the tokens open more than they close. -/
def openBraces (ts : List Token) : Int :=
  ts.countP (·.kind == .mark .openBrace) - ts.countP (·.kind == .mark .closeBrace)

/-- Whether the tokens end inside a statement: the last one is neither a semicolon nor a brace. -/
def endsInside (ts : List Token) : Bool := ts.getLast?.any fun t => !t.kind.isBoundary

theorem openBraces_concat (ts : List Token) (t : Token) :
    openBraces (ts ++ [t]) + (if t.kind = .mark .closeBrace then 1 else 0) =
      openBraces ts + (if t.kind = .mark .openBrace then 1 else 0) := by
  simp only [openBraces, List.countP_append, List.countP_singleton, beq_iff_eq]
  split_ifs <;> omega

theorem level_foldl {ts : List Token} (goesOn : ∀ t ∈ ts, t.kind ≠ .eof)
    (quiet : (ts.foldl feedToken start).reports = []) :
    ((ts.foldl feedToken start).level : Int) = openBraces ts ∧
      (ts.foldl feedToken start).mode.atBoundary = !endsInside ts := by
  induction ts using List.reverseRecOn with
  | nil => exact ⟨rfl, rfl⟩
  | append_singleton ts t ih =>
    have goesOn' : ∀ u ∈ ts, u.kind ≠ .eof := fun u mem => goesOn u (List.mem_append_left _ mem)
    rw [List.foldl_append] at quiet ⊢
    have quiet' := quiet_of_foldl quiet
    rw [List.foldl_cons, List.foldl_nil] at quiet ⊢
    have account := accounts_of_quiet goesOn' quiet'
    have turn := turn_feedToken account.1 account.ne_recovering (goesOn t (by simp)) quiet
    constructor
    · have before := (ih goesOn' quiet').1
      have step := turn.level
      have braces := openBraces_concat ts t
      split_ifs at step braces <;> omega
    · rw [turn.boundary, endsInside, List.getLast?_concat]
      exact (Bool.not_not _).symm

/-! ## The end of the text -/

/-- In front of a token that is not reported there is room for it. -/
theorem hasRoom_of_quiet {p : Parser} (open_ : p.pending = false) {ts : List Token}
    (some_ : ts ≠ []) (quiet : (ts.foldl feedToken p).reports = []) : p.HasRoom := by
  by_contra full
  obtain ⟨t, rest, rfl⟩ := List.exists_cons_of_ne_nil some_
  obtain ⟨pos, refused⟩ := (refuses_of_not_hasRoom open_ full t).foldl rest
  rw [List.foldl_cons] at quiet
  rw [quiet, List.suffix_nil] at refused
  cases refused

/-- From `p` to `q` there are `n` more reports, each on something that is lacking at `pos`, where the
text ends. -/
def Lacks (pos : Position) (n : Nat) (p q : Parser) : Prop :=
  ∃ new : List Report, q.reports = new ++ p.reports ∧ new.length = n ∧
    ∀ r ∈ new, ∃ expected, r = ⟨.syntactic (.unexpectedEnd expected), pos⟩

/-- Where nothing is reported nothing is lacking. -/
theorem Lacks.eq_zero {pos : Position} {n : Nat} {p q : Parser} (h : Lacks pos n p q)
    (quiet : q.reports = []) : n = 0 := by
  obtain ⟨new, reports, length, -⟩ := h
  rw [quiet] at reports
  rw [← length, (List.append_eq_nil_iff.mp reports.symm).1, List.length_nil]

section Lacks

variable {p : Parser} {t : Token} (eof : t.kind = .eof) (open_ : p.pending = false)

theorem insteadOf_eof (eof : t.kind = .eof) (expected : Expectation) :
    SyntaxFault.insteadOf expected t = .unexpectedEnd expected := if_pos eof

theorem lacks_finish (open_ : p.pending = false) (pos : Position) :
    Lacks pos p.blocks.length p (p.finish pos) := by
  refine ⟨_, reports_finish open_, List.length_map _, fun r mem => ?_⟩
  obtain ⟨block, -, rfl⟩ := List.mem_map.mp mem
  exact ⟨_, rfl⟩

include eof open_

theorem lacks_fail (expected : Expectation) :
    Lacks t.pos (p.blocks.length + 1) p (p.fail (.unexpectedEnd expected) t) := by
  have failed : p.fail (.unexpectedEnd expected) t =
      { p with reports := ⟨.syntactic (.unexpectedEnd expected), t.pos⟩ :: p.reports }.finish
        t.pos := by
    rw [fail, recover_eof eof, open_]
    rfl
  obtain ⟨new, reports, length, all⟩ := lacks_finish
    (p := { p with reports := ⟨.syntactic (.unexpectedEnd expected), t.pos⟩ :: p.reports })
    open_ t.pos
  refine ⟨new ++ [⟨.syntactic (.unexpectedEnd expected), t.pos⟩], ?_, ?_, fun r mem => ?_⟩
  · rw [failed, reports, List.append_assoc]
    rfl
  · rw [List.length_append, length]
    rfl
  · rcases List.mem_append.mp mem with mem | mem
    · exact all r mem
    · exact ⟨expected, List.mem_singleton.mp mem⟩

theorem lacks_finishStmt (s : Stmt) :
    Lacks t.pos (p.blocks.length + 1) p (p.finishStmt s t) := by
  rw [finishStmt, if_neg (by rw [eof]; simp), insteadOf_eof eof]
  exact lacks_fail eof open_ _

theorem lacks_openBlock (head : BlockHead) :
    Lacks t.pos (p.blocks.length + 1) p (p.openBlock head t) := by
  rw [openBlock, if_neg (by rw [eof]; simp), insteadOf_eof eof]
  exact lacks_fail eof open_ _

theorem lacks_complete (goal : Goal) (e : Expr) :
    Lacks t.pos (p.blocks.length + 1) p (p.complete goal e t) := by
  cases goal with
  | print pos => exact lacks_finishStmt eof open_ _
  | assign name namePos pos => exact lacks_finishStmt eof open_ _
  | init binding name type pos => exact lacks_finishStmt eof open_ _
  | ifCondition pos => exact lacks_openBlock eof open_ _
  | whileCondition pos => exact lacks_openBlock eof open_ _
  | value fromName pos =>
    have step : p.complete (.value fromName pos) e t = p.finishStmt (.expr e pos) t :=
      if_neg (by rw [eof]; simp)
    rw [step]
    exact lacks_finishStmt eof open_ _

theorem lacks_feedToken (room : p.HasRoom) :
    Lacks t.pos (p.level + (!p.mode.atBoundary).toNat) p (p.feedToken t) := by
  have notName : t.kind ≠ .ident := by rw [eof]; simp
  have notEquals : t.kind ≠ .mark .equals := by rw [eof]; simp
  have notElse : t.kind ≠ .keyword .elseWord := by rw [eof]; simp
  have lacking : ∀ expected : Expectation, Lacks t.pos (p.blocks.length + 1) p
      (p.fail (.insteadOf expected t) t) := fun expected => by
    rw [insteadOf_eof eof]
    exact lacks_fail eof open_ _
  cases h : p.mode with
  | ready =>
    rw [feedToken_ready h, between_eq_finish eof, level, h]
    exact lacks_finish open_ t.pos
  | recovering =>
    rw [feedToken_recovering h, recover_eof eof, level, h]
    exact lacks_finish open_ t.pos
  | opening head =>
    rw [feedToken_opening h, if_pos ((hasRoom_opening h).mp room), between_eq_finish eof, level, h]
    exact lacks_finish (p := p.enter head) open_ t.pos
  | thenRead c thenBody pos =>
    rw [feedToken_thenRead h, if_neg notElse, between_eq_finish eof, level, h]
    exact lacks_finish (p := p.push _) open_ t.pos
  | expr goal r =>
    rw [feedToken_expr h, level, h]
    have outside : t.kind.inExpression = false := by rw [eof]; rfl
    rcases Reading.feed_outside outside r with ⟨e, done⟩ | ⟨reason, fault, why⟩
    · rw [done]
      exact lacks_complete eof open_ goal e
    · rw [fault]
      rcases why ((hasRoom_expr h).mp room) with rfl | rfl
      · have operand : Reading.operandFault t = .unexpectedEnd .expression := if_pos eof
        rw [operand]
        exact lacks_fail eof open_ _
      · exact lacking _
  | closing s =>
    rw [feedToken_closing h, level, h]
    exact lacks_finishStmt eof open_ s
  | declaring binding pos =>
    rw [feedToken_declaring h, if_neg notName, level, h]
    exact lacking _
  | named binding first pos =>
    rw [feedToken_named h, if_neg notName, if_neg notEquals, level, h]
    exact lacking _
  | typed binding type name pos =>
    cases binding with
    | var =>
      rw [feedToken_typed_var h, if_neg notEquals, level, h]
      exact lacks_finishStmt eof open_ _
    | const =>
      rw [feedToken_typed_const h, if_neg notEquals, level, h]
      exact lacking _
  | elseRead c thenBody pos =>
    rw [feedToken_elseRead h, level, h]
    exact lacks_openBlock eof open_ _

end Lacks

end Parser

end ImpSyntax
