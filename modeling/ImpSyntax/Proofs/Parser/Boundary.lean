import Mathlib.Tactic.SplitIfs
import ImpSyntax.Proofs.Parser.Acts
import ImpSyntax.Proofs.Reading.Complete

/-!
# Up to the next semicolon

Outside of blocks, a statement that has begun is over at the next semicolon, whether it is complete
there or has failed before; so is the search for a place to go on. Only a semicolon at which the
statement itself begins is not that end: it begins nothing, is left out, and the search goes on from
there to the next one.

Main results:

* `Parser.Underway.feedToken_inner`, `Parser.Underway.feedToken_semicolon` — one step inside a
  statement, and the last one.
* `Parser.foldl_statement` — a statement that is read where one can begin.
* `Parser.foldl_statement_passed` — a statement that is passed over.
-/

namespace ImpSyntax

open Precedence

/-- Whether the kind is found inside statements only: it is no semicolon, no brace, no word that
begins a statement and not the end. -/
def Kind.IsInner (k : Kind) : Prop :=
  k ≠ .eof ∧ k ≠ .mark .semicolon ∧ k ≠ .mark .openBrace ∧ k ≠ .mark .closeBrace ∧
    k.startsStatement = false

/-- The kinds of the tokens of a statement without blocks: the last one is the only semicolon, and
behind the first one, which can be any, there are no braces and no words that begin a statement. -/
structure IsStatement (ks : List Kind) : Prop where
  ends : ∃ front, ks = front ++ [.mark .semicolon] ∧ .mark .semicolon ∉ front
  blockless : ∀ k ∈ ks.tail,
    k ≠ .mark .openBrace ∧ k ≠ .mark .closeBrace ∧ k.startsStatement = false

/-- A statement of one semicolon, or one that begins with another token. -/
theorem IsStatement.cases {ts : List Token} (h : IsStatement (ts.map Token.kind))
    (notEof : ∀ t ∈ ts, t.kind ≠ .eof) :
    (∃ semi, ts = [semi] ∧ semi.kind = .mark .semicolon) ∨
      ∃ t inner semi, ts = t :: (inner ++ [semi]) ∧ t.kind ≠ .mark .semicolon ∧
        (∀ i ∈ inner, i.kind.IsInner) ∧ semi.kind = .mark .semicolon := by
  obtain ⟨front, whole, only⟩ := h.ends
  obtain ⟨us, last, rfl, rfl, lastKind⟩ := List.map_eq_append_iff.mp whole
  obtain ⟨semi, rest, rfl, semicolon, none⟩ := List.map_eq_cons_iff.mp lastKind
  obtain rfl := List.map_eq_nil_iff.mp none
  cases us with
  | nil => exact .inl ⟨semi, rfl, semicolon⟩
  | cons t inner =>
    have other {u : Token} (hu : u ∈ t :: inner) : u.kind ≠ .mark .semicolon := by
      intro kind
      exact only (kind ▸ List.mem_map_of_mem hu)
    refine .inr ⟨t, inner, semi, rfl, other List.mem_cons_self, fun i hi => ?_, semicolon⟩
    refine ⟨notEof i ?_, other (List.mem_cons_of_mem t hi), h.blockless i.kind ?_⟩
    · exact List.mem_append_left _ (List.mem_cons_of_mem t hi)
    · exact List.mem_map_of_mem (List.mem_append_left _ hi)

/-! ## Steps inside a statement -/

/-- Whether a statement has begun, or has failed, without any block of it being read. -/
def Mode.blockless : Mode → Bool
  | recovering | expr .. | closing _ | declaring .. | named .. | typed .. => true
  | _ => false

/-- The mode between statements, where a place to go on is looked for or not. -/
def Mode.between (seeking : Bool) : Mode :=
  match seeking with
  | true => .recovering
  | false => .ready

namespace Parser

/-- Outside of blocks a statement has begun or has failed, and its semicolon is still to come. -/
structure Underway (p : Parser) : Prop where
  blocks : p.blocks = []
  pending : p.pending = false
  mode : p.mode.blockless = true

/-- Outside of blocks nothing has begun; a place to go on is looked for or not. -/
structure Rests (seeking : Bool) (p : Parser) : Prop where
  blocks : p.blocks = []
  pending : p.pending = false
  mode : p.mode = .between seeking

variable {p : Parser} {t : Token}

/-- Outside of blocks only the end and the words that begin statements are places to go on. -/
theorem not_resumesAt (blocks : p.blocks = []) (eof : t.kind ≠ .eof)
    (starts : t.kind.startsStatement = false) : ¬ p.ResumesAt t := by
  rintro (kind | ⟨-, inside⟩ | kind)
  · exact eof kind
  · exact inside blocks
  · rw [starts] at kind
    cases kind

theorem begin_underway (h : p.blocks = []) : (p.begin t).Underway := by
  unfold begin
  split
  case h_8 =>
    dsimp only
    split
    · exact ⟨h, rfl, rfl⟩
    · exact ⟨h, rfl, rfl⟩
  all_goals exact ⟨h, rfl, rfl⟩

namespace Underway

variable (h : p.Underway)
include h

theorem into {m : Mode} (hm : m.blockless = true) : (p.into m).Underway := ⟨h.blocks, h.pending, hm⟩

section Inner

variable (inner : t.kind.IsInner)
include inner

theorem fail_inner (fault : SyntaxFault) : (p.fail fault t).Underway := by
  obtain ⟨eof, semicolon, -, -, starts⟩ := inner
  unfold fail
  rw [recover_eq_recovering semicolon (not_resumesAt (by exact h.blocks) eof starts)]
  exact ⟨h.blocks, h.pending, rfl⟩

theorem finishStmt_inner (s : Stmt) : (p.finishStmt s t).Underway := by
  rw [finishStmt, if_neg inner.2.1]
  exact h.fail_inner inner _

theorem openBlock_inner (head : BlockHead) : (p.openBlock head t).Underway := by
  rw [openBlock, if_neg inner.2.2.1]
  exact h.fail_inner inner _

theorem complete_inner (goal : Goal) (e : Expr) : (p.complete goal e t).Underway := by
  unfold complete
  split
  · exact h.finishStmt_inner inner _
  · exact h.finishStmt_inner inner _
  · exact h.finishStmt_inner inner _
  · exact h.openBlock_inner inner _
  · exact h.openBlock_inner inner _
  · split
    · split
      · exact h.into rfl
      · exact h.fail_inner inner _
    · exact h.finishStmt_inner inner _

/-- A token that is found inside statements only does not end the one that has begun. -/
theorem feedToken_inner : (p.feedToken t).Underway := by
  have mode := h.mode
  cases hm : p.mode with
  | recovering =>
    obtain ⟨eof, semicolon, -, -, starts⟩ := inner
    have stays := not_resumesAt h.blocks eof starts
    rw [feedToken_recovering hm, recover_eq_recovering semicolon stays]
    exact h.into rfl
  | expr goal r =>
    rw [feedToken_expr hm]
    split
    · exact h.into rfl
    · exact h.complete_inner inner _ _
    · exact h.fail_inner inner _
  | closing s => rw [feedToken_closing hm]; exact h.finishStmt_inner inner s
  | declaring binding pos =>
    rw [feedToken_declaring hm]
    split_ifs
    · exact h.into rfl
    · exact h.fail_inner inner _
  | named binding first pos =>
    rw [feedToken_named hm]
    split_ifs
    · exact h.into rfl
    · exact h.into rfl
    · exact h.fail_inner inner _
  | typed binding type name pos =>
    cases binding with
    | var =>
      rw [feedToken_typed_var hm]
      split_ifs
      · exact h.into rfl
      · exact h.finishStmt_inner inner _
    | const =>
      rw [feedToken_typed_const hm]
      split_ifs
      · exact h.into rfl
      · exact h.fail_inner inner _
  | ready | opening | thenRead | elseRead => rw [hm] at mode; cases mode

end Inner

section Semicolon

variable (semicolon : t.kind = .mark .semicolon)
include semicolon

theorem fail_semicolon (fault : SyntaxFault) : (p.fail fault t).Rests false := by
  unfold fail
  rw [recover_eq_ready semicolon]
  exact ⟨h.blocks, h.pending, rfl⟩

theorem finishStmt_semicolon (s : Stmt) : (p.finishStmt s t).Rests false := by
  rw [finishStmt, if_pos semicolon]
  exact ⟨h.blocks, h.pending, rfl⟩

theorem openBlock_semicolon (head : BlockHead) : (p.openBlock head t).Rests false := by
  rw [openBlock, if_neg (by simp [semicolon])]
  exact h.fail_semicolon semicolon _

theorem complete_semicolon (goal : Goal) (e : Expr) : (p.complete goal e t).Rests false := by
  unfold complete
  split
  · exact h.finishStmt_semicolon semicolon _
  · exact h.finishStmt_semicolon semicolon _
  · exact h.finishStmt_semicolon semicolon _
  · exact h.openBlock_semicolon semicolon _
  · exact h.openBlock_semicolon semicolon _
  · rw [if_neg (by simp [semicolon])]
    exact h.finishStmt_semicolon semicolon _

/-- The semicolon ends what has begun, whether that is complete, fails here or has failed. -/
theorem feedToken_semicolon : (p.feedToken t).Rests false := by
  have mode := h.mode
  have noName : t.kind ≠ .ident := by simp [semicolon]
  have noEquals : t.kind ≠ .mark .equals := by simp [semicolon]
  cases hm : p.mode with
  | recovering =>
    rw [feedToken_recovering hm, recover_eq_ready semicolon]
    exact ⟨h.blocks, h.pending, rfl⟩
  | expr goal r =>
    rw [feedToken_expr hm]
    split
    · next r' more =>
      have goesOn := Reading.inExpression_of_more more
      rw [semicolon] at goesOn
      cases goesOn
    · exact h.complete_semicolon semicolon _ _
    · exact h.fail_semicolon semicolon _
  | closing s => rw [feedToken_closing hm]; exact h.finishStmt_semicolon semicolon s
  | declaring binding pos =>
    rw [feedToken_declaring hm, if_neg noName]
    exact h.fail_semicolon semicolon _
  | named binding first pos =>
    rw [feedToken_named hm, if_neg noName, if_neg noEquals]
    exact h.fail_semicolon semicolon _
  | typed binding type name pos =>
    cases binding with
    | var =>
      rw [feedToken_typed_var hm, if_neg noEquals]
      exact h.finishStmt_semicolon semicolon _
    | const =>
      rw [feedToken_typed_const hm, if_neg noEquals]
      exact h.fail_semicolon semicolon _
  | ready | opening | thenRead | elseRead => rw [hm] at mode; cases mode

end Semicolon

/-- What has begun is over at the next semicolon. -/
theorem foldl_feedToken {inner : List Token} (all : ∀ i ∈ inner, i.kind.IsInner)
    (semicolon : t.kind = .mark .semicolon) :
    ((inner ++ [t]).foldl feedToken p).Rests false := by
  induction inner generalizing p with
  | nil => exact h.feedToken_semicolon semicolon
  | cons i inner ih =>
    have first := h.feedToken_inner (all i List.mem_cons_self)
    exact ih first fun j hj => all j (List.mem_cons_of_mem i hj)

end Underway

/-! ## Whole statements -/

theorem begin_semicolon (semicolon : t.kind = .mark .semicolon) :
    (p.begin t).mode = .recovering := by
  rw [begin_expression (by rw [semicolon]; rfl)]
  simp [Reading.begin, Reading.operand, semicolon, Kind.isSign, Reading.literalKind?]

/-- Where a place to go on is looked for, a token that is none leaves all as it is. -/
theorem feedToken_passed (rests : p.Rests true) (eof : t.kind ≠ .eof)
    (semicolon : t.kind ≠ .mark .semicolon) (starts : t.kind.startsStatement = false) :
    p.feedToken t = p := by
  have goesOn : ¬ p.ResumesAt t := not_resumesAt rests.blocks eof starts
  obtain ⟨blocks, body, mode, pending, reports⟩ := p
  obtain rfl : mode = .recovering := rests.mode
  rw [feedToken_recovering rfl, recover_eq_recovering semicolon goesOn]
  rfl

theorem foldl_passed (rests : p.Rests true) {inner : List Token}
    (all : ∀ i ∈ inner, i.kind.IsInner) : inner.foldl feedToken p = p := by
  induction inner with
  | nil => rfl
  | cons i inner ih =>
    obtain ⟨eof, semicolon, -, -, starts⟩ := all i List.mem_cons_self
    rw [List.foldl_cons, feedToken_passed rests eof semicolon starts]
    exact ih fun j hj => all j (List.mem_cons_of_mem i hj)

/-- The search for a place to go on ends where the statement begins, at a word that begins one. -/
theorem foldl_statement_resumed {ts : List Token} (rests : p.Rests true)
    (starts : ∃ t ∈ ts.head?, t.kind.startsStatement = true) :
    ts.foldl feedToken p = ts.foldl feedToken (p.into .ready) := by
  obtain ⟨t, first, starts⟩ := starts
  obtain ⟨rest, rfl⟩ := List.head?_eq_some_iff.mp first
  rw [List.foldl_cons, List.foldl_cons, feedToken_recovering rests.mode, feedToken_ready rfl,
    recover_eq_between (.inr (.inr starts)), between_into]

section Statement

variable {ts : List Token} (stmt : IsStatement (ts.map Token.kind))
  (notEof : ∀ t ∈ ts, t.kind ≠ .eof)
include stmt notEof

/-- A statement that is read where one can begin. A semicolon that begins it is left out and not
taken for its end. -/
theorem foldl_statement (rests : p.Rests false) :
    (ts.foldl feedToken p).Rests (ts.map Token.kind = [.mark .semicolon]) := by
  have begun {t : Token} (kind : t.kind ≠ .eof) : p.feedToken t = p.begin t := by
    rw [feedToken_ready rests.mode, between_eq_begin kind fun _ => rests.blocks]
  rcases stmt.cases notEof with ⟨semi, rfl, semicolon⟩ | ⟨t, inner, semi, rfl, -, all, semicolon⟩
  · have underway : (p.begin semi).Underway := begin_underway rests.blocks
    show (p.feedToken semi).Rests _
    rw [begun (notEof semi List.mem_cons_self)]
    refine ⟨underway.blocks, underway.pending, ?_⟩
    rw [begin_semicolon semicolon, decide_eq_true (by simp [semicolon])]
    rfl
  · have ended := (begin_underway (t := t) rests.blocks).foldl_feedToken all semicolon
    rw [List.foldl_cons, begun (notEof t List.mem_cons_self), decide_eq_false (by simp)]
    exact ended

/-- Otherwise the statement is passed over, up to its semicolon. -/
theorem foldl_statement_passed (rests : p.Rests true)
    (others : ∀ t ∈ ts.head?, t.kind.startsStatement = false) :
    ts.foldl feedToken p = p.into .ready := by
  have ended {semi : Token} (semicolon : semi.kind = .mark .semicolon) :
      p.feedToken semi = p.into .ready := by
    rw [feedToken_recovering rests.mode, recover_eq_ready semicolon]
  rcases stmt.cases notEof with ⟨semi, rfl, semicolon⟩ | ⟨t, inner, semi, rfl, kind, all, semicolon⟩
  · exact ended semicolon
  · have first := feedToken_passed rests (notEof t List.mem_cons_self) kind (others t rfl)
    rw [List.foldl_cons, first, List.foldl_append, foldl_passed rests all]
    exact ended semicolon

end Statement

end Parser

end ImpSyntax
