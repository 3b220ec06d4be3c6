import ImpSyntax.Proofs.Parser.History
import ImpSyntax.Proofs.Reading.Complete

/-!
# The steps of an account

A token does to an account what its acts do, one after the other. Which acts these are is told by
the parser in the account, so that every step of a parser has its like among those of an account.

Main results:

* `Account.feedToken_expr` and the like — the step in each mode.
* `Account.complete_into`, `Account.recover_into` — where a statement ends or fails, it makes no
  difference in which mode.
* `Account.begin_eq` — with a token that can begin a statement one begins.
* `Account.feed_renumber` — a step does not hang on how the places are numbered.
-/

namespace ImpSyntax.Account

open Precedence

/-! ## Acts in a row -/

section Steps

variable (n : Nat) (t : Token) (a : Account)

/-- The same account with another statement in hand. -/
def into (mode : Mode) : Account := { a with parser := a.parser.into mode }

/-- An expression is to be read at the nesting of the open blocks. -/
def expect (goal : Goal) : Account := { a with parser := a.parser.expect goal }

/-- The same account behind other statements. -/
def withBody (body : List Stmt) : Account := { a with parser := { a.parser with body } }

/-- A block is entered. -/
def enter (head : BlockHead) : Account := { a with parser := a.parser.enter head }

/-- The statement in hand is complete. -/
def push (s : Stmt) : Account := { a with parser := a.parser.push s, opened := a.opened.tail }

/-- The account behind several acts of the token `t` at place `n`. -/
def performs (acts : List Act) : Account := acts.foldl (perform n t) a

/-- The account behind the token. -/
def feedToken : Account := a.performs n t (a.parser.acts t)

/-- The account behind the token, if a statement begins with it. -/
def begin : Account := a.performs n t (a.parser.beginActs t)

/-- The account behind the end of the block. -/
def close (block : OpenBlock) : Account := a.performs n t (a.parser.closeActs block)

/-- The account behind the end of the text. -/
def finish : Account := a.performs n t a.parser.finishActs

/-- The account behind the token between two statements. -/
def between : Account := a.performs n t (a.parser.betweenActs t)

/-- The account behind the token, if a statement failed in front of it. -/
def recover : Account := a.performs n t (a.parser.recoverActs t)

/-- The account behind the token, if the statement in hand fails at it. -/
def fail (fault : SyntaxFault) : Account := a.performs n t (a.parser.failActs fault t)

/-- The account behind the token where the statement `s` lacks only its semicolon. -/
def finishStmt (s : Stmt) : Account := a.performs n t (a.parser.finishStmtActs s t)

/-- The account behind the token where a block has to begin. -/
def openBlock (head : BlockHead) : Account := a.performs n t (a.parser.openBlockActs head t)

/-- The account behind the token where the expression `e` is complete. -/
def complete (goal : Goal) (e : Expr) : Account := a.performs n t (a.parser.completeActs goal e t)

end Steps

variable {n : Nat} {t : Token} {a : Account}

/-- A failure is an act of its own; the search for a place to go on begins with the same token. -/
theorem fail_eq (fault : SyntaxFault) :
    a.fail n t fault = (a.perform n t (.fail fault)).recover n t := rfl

theorem finishStmt_eq (s : Stmt) :
    a.finishStmt n t s =
      if t.kind = .mark .semicolon then a.push s else a.fail n t (.insteadOf .semicolon t) := by
  unfold finishStmt Parser.finishStmtActs
  split <;> rfl

theorem openBlock_eq (head : BlockHead) :
    a.openBlock n t head =
      if t.kind = .mark .openBrace then a.into (.opening head)
      else a.fail n t (.insteadOf .openBrace t) := by
  unfold openBlock Parser.openBlockActs
  split <;> rfl

theorem complete_value (fromName : Bool) (pos : Position) (e : Expr) :
    a.complete n t (.value fromName pos) e =
      if t.kind = .mark .equals then
        match fromName, e with
        | true, .location name namePos => a.expect (.assign name namePos pos)
        | _, _ => a.fail n t .invalidTarget
      else a.finishStmt n t (.expr e pos) := by
  unfold complete Parser.completeActs
  dsimp only
  split
  · cases fromName with
    | false => rfl
    | true => cases e <;> rfl
  · rfl

/-! ## Between two statements -/

theorem between_eq_finish (h : t.kind = .eof) : a.between n t = a.finish n t := by
  unfold between Parser.betweenActs
  rw [h]
  rfl

theorem between_eq_close {block : OpenBlock} {outer : List OpenBlock}
    (h : t.kind = .mark .closeBrace) (hb : a.parser.blocks = block :: outer) :
    a.between n t = a.close n t block := by
  unfold between Parser.betweenActs
  rw [h, hb]
  rfl

theorem between_eq_begin (h : t.kind ≠ .eof)
    (hb : t.kind = .mark .closeBrace → a.parser.blocks = []) : a.between n t = a.begin n t := by
  unfold between Parser.betweenActs
  split
  · next kind => exact absurd kind h
  · next kind blocks => rw [hb kind] at blocks; cases blocks
  · rfl

theorem begin_eq (h : t.kind.begins = true) :
    a.begin n t = a.perform n t (.begin (a.parser.begin t).mode) := by
  unfold begin Parser.beginActs
  cases word : t.kind.startsStatement with
  | true => rfl
  | false =>
    have operand : t.kind.startsOperand = true := by simpa [Kind.begins, word] using h
    obtain ⟨r, first⟩ := Reading.operand_inside operand [] a.parser.blocks.length
    have begun : Reading.begin a.parser.blocks.length t = .ok r := first
    rw [Parser.begin_expression word, begun]
    rfl

/-- With a token that can begin no statement one begins and fails. -/
theorem begin_refused (h : t.kind.begins = false) :
    a.begin n t = a.perform n t (.reject (Reading.operandFault t)) := by
  obtain ⟨noWord, noOperand⟩ : t.kind.startsStatement = false ∧ t.kind.startsOperand = false := by
    simpa [Kind.begins] using h
  have refused : Reading.begin a.parser.blocks.length t = .error (Reading.operandFault t) :=
    Reading.operand_outside noOperand [] _
  unfold begin Parser.beginActs
  rw [noWord, refused]
  rfl

/-! ## Behind a failure -/

theorem recover_eq_ready (h : t.kind = .mark .semicolon) : a.recover n t = a.into .ready := by
  unfold recover Parser.recoverActs
  rw [if_pos h]
  rfl

theorem recover_eq_between (h : a.parser.ResumesAt t) : a.recover n t = a.between n t := by
  have other : t.kind ≠ .mark .semicolon := by
    intro semicolon
    simp [Parser.ResumesAt, semicolon, Kind.startsStatement] at h
  unfold recover Parser.recoverActs
  unfold Parser.ResumesAt at h
  rw [if_neg other, if_pos h]
  rfl

theorem recover_eq_recovering (hs : t.kind ≠ .mark .semicolon) (h : ¬ a.parser.ResumesAt t) :
    a.recover n t = a.into .recovering := by
  unfold recover Parser.recoverActs
  unfold Parser.ResumesAt at h
  rw [if_neg hs, if_neg h]
  rfl

/-! ## The mode is nothing to what ends a statement -/

theorem begin_into (m : Mode) : (a.into m).begin n t = a.begin n t := by
  cases begins : t.kind.begins with
  | true =>
    have same : ((a.into m).parser.begin t) = a.parser.begin t := by
      unfold Parser.begin
      split <;> rfl
    rw [begin_eq begins, begin_eq begins, same]
    rfl
  | false =>
    rw [begin_refused begins, begin_refused begins]
    rfl

theorem between_into (m : Mode) : (a.into m).between n t = a.between n t := by
  by_cases eof : t.kind = .eof
  · rw [between_eq_finish eof, between_eq_finish eof]
    obtain ⟨⟨blocks, body, mode, pending, reports⟩, opened, starts, incidents⟩ := a
    cases blocks <;> rfl
  by_cases closes : t.kind = .mark .closeBrace ∧ a.parser.blocks ≠ []
  · obtain ⟨brace, inside⟩ := closes
    obtain ⟨block, outer, blocks⟩ := List.exists_cons_of_ne_nil inside
    rw [between_eq_close brace blocks, between_eq_close brace (by exact blocks)]
    obtain ⟨head, before⟩ := block
    cases head <;> rfl
  · have outermost : t.kind = .mark .closeBrace → a.parser.blocks = [] := by
      intro brace
      by_contra inside
      exact closes ⟨brace, inside⟩
    rw [between_eq_begin eof outermost, between_eq_begin eof (by exact outermost), begin_into]

theorem recover_into (m : Mode) : (a.into m).recover n t = a.recover n t := by
  by_cases semicolon : t.kind = .mark .semicolon
  · rw [recover_eq_ready semicolon, recover_eq_ready semicolon]
    rfl
  by_cases resumes : a.parser.ResumesAt t
  · rw [recover_eq_between resumes, recover_eq_between (by exact resumes), between_into]
  · rw [recover_eq_recovering semicolon resumes, recover_eq_recovering semicolon (by exact resumes)]
    rfl

theorem finishStmt_into (m : Mode) (s : Stmt) :
    (a.into m).finishStmt n t s = a.finishStmt n t s := by
  rw [finishStmt_eq, finishStmt_eq]
  rfl

theorem openBlock_into (m : Mode) (head : BlockHead) :
    (a.into m).openBlock n t head = a.openBlock n t head := by
  rw [openBlock_eq, openBlock_eq]
  rfl

theorem complete_into (m : Mode) (goal : Goal) (e : Expr) :
    (a.into m).complete n t goal e = a.complete n t goal e := by
  cases goal with
  | print | assign | init => exact finishStmt_into m _
  | ifCondition | whileCondition => exact openBlock_into m _
  | value fromName pos =>
    rw [complete_value, complete_value, finishStmt_into]
    rfl

/-! ## The step in each mode -/

theorem feedToken_ready (h : a.parser.mode = .ready) : a.feedToken n t = a.between n t := by
  unfold feedToken Parser.acts
  rw [h]
  rfl

theorem feedToken_recovering (h : a.parser.mode = .recovering) :
    a.feedToken n t = a.recover n t := by
  unfold feedToken Parser.acts
  rw [h]
  rfl

theorem feedToken_expr {goal : Goal} {r : Reading} (h : a.parser.mode = .expr goal r) :
    a.feedToken n t = match r.feed t with
      | .more r' => a.into (.expr goal r')
      | .done e => a.complete n t goal e
      | .fault fault => a.fail n t fault := by
  unfold feedToken Parser.acts
  rw [h]
  dsimp only
  cases r.feed t <;> rfl

theorem feedToken_closing {s : Stmt} (h : a.parser.mode = .closing s) :
    a.feedToken n t = a.finishStmt n t s := by
  unfold feedToken Parser.acts
  rw [h]
  rfl

theorem feedToken_declaring {binding : Binding} {pos : Position}
    (h : a.parser.mode = .declaring binding pos) :
    a.feedToken n t =
      if t.kind = .ident then a.into (.named binding ⟨t.lexeme, t.pos⟩ pos)
      else a.fail n t (.insteadOf .identifier t) := by
  unfold feedToken Parser.acts
  rw [h]
  dsimp only
  split <;> rfl

theorem feedToken_named {binding : Binding} {first : TypeName} {pos : Position}
    (h : a.parser.mode = .named binding first pos) :
    a.feedToken n t =
      if t.kind = .ident then a.into (.typed binding first t.lexeme pos)
      else if t.kind = .mark .equals then a.expect (.init binding first.name none pos)
      else a.fail n t (.insteadOf .equals t) := by
  unfold feedToken Parser.acts
  rw [h]
  dsimp only
  split
  · rfl
  · split <;> rfl

theorem feedToken_typed {binding : Binding} {type : TypeName} {name : String} {pos : Position}
    (h : a.parser.mode = .typed binding type name pos) :
    a.feedToken n t =
      if t.kind = .mark .equals then a.expect (.init binding name (some type) pos)
      else if binding = .var then a.finishStmt n t (.declare binding name (some type) none pos)
      else a.fail n t (.insteadOf .equals t) := by
  unfold feedToken Parser.acts
  rw [h]
  dsimp only
  split
  · rfl
  · cases binding <;> rfl

theorem feedToken_opening {head : BlockHead} (h : a.parser.mode = .opening head) :
    a.feedToken n t =
      if a.parser.blocks.length < maxNesting then (a.enter head).between n t
      else a.fail n t .tooDeep := by
  unfold feedToken Parser.acts
  rw [h]
  dsimp only
  split <;> rfl

theorem feedToken_thenRead {c : Expr} {thenBody : List Stmt} {pos : Position}
    (h : a.parser.mode = .thenRead c thenBody pos) :
    a.feedToken n t =
      if t.kind = .keyword .elseWord then a.into (.elseRead c thenBody pos)
      else (a.push (.ifElse c thenBody none pos)).between n t := by
  unfold feedToken Parser.acts
  rw [h]
  dsimp only
  split <;> rfl

theorem feedToken_elseRead {c : Expr} {thenBody : List Stmt} {pos : Position}
    (h : a.parser.mode = .elseRead c thenBody pos) :
    a.feedToken n t = a.openBlock n t (.elseBlock c thenBody pos) := by
  unfold feedToken Parser.acts
  rw [h]
  rfl

/-! ## Other numbers for the places -/

section Renumber

variable (number : Nat → Nat)

/-- The account with its places numbered in another way. -/
def renumber (a : Account) : Account :=
  ⟨a.parser, a.opened.map number, a.starts.map number, a.incidents.map (.renumber number)⟩

theorem parser_renumber (a : Account) : (a.renumber number).parser = a.parser := rfl

theorem fails_renumber (a : Account) (fault : SyntaxFault) :
    (a.fails n t fault).map (.renumber number) =
      (a.renumber number).fails (number n) t fault := by
  obtain ⟨parser, opened, starts, incidents⟩ := a
  cases opened <;> rfl

theorem perform_renumber (a : Account) (act : Act) :
    (a.perform n t act).renumber number = (a.renumber number).perform (number n) t act := by
  have opened : a.opened.tail.map number = (a.renumber number).opened.tail := List.map_tail
  have failed := fails_renumber (n := n) (t := t) number a
  cases act with
  | begin | reject | go | enter | leave => rfl
  | complete s => exact congrArg (Account.mk _ · _ _) opened
  | fail fault => exact congr (congrArg (Account.mk _ · _) opened) (failed fault)
  | lack => exact congr (congrArg (Account.mk _ · _) opened) (failed .lacksEnd)

theorem performs_renumber (a : Account) (acts : List Act) :
    (a.performs n t acts).renumber number = (a.renumber number).performs (number n) t acts := by
  induction acts generalizing a with
  | nil => rfl
  | cons act acts ih =>
    have behind := ih (a.perform n t act)
    rw [perform_renumber] at behind
    exact behind

/-- What an item does to an account does not hang on how the places are numbered. -/
theorem feed_renumber (a : Account) (item : Item) :
    (a.feed (item, n)).renumber number = (a.renumber number).feed (item, number n) := by
  cases item with
  | token t => exact performs_renumber number a (a.parser.acts t)
  | fault reason pos => rfl

end Renumber

end ImpSyntax.Account
