import Mathlib.Tactic.SplitIfs
import ImpSyntax.Proofs.Parser.Steps

/-!
# Acts: the parts of a step

One token can do several things: it can make the statement in hand fail, end the block around it and
let the next statement begin. A step of the parser is taken apart into such acts, each of which does
at most one thing to the statements that are being read. A statement is being read from its first
token until it is complete or has failed; those around an open block are being read all the while
the block is open.

Main results:

* `Parser.performs_feedToken` — a step is the acts of its token, one after the other, each in its
  place; the beginning of a statement comes last.
* `Parser.lexical_feedToken` — no token is reported as a lexical fault.
-/

namespace ImpSyntax

open Precedence

/-- What a token can do to the statements that are being read. -/
inductive Act
  /-- A statement begins, to be read on in the given mode. -/
  | begin (mode : Mode)
  /-- A statement begins and fails at once. -/
  | reject (fault : SyntaxFault)
  /-- The token is taken into the statement in hand, or is left out where there is none. -/
  | go (mode : Mode)
  /-- A block is entered. -/
  | enter (head : BlockHead)
  /-- The innermost block ends, and the statement around it goes on. -/
  | leave (mode : Mode)
  /-- The statement in hand is complete. -/
  | complete (s : Stmt)
  /-- The statement in hand fails. -/
  | fail (fault : SyntaxFault)
  /-- The innermost block lacks its end, and the statement around it fails. -/
  | lack
deriving DecidableEq, Repr

/-- Whether the act begins a statement. -/
def Act.begins : Act → Bool
  | begin _ | reject _ => true
  | _ => false

/-- How many statements the act adds to those that are being read. -/
def Act.begun : Act → Nat
  | begin _ => 1
  | _ => 0

/-- How many statements the act takes from those that are being read. -/
def Act.ended : Act → Nat
  | complete _ | fail _ | lack => 1
  | _ => 0

/-- Whether a statement has begun that is not yet at its end. -/
def Mode.inHand : Mode → Bool
  | ready | recovering => false
  | _ => true

@[simp] theorem Mode.inHand_ready : ready.inHand = false := rfl

@[simp] theorem Mode.inHand_recovering : recovering.inHand = false := rfl

/-- The fault of a block without its end. -/
def SyntaxFault.lacksEnd : SyntaxFault := unexpectedEnd .closeBrace

namespace Parser

variable {p : Parser} {t : Token}

/-- How many statements are being read: those around the open blocks, and the one in hand. -/
def beingRead (p : Parser) : Nat := p.blocks.length + p.mode.inHand.toNat

/-! ## Performing an act -/

/-- The reports with one on the statement that fails at `t`, unless it is held back. -/
def withFault (p : Parser) (fault : SyntaxFault) (t : Token) : List Report :=
  if p.pending then p.reports else ⟨.syntactic fault, t.pos⟩ :: p.reports

/-- The state behind an act of the token `t`. -/
def perform (t : Token) (p : Parser) : Act → Parser
  | .begin mode => p.fresh.into mode
  | .reject fault =>
    { p.fresh with mode := .recovering, reports := ⟨.syntactic fault, t.pos⟩ :: p.reports }
  | .go mode => p.into mode
  | .enter head => p.enter head
  | .leave mode =>
    { p with
      blocks := p.blocks.tail
      body := (p.blocks.head?.map OpenBlock.before).getD []
      mode }
  | .complete s => p.push s
  | .fail fault => { p with mode := .recovering, reports := p.withFault fault t }
  | .lack =>
    { p with
      blocks := p.blocks.tail
      mode := .recovering
      reports := p.withFault .lacksEnd t }

/-- Whether the act has its place in the state. -/
def Allows (p : Parser) : Act → Prop
  | .begin mode => p.mode.inHand = false ∧ mode.inHand = true
  | .reject _ => p.mode.inHand = false
  | .go mode => mode.inHand = p.mode.inHand
  | .enter _ | .complete _ | .fail _ => p.mode.inHand = true
  | .leave mode => p.mode.inHand = false ∧ p.blocks ≠ [] ∧ mode.inHand = true
  | .lack => p.mode.inHand = false ∧ p.blocks ≠ []

theorem beingRead_perform {act : Act} (allowed : p.Allows act) :
    (p.perform t act).beingRead + act.ended = p.beingRead + act.begun := by
  obtain ⟨blocks, body, mode, pending, reports⟩ := p
  cases act with
  | begin m =>
    obtain ⟨between, inHand⟩ : mode.inHand = false ∧ m.inHand = true := allowed
    simp [beingRead, perform, fresh, into, between, inHand, Act.begun, Act.ended]
  | reject fault =>
    have between : mode.inHand = false := allowed
    simp [beingRead, perform, fresh, between, Act.begun, Act.ended]
  | go m =>
    have same : m.inHand = mode.inHand := allowed
    simp [beingRead, perform, into, same, Act.begun, Act.ended]
  | leave m =>
    obtain ⟨between, inside, inHand⟩ :
      mode.inHand = false ∧ blocks ≠ [] ∧ m.inHand = true := allowed
    obtain ⟨block, outer, rfl⟩ := List.exists_cons_of_ne_nil inside
    simp [beingRead, perform, between, inHand, Act.begun, Act.ended]
  | lack =>
    obtain ⟨between, inside⟩ : mode.inHand = false ∧ blocks ≠ [] := allowed
    obtain ⟨block, outer, rfl⟩ := List.exists_cons_of_ne_nil inside
    simp [beingRead, perform, between, Act.begun, Act.ended]
  | enter | complete | fail =>
    have busy : mode.inHand = true := allowed
    simp [beingRead, perform, enter, push, busy, Act.begun, Act.ended]

/-- `Performs t p acts q`: the acts of the token `t`, each in its place, lead from `p` to `q`, and
none follows the beginning of a statement. -/
inductive Performs (t : Token) : Parser → List Act → Parser → Prop
  | nil {p : Parser} : Performs t p [] p
  | begins {p : Parser} {act : Act} : act.begins = true → p.Allows act →
      Performs t p [act] (p.perform t act)
  | cons {p q : Parser} {act : Act} {acts : List Act} : act.begins = false → p.Allows act →
      Performs t (p.perform t act) acts q → Performs t p (act :: acts) q

/-! ## Between two statements -/

/-- The acts of a token that begins a statement. -/
def beginActs (p : Parser) (t : Token) : List Act :=
  if t.kind.startsStatement then [.begin (p.begin t).mode]
  else match Reading.begin p.blocks.length t with
    | .ok r => [.begin (.expr (.value (t.kind == .ident) t.pos) r)]
    | .error fault => [.reject fault]

/-- The acts of the end of the block. -/
def closeActs (p : Parser) (block : OpenBlock) : List Act :=
  let body := p.body.reverse
  match block.head with
  | .thenBlock c pos => [.leave (.thenRead c body pos)]
  | .elseBlock c thenBody pos =>
    let s := Stmt.ifElse c thenBody (some body) pos
    [.leave (.closing s), .complete s]
  | .whileBlock c pos =>
    let s := Stmt.whileLoop c body pos
    [.leave (.closing s), .complete s]

/-- The acts of the end of the text. -/
def finishActs (p : Parser) : List Act := p.blocks.map (fun _ => .lack) ++ [.go .ready]

/-- The acts of a token between two statements. -/
def betweenActs (p : Parser) (t : Token) : List Act :=
  match t.kind, p.blocks with
  | .eof, _ => p.finishActs
  | .mark .closeBrace, block :: _ => p.closeActs block
  | _, _ => p.beginActs t

theorem performs_begin (h : p.mode.inHand = false) :
    Performs t p (p.beginActs t) (p.begin t) := by
  unfold beginActs
  split_ifs with starts
  · have made : ∃ m : Mode, m.inHand = true ∧ p.begin t = p.fresh.into m := by
      rcases Kind.startsStatement_cases starts with kind | kind | kind | ⟨b, kind⟩ | ⟨j, kind⟩
      · exact ⟨_, rfl, begin_print kind⟩
      · exact ⟨_, rfl, begin_if kind⟩
      · exact ⟨_, rfl, begin_while kind⟩
      · exact ⟨_, rfl, begin_declaration kind⟩
      · exact ⟨_, rfl, begin_jump kind⟩
    obtain ⟨m, hm, begun⟩ := made
    rw [begun]
    exact .begins rfl ⟨h, hm⟩
  · rw [begin_expression (by simpa using starts)]
    cases Reading.begin p.blocks.length t with
    | ok r => exact .begins rfl ⟨h, rfl⟩
    | error fault => exact .begins rfl h

theorem performs_close {block : OpenBlock} {outer : List OpenBlock} (h : p.mode.inHand = false)
    (hb : p.blocks = block :: outer) : Performs t p (p.closeActs block) (p.close block outer) := by
  have some : p.blocks ≠ [] := by rw [hb]; exact List.cons_ne_nil _ _
  obtain ⟨blocks, body, mode, pending, reports⟩ := p
  cases hb
  obtain ⟨head, before⟩ := block
  cases head with
  | thenBlock c pos => exact .cons rfl ⟨h, some, rfl⟩ .nil
  | elseBlock c thenBody pos => exact .cons rfl ⟨h, some, rfl⟩ (.cons rfl rfl .nil)
  | whileBlock c pos => exact .cons rfl ⟨h, some, rfl⟩ (.cons rfl rfl .nil)

/-- Like reports can be added in any order. -/
theorem lacking_cons (outer : List OpenBlock) (r : Report) (reports : List Report) :
    (r :: outer.map fun _ => r) ++ reports = (outer.map fun _ => r) ++ r :: reports := by
  rw [List.map_const', ← List.replicate_succ, List.replicate_succ', List.append_assoc]
  rfl

theorem performs_finish (h : p.mode.inHand = false) :
    Performs t p p.finishActs (p.finish t.pos) := by
  obtain ⟨blocks, body, mode, pending, reports⟩ := p
  induction blocks generalizing mode reports with
  | nil =>
    have done : (⟨[], body, mode, pending, reports⟩ : Parser).finish t.pos =
        (⟨[], body, mode, pending, reports⟩ : Parser).perform t (.go .ready) := by
      cases pending <;> rfl
    rw [done]
    exact .cons rfl h.symm .nil
  | cons block outer ih =>
    let p : Parser := ⟨block :: outer, body, mode, pending, reports⟩
    have dropped : p.finish t.pos = (p.perform t .lack).finish t.pos := by
      cases pending with
      | true => rfl
      | false => exact congrArg (Parser.mk [] body .ready false) (lacking_cons outer _ reports)
    have behind := ih .recovering (p.withFault .lacksEnd t) rfl
    change Performs t p (.lack :: finishActs (p.perform t .lack)) (p.finish t.pos)
    rw [dropped]
    exact .cons rfl ⟨h, List.cons_ne_nil _ _⟩ behind

theorem performs_between (h : p.mode.inHand = false) :
    Performs t p (p.betweenActs t) (p.between t) := by
  rcases between_cases p t with ⟨kind, made⟩ | ⟨block, outer, kind, blocks, made⟩ |
    ⟨notEof, inside, made⟩ <;> rw [made]
  · unfold betweenActs
    rw [kind]
    exact performs_finish h
  · unfold betweenActs
    rw [kind, blocks]
    exact performs_close h blocks
  · unfold betweenActs
    split
    · next kind => exact absurd kind notEof
    · next kind blocks => rw [inside kind] at blocks; cases blocks
    · exact performs_begin h

/-! ## Failures -/

/-- The acts of a token behind a failure. -/
def recoverActs (p : Parser) (t : Token) : List Act :=
  if t.kind = .mark .semicolon then [.go .ready]
  else if t.kind = .eof ∨ (t.kind = .mark .closeBrace ∧ p.blocks ≠ []) ∨ t.kind.startsStatement then
    p.betweenActs t
  else [.go .recovering]

/-- The acts of the token at which the statement in hand fails. -/
def failActs (p : Parser) (fault : SyntaxFault) (t : Token) : List Act :=
  .fail fault :: (p.perform t (.fail fault)).recoverActs t

theorem performs_recover (h : p.mode.inHand = false) :
    Performs t p (p.recoverActs t) (p.recover t) := by
  unfold recoverActs
  split_ifs with semicolon resumes
  · rw [recover_eq_ready semicolon]
    exact .cons rfl h.symm .nil
  · rw [recover_eq_between resumes]
    exact performs_between h
  · rw [recover_eq_recovering semicolon resumes]
    exact .cons rfl h.symm .nil

theorem between_into (p : Parser) (m : Mode) (t : Token) : (p.into m).between t = p.between t := by
  rcases between_cases p t with ⟨kind, made⟩ | ⟨block, outer, kind, blocks, made⟩ |
    ⟨notEof, inside, made⟩ <;> rw [made]
  · exact between_eq_finish kind
  · rw [between_eq_close kind (by exact blocks)]
    obtain ⟨head, before⟩ := block
    cases head <;> rfl
  · rw [between_eq_begin notEof (by exact inside)]
    unfold begin
    split <;> rfl

/-- Behind a failure the mode makes no difference. -/
theorem recover_into (p : Parser) (m : Mode) (t : Token) : (p.into m).recover t = p.recover t := by
  rcases recover_cases p t with ⟨kind, made⟩ | ⟨resumes, made⟩ | ⟨kind, resumes, made⟩ <;> rw [made]
  · exact recover_eq_ready kind
  · exact (recover_eq_between (by exact resumes)).trans (between_into p m t)
  · exact recover_eq_recovering kind (by exact resumes)

theorem performs_fail {fault : SyntaxFault} (h : p.mode.inHand = true) :
    Performs t p (p.failActs fault t) (p.fail fault t) := by
  have behind : p.fail fault t = (p.perform t (.fail fault)).recover t :=
    (recover_into { p with reports := p.withFault fault t } .recovering t).symm
  rw [behind]
  exact .cons rfl h (performs_recover rfl)

/-! ## Inside statements -/

/-- The acts of a token behind a statement that lacks only its semicolon. -/
def finishStmtActs (p : Parser) (s : Stmt) (t : Token) : List Act :=
  if t.kind = .mark .semicolon then [.complete s] else p.failActs (.insteadOf .semicolon t) t

/-- The acts of a token where a block has to begin. -/
def openBlockActs (p : Parser) (head : BlockHead) (t : Token) : List Act :=
  if t.kind = .mark .openBrace then [.go (.opening head)]
  else p.failActs (.insteadOf .openBrace t) t

/-- The acts of a token behind the expression `e`. -/
def completeActs (p : Parser) (goal : Goal) (e : Expr) (t : Token) : List Act :=
  match goal with
  | .print pos => p.finishStmtActs (.print e pos) t
  | .assign name namePos pos => p.finishStmtActs (.assign name namePos e pos) t
  | .init binding name type pos => p.finishStmtActs (.declare binding name type (some e) pos) t
  | .ifCondition pos => p.openBlockActs (.thenBlock e pos) t
  | .whileCondition pos => p.openBlockActs (.whileBlock e pos) t
  | .value fromName pos =>
    if t.kind = .mark .equals then
      match fromName, e with
      | true, .location name namePos =>
        [.go (.expr (.assign name namePos pos) (.start p.blocks.length))]
      | _, _ => p.failActs .invalidTarget t
    else p.finishStmtActs (.expr e pos) t

/-- The acts of the token `t`. -/
def acts (p : Parser) (t : Token) : List Act :=
  let asks (goal : Goal) : List Act := [.go (.expr goal (.start p.blocks.length))]
  match p.mode with
  | .ready => p.betweenActs t
  | .recovering => p.recoverActs t
  | .expr goal reading =>
    match reading.feed t with
    | .more reading => [.go (.expr goal reading)]
    | .done e => p.completeActs goal e t
    | .fault fault => p.failActs fault t
  | .closing s => p.finishStmtActs s t
  | .declaring binding pos =>
    if t.kind = .ident then [.go (.named binding ⟨t.lexeme, t.pos⟩ pos)]
    else p.failActs (.insteadOf .identifier t) t
  | .named binding first pos =>
    if t.kind = .ident then [.go (.typed binding first t.lexeme pos)]
    else if t.kind = .mark .equals then asks (.init binding first.name none pos)
    else p.failActs (.insteadOf .equals t) t
  | .typed binding type name pos =>
    if t.kind = .mark .equals then asks (.init binding name (some type) pos)
    else match binding with
      | .var => p.finishStmtActs (.declare .var name (some type) none pos) t
      | .const => p.failActs (.insteadOf .equals t) t
  | .opening head =>
    if p.blocks.length < maxNesting then .enter head :: (p.enter head).betweenActs t
    else p.failActs .tooDeep t
  | .thenRead c thenBody pos =>
    if t.kind = .keyword .elseWord then [.go (.elseRead c thenBody pos)]
    else
      let s := Stmt.ifElse c thenBody none pos
      .complete s :: (p.push s).betweenActs t
  | .elseRead c thenBody pos => p.openBlockActs (.elseBlock c thenBody pos) t

section InHand

variable (h : p.mode.inHand = true)
include h

theorem performs_finishStmt {s : Stmt} :
    Performs t p (p.finishStmtActs s t) (p.finishStmt s t) := by
  unfold finishStmtActs finishStmt
  split_ifs
  · exact .cons rfl h .nil
  · exact performs_fail h

theorem performs_openBlock {head : BlockHead} :
    Performs t p (p.openBlockActs head t) (p.openBlock head t) := by
  unfold openBlockActs openBlock
  split_ifs
  · exact .cons rfl h.symm .nil
  · exact performs_fail h

theorem performs_complete {goal : Goal} {e : Expr} :
    Performs t p (p.completeActs goal e t) (p.complete goal e t) := by
  unfold completeActs complete
  cases goal with
  | print | assign | init => exact performs_finishStmt h
  | ifCondition | whileCondition => exact performs_openBlock h
  | value fromName pos =>
    dsimp only
    split_ifs
    · cases fromName with
      | false => exact performs_fail h
      | true =>
        cases e with
        | location => exact .cons rfl h.symm .nil
        | _ => exact performs_fail h
    · exact performs_finishStmt h

end InHand

theorem performs_feedToken (p : Parser) (t : Token) : Performs t p (p.acts t) (p.feedToken t) := by
  have read {m : Mode} (is : p.mode = m) (hm : m.inHand = true) : p.mode.inHand = true := is ▸ hm
  unfold acts
  cases h : p.mode with
  | ready => rw [feedToken_ready h]; exact performs_between (by rw [h]; rfl)
  | recovering => rw [feedToken_recovering h]; exact performs_recover (by rw [h]; rfl)
  | expr goal r =>
    rw [feedToken_expr h]
    dsimp only
    cases r.feed t with
    | more => exact .cons rfl (read h rfl).symm .nil
    | done => exact performs_complete (read h rfl)
    | fault => exact performs_fail (read h rfl)
  | closing s => rw [feedToken_closing h]; exact performs_finishStmt (read h rfl)
  | declaring binding pos =>
    rw [feedToken_declaring h]
    dsimp only
    split_ifs
    · exact .cons rfl (read h rfl).symm .nil
    · exact performs_fail (read h rfl)
  | named binding first pos =>
    rw [feedToken_named h]
    dsimp only
    split_ifs
    · exact .cons rfl (read h rfl).symm .nil
    · exact .cons rfl (read h rfl).symm .nil
    · exact performs_fail (read h rfl)
  | typed binding type name pos =>
    cases binding with
    | var =>
      rw [feedToken_typed_var h]
      dsimp only
      split_ifs
      · exact .cons rfl (read h rfl).symm .nil
      · exact performs_finishStmt (read h rfl)
    | const =>
      rw [feedToken_typed_const h]
      dsimp only
      split_ifs
      · exact .cons rfl (read h rfl).symm .nil
      · exact performs_fail (read h rfl)
  | opening head =>
    rw [feedToken_opening h]
    dsimp only
    split_ifs
    · exact .cons rfl (read h rfl) (performs_between rfl)
    · exact performs_fail (read h rfl)
  | thenRead c thenBody pos =>
    rw [feedToken_thenRead h]
    dsimp only
    split_ifs
    · exact .cons rfl (read h rfl).symm .nil
    · exact .cons rfl (read h rfl) (performs_between rfl)
  | elseRead c thenBody pos => rw [feedToken_elseRead h]; exact performs_openBlock (read h rfl)

/-! ## What acts do to the reports -/

theorem lexical_perform (act : Act) :
    (p.perform t act).reports.filter (·.isLexical) = p.reports.filter (·.isLexical) := by
  have held (fault : SyntaxFault) :
      (p.withFault fault t).filter (·.isLexical) = p.reports.filter (·.isLexical) := by
    unfold withFault
    split <;> rfl
  cases act with
  | fail fault => exact held fault
  | lack => exact held .lacksEnd
  | _ => rfl

theorem Performs.lexical {q : Parser} {acts : List Act} (h : Performs t p acts q) :
    q.reports.filter (·.isLexical) = p.reports.filter (·.isLexical) := by
  induction h with
  | nil => rfl
  | begins => exact lexical_perform _
  | cons _ _ _ ih => exact ih.trans (lexical_perform _)

theorem lexical_feedToken (p : Parser) (t : Token) :
    (p.feedToken t).reports.filter (·.isLexical) = p.reports.filter (·.isLexical) :=
  (performs_feedToken p t).lexical

end Parser

end ImpSyntax
