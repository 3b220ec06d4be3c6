import ImpSyntax.Proofs.Descent.Expressions

/-!
# Rules and steps: statements

The rules of statements follow the parser that is fed item by item: a statement that is read is one
that is pushed, a block is one that is entered and closed, and the search for a place to go on is the
same. Where the text ends inside a block the rules give up one block after the other, and the parser
all of them at once; what is seen is the same.

Main results:

* `Descent.follows_statement` — a statement is read as the parser reads it.
* `Descent.statements_follow` — so are the statements up to a token that closes them.
* `Descent.run_eq_parse` — the rules and the parser come to the same program and the same reports.
-/

namespace ImpSyntax.Descent

open Precedence ImpSyntax.Account ImpSyntax.Reading

/-! ## What the statements need of the expressions -/

/-- Expressions are read, and read as the parser reads them; a name at the first token is a name alone
only as one token. -/
structure Models (n : Nat) (expression : Rule Expr) : Prop extends Reads n expression where
  follows : ∀ a goal c, Fits n c → a.parser.blocks.length = c.depth →
    Follows (outcome (a.expect goal) c) a (completed a goal) expression c
  alone : ∀ c c' name pos, expression c = some (.ok (.location name pos), c') →
    c.ahead.kind = .ident → c'.taken = c.taken + 1

theorem models_within (n : Nat) : Models (n + 1) (expression (within n)) where
  toReads := reads_within n
  follows _ _ _ fits level := follows_expression fits level
  alone _ _ _ _ run first := taken_of_location run first

theorem Models.mono {n m : Nat} {expression : Rule Expr} (h : Models m expression) (le : n ≤ m) :
    Models n expression where
  toReads := h.toReads.mono le
  follows a goal c fits := h.follows a goal c (fits.mono le)
  alone := h.alone

section Statements

variable {β : Type} {n : Nat} {expression : Rule Expr} {a : Account} {c : Cursor}

/-- An expression that is asked for is read, and what is done with it follows at the same level. -/
theorem Models.bind {goal : Goal} {f : Expr → Rule β} {on : β → Cursor → Seen}
    (value : Models n expression) (fits : Fits n c) (level : a.parser.blocks.length = c.depth)
    (behind : ∀ e c', expression c = some (.ok e, c') → Fits n c' → a.parser.blocks.length = c'.depth →
      Follows (completed a goal e c') a on (f e) c') :
    Follows (outcome (a.expect goal) c) a on (expression >>= f) c := by
  refine (value.follows a goal c fits level).bind fun e c' run before => ?_
  obtain ⟨go, same⟩ := (value.returns fits).of_run run
  rw [before]
  exact behind e c' run (fits.onward go) (level.trans same.symm)

/-! ## Simple statements -/

/-- What comes of the text where the statement `s` lacks only its semicolon. -/
def finishing (a : Account) (s : Stmt) (c : Cursor) : Seen :=
  outcomeBehind ((a.along c).finishStmt c.taken c.ahead s) c

/-- What comes of the text behind the statement `s`. -/
def finished (a : Account) (s : Stmt) (c : Cursor) : Seen := outcome (a.push s) c

theorem follows_semicolon (s : Stmt) :
    Follows (finishing a s c) a (finished a)
      (do let _ ← expect (.mark .semicolon) .semicolon; return s) c := by
  unfold finishing
  rw [finishStmt_eq]
  refine follows_expect (fun semicolon => follows_pure ?_) fun other => ?_
  · rw [if_pos semicolon]
    exact outcomeBehind_eq (b := (a.along c).push s) (by simp [semicolon]) rfl
  · rw [if_neg other]
    rfl

/-- What comes of the text behind the first token of a statement that has begun with the token
ahead. -/
def beginning (a : Account) (c : Cursor) : Seen :=
  outcomeBehind ((a.along c).into ((a.along c).parser.begin c.ahead).mode) c

/-- The token that begins a statement is taken. -/
theorem beginning_eq {mode : Mode} (more : c.ahead.kind ≠ .eof)
    (step : (a.along c).parser.begin c.ahead = (a.along c).parser.fresh.into mode) :
    beginning a c = outcome (a.into mode) c.advance := by
  rw [beginning, step]
  exact outcomeBehind_eq (b := (a.along c).into mode) more rfl

/-- A word and the expression behind it are read; fewer tokens are left behind the word. -/
theorem Models.behindWord {goal : Goal} {f : Token → Expr → Rule β} {on : β → Cursor → Seen}
    (value : Models (n + 1) expression) (more : c.ahead.kind ≠ .eof)
    (begun : (a.along c).parser.begin c.ahead = (a.along c).parser.fresh.expect goal)
    (fits : Fits (n + 1) c) (level : a.parser.blocks.length = c.depth)
    (behind : ∀ e c', Fits n c' → a.parser.blocks.length = c'.depth →
      Follows (completed a goal e c') a on (f c.ahead e) c') :
    Follows (beginning a c) a on (do let word ← next; let e ← expression; f word e) c := by
  have asked : beginning a c = outcome (a.expect goal) c.advance :=
    beginning_eq more begun
  rw [asked]
  refine follows_next ?_
  exact (value.mono (Nat.le_succ n)).bind (fits.advance more) (by simpa using level)
    fun e c' _ => behind e c'

theorem follows_printStatement (value : Models (n + 1) expression)
    (word : c.ahead.kind = .keyword .printWord) (fits : Fits (n + 1) c)
    (level : a.parser.blocks.length = c.depth) :
    Follows (beginning a c) a (finished a) (printStatement expression) c :=
  value.behindWord (by simp [word]) (Parser.begin_print word) fits level
    fun _ _ _ _ => follows_semicolon _

theorem follows_jumpStatement {jump : Jump} (word : c.ahead.kind = .keyword jump.word) :
    Follows (beginning a c) a (finished a) (jumpStatement jump) c := by
  have more : c.ahead.kind ≠ .eof := by simp [word]
  have begun : beginning a c = outcome (a.into (.closing (.jump jump c.ahead.pos))) c.advance :=
    beginning_eq more (Parser.begin_jump word)
  rw [begun]
  refine follows_next ?_
  have closing : outcome (a.into (.closing (.jump jump c.ahead.pos))) c.advance =
      finishing a (.jump jump c.ahead.pos) c.advance := by
    rw [outcome, feedToken_closing rfl]
    exact congrArg (outcomeBehind · _) (finishStmt_into (a := a.along c.advance) _ _)
  rw [closing]
  exact follows_semicolon _

/-! ## Declarations -/

/-- What comes of the text behind the name that is declared. -/
def named (a : Account) (binding : Binding) (pos : Position) (r : String × Option TypeName)
    (c : Cursor) : Seen :=
  let b := a.along c
  outcomeBehind
    (if c.ahead.kind = .mark .equals then b.expect (.init binding r.1 r.2 pos)
    else if binding = .var ∧ r.2.isSome then
      b.finishStmt c.taken c.ahead (.declare binding r.1 r.2 none pos)
    else b.fail c.taken c.ahead (.insteadOf .equals c.ahead)) c

theorem follows_declaredName (binding : Binding) (pos : Position) :
    Follows (outcome (a.into (.declaring binding pos)) c) a (named a binding pos) declaredName
      c := by
  refine follows_expect (fun ident => follows_ahead ?_) fun other => ?_
  · have step : outcome (a.into (.declaring binding pos)) c =
        outcome (a.into (.named binding ⟨c.ahead.lexeme, c.ahead.pos⟩ pos)) c.advance := by
      refine outcome_step (by simp [ident]) ?_
      rw [feedToken_declaring rfl, if_pos ident]
      rfl
    rw [step]
    generalize c.ahead = first
    generalize c.advance = c
    split
    · next ident =>
      have step : outcome (a.into (.named binding ⟨first.lexeme, first.pos⟩ pos)) c =
          outcome (a.into (.typed binding ⟨first.lexeme, first.pos⟩ c.ahead.lexeme pos))
            c.advance := by
        refine outcome_step (by simp [ident]) ?_
        rw [feedToken_named rfl, if_pos ident]
        rfl
      rw [step]
      refine follows_next (follows_pure ?_)
      generalize c.ahead.lexeme = name
      generalize c.advance = c
      refine congrArg (outcomeBehind · c) ?_
      rw [feedToken_typed rfl]
      by_cases equals : c.ahead.kind = .mark .equals
      · rw [if_pos equals, if_pos equals]
        rfl
      rw [if_neg equals, if_neg equals]
      cases binding with
      | var => exact finishStmt_into (a := a.along c) _ _
      | const => rfl
    · next other =>
      refine follows_pure (congrArg (outcomeBehind · c) ?_)
      rw [feedToken_named rfl, if_neg other]
      by_cases equals : c.ahead.kind = .mark .equals
      · rw [if_pos equals, if_pos equals]
        rfl
      · rw [if_neg equals, if_neg equals, if_neg (by simp)]
        rfl
  · rw [outcome, feedToken_declaring rfl, if_neg other]
    rfl

theorem follows_initialValue (value : Models n expression) (fits : Fits n c)
    (level : a.parser.blocks.length = c.depth) (binding : Binding) (pos : Position) (name : String)
    (type : Option TypeName) :
    Follows (named a binding pos (name, type) c) a
      (fun init => finishing a (.declare binding name type init pos))
      (initialValue expression binding type) c := by
  unfold named initialValue
  refine follows_ahead ?_
  dsimp only
  split_ifs with equals free
  · refine follows_next ?_
    have more : c.ahead.kind ≠ .eof := by simp [equals]
    have step : outcomeBehind ((a.along c).expect (.init binding name type pos)) c =
        outcome (a.expect (.init binding name type pos)) c.advance :=
      outcomeBehind_eq (b := (a.along c).expect _) more rfl
    rw [step]
    exact value.bind fits.next (by simpa using level) fun e c₁ _ _ _ => follows_pure rfl
  · exact follows_pure rfl
  · exact follows_fail rfl

theorem follows_declaration (value : Models n expression) {binding : Binding}
    (word : c.ahead.kind = .keyword binding.word)
    (fits : Fits n c) (level : a.parser.blocks.length = c.depth) :
    Follows (beginning a c) a (finished a) (declaration expression binding) c := by
  have more : c.ahead.kind ≠ .eof := by simp [word]
  have begun : beginning a c = outcome (a.into (.declaring binding c.ahead.pos)) c.advance :=
    beginning_eq more (Parser.begin_declaration word)
  rw [begun]
  refine follows_next ?_
  have fits₁ := fits.next
  refine (follows_declaredName binding _).bind fun r c₁ run before => ?_
  obtain ⟨go, level₁⟩ := (returns_declaredName fits₁.depth_le).of_run run
  have level₁ : a.parser.blocks.length = c₁.depth := level.trans (by rw [level₁, Cursor.depth_advance])
  rw [before]
  obtain ⟨name, type⟩ := r
  refine (follows_initialValue value (fits₁.onward go) level₁ binding _ name type).bind
    fun init c₂ _ before => ?_
  rw [before]
  exact follows_semicolon _

/-! ## Blocks -/

/-- What comes of the text where a block with the head has to begin. -/
def opening (a : Account) (head : BlockHead) (c : Cursor) : Seen :=
  outcomeBehind ((a.along c).openBlock c.taken c.ahead head) c

/-- The account in a block with the head, behind some statements. -/
def inBlock (a : Account) (head : BlockHead) (statements : List Stmt) : Account :=
  (a.enter head).withBody statements.reverse

/-- The account behind a block with those statements. -/
def pastBlock (a : Account) (statements : List Stmt) : BlockHead → Account
  | .thenBlock condition pos => a.into (.thenRead condition statements pos)
  | .elseBlock condition thenBody pos => a.push (.ifElse condition thenBody (some statements) pos)
  | .whileBlock condition pos => a.push (.whileLoop condition statements pos)

theorem close_inBlock (a : Account) (head : BlockHead) (statements : List Stmt) (n : Nat)
    (t : Token) :
    (inBlock a head statements).close n t ⟨head, a.parser.body⟩ = pastBlock a statements head := by
  have order := List.reverse_reverse statements
  cases head with
  | thenBlock c pos => exact congrArg (fun body => a.into (.thenRead c body pos)) order
  | elseBlock c thenBody pos =>
    exact congrArg (fun body => a.push (.ifElse c thenBody (some body) pos)) order
  | whileBlock c pos => exact congrArg (fun body => a.push (.whileLoop c body pos)) order

/-- The rule reads the statements of a block that was entered, up to its end or that of the text. -/
structure ReadsBody (n : Nat) (body : Rule (List Stmt)) : Prop where
  returns : ∀ c, Fits n c → Returns 0 body c
  reads : ∀ (a : Account) head c out c', Fits n c → a.parser.blocks.length + 1 = c.depth →
    body c = some (out, c') → ∃ statements, out = .ok statements ∧
      (c'.ahead.kind = .mark .closeBrace ∨ c'.ahead.kind = .eof) ∧
      outcome (a.enter head) c = outcome (inBlock a head statements) c'

/-- Where something came up the statements are nothing to the outcome. -/
theorem seen_finish_withBody (body : List Stmt) (fault : a.parser.reports ≠ [] ∨ a.parser.pending = true)
    (n : Nat) (t : Token) : ((a.withBody body).finish n t).seen = (a.finish n t).seen := by
  obtain ⟨⟨blocks, before, mode, pending, reports⟩, opened, starts, incidents⟩ := a
  induction blocks generalizing mode reports opened incidents with
  | nil =>
    have none : ¬ (reports = [] ∧ pending = false) := by
      rintro ⟨rfl, rfl⟩
      simp at fault
    exact congrArg (·, reports, starts, incidents) ((if_neg none).trans (if_neg none).symm)
  | cons block outer ih =>
    refine ih _ _ _ _ ?_
    cases pending with
    | true => exact .inr rfl
    | false => exact .inl (List.cons_ne_nil _ _)

/-- At the end of the text a block that is open is lost together with the statement around it. -/
theorem seen_finish_inBlock (a : Account) (head : BlockHead) (statements : List Stmt) (n : Nat)
    {t : Token} (end_ : t.kind = .eof) :
    ((inBlock a head statements).finish n t).seen = (a.fail n t .lacksEnd).seen := by
  have lost : a.fail n t .lacksEnd = (a.perform n t (.fail .lacksEnd)).finish n t := by
    rw [fail_eq, recover_eq_between (.inl end_), between_eq_finish end_]
  rw [lost]
  refine seen_finish_withBody (a := a.perform n t (.fail .lacksEnd)) statements.reverse ?_ n t
  change a.parser.withFault .lacksEnd t ≠ [] ∨ a.parser.pending = true
  unfold Parser.withFault
  cases a.parser.pending with
  | true => exact .inr rfl
  | false => exact .inl (List.cons_ne_nil _ _)

theorem follows_block {body : Rule (List Stmt)} (inside : ReadsBody n body) (fits : Fits n c)
    (level : a.parser.blocks.length = c.depth) (head : BlockHead) :
    Follows (opening a head c) a (fun statements => outcome (pastBlock a statements head))
      (block body) c := by
  unfold opening
  rw [openBlock_eq]
  refine follows_expect (fun brace => ?_) fun other => ?_
  · have step : outcomeBehind ((a.along c).into (.opening head)) c =
        outcome (a.into (.opening head)) c.advance :=
      outcomeBehind_eq (b := (a.along c).into _) (by simp [brace]) rfl
    rw [if_pos brace, step]
    have fits := fits.next
    have level : a.parser.blocks.length = c.advance.depth := by simpa using level
    generalize c.advance = c at fits level
    have step : outcome (a.into (.opening head)) c = outcomeBehind
        (if a.parser.blocks.length < maxNesting then
          ((a.enter head).along c).between c.taken c.ahead
        else (a.along c).fail c.taken c.ahead .tooDeep) c := by
      rw [outcome, feedToken_opening rfl]
      refine congrArg (outcomeBehind · c) ?_
      split
      · next room => exact (if_pos room).symm
      · next full => exact (if_neg full).symm
    have nestedBody : Follows (outcome (a.into (.opening head)) c) a
        (fun statements => outcome (inBlock a head statements)) (nested body) c := by
      rw [step, level]
      refine follows_nested (fun _ _ _ => rfl) (fun room => ?_) (fun full => ?_)
      · rw [if_pos room]
        intro out c' run
        obtain ⟨statements, rfl, -, before⟩ :=
          inside.reads a head _ _ _ (fits.deeper room) (congrArg Nat.succ level) run
        have ready : outcome (a.enter head) c =
            outcomeBehind (((a.enter head).along c).between c.taken c.ahead) c :=
          congrArg (outcomeBehind · c) (feedToken_ready rfl)
        exact ready.symm.trans before
      · rw [if_neg full]
        rfl
    refine nestedBody.bind fun statements c₁ run before => ?_
    have ended : c₁.ahead.kind = .mark .closeBrace ∨ c₁.ahead.kind = .eof := by
      obtain ⟨room, c₂, _, inner, rfl⟩ | ⟨-, no, -⟩ := nested_eq_some run
      · obtain ⟨_, -, ended, -⟩ :=
          inside.reads a head _ _ _ (fits.deeper room) (congrArg Nat.succ level) inner
        exact ended
      · cases no
    rw [before]
    refine follows_expect (fun brace => follows_pure ?_) fun other => ?_
    · refine outcome_step (by simp [brace]) ?_
      have closed : ((inBlock a head statements).along c₁).between c₁.taken c₁.ahead =
          pastBlock (a.along c₁) statements head :=
        (between_eq_close brace rfl).trans (close_inBlock (a.along c₁) head statements _ _)
      rw [feedToken_ready rfl, closed]
      cases head <;> rfl
    · have end_ : c₁.ahead.kind = .eof := ended.resolve_left other
      have lost := seen_finish_inBlock (a.along c₁) head statements c₁.taken end_
      have fault : SyntaxFault.insteadOf .closeBrace c₁.ahead = .lacksEnd := if_pos end_
      unfold outcome outcomeOfFault outcomeBehind
      rw [if_pos end_, if_pos end_, fault, feedToken_ready rfl, between_eq_finish end_]
      exact lost
  · rw [if_neg other]
    rfl

/-! ## Statements -/

variable {body : Rule (List Stmt)}

theorem follows_whileStatement (value : Models (n + 1) expression) (inside : ReadsBody n body)
    (word : c.ahead.kind = .keyword .whileWord) (fits : Fits (n + 1) c)
    (level : a.parser.blocks.length = c.depth) :
    Follows (beginning a c) a (finished a) (whileStatement expression body) c := by
  refine value.behindWord (by simp [word]) (Parser.begin_while word) fits level
    fun condition c₁ fits level => ?_
  refine (follows_block inside fits level (.whileBlock condition c.ahead.pos)).bind
    fun statements c₂ _ before => ?_
  rw [before]
  exact follows_pure rfl

theorem follows_ifStatement (value : Models (n + 1) expression) (inside : ReadsBody n body)
    (word : c.ahead.kind = .keyword .ifWord) (fits : Fits (n + 1) c)
    (level : a.parser.blocks.length = c.depth) :
    Follows (beginning a c) a (finished a) (ifStatement expression body) c := by
  refine value.behindWord (by simp [word]) (Parser.begin_if word) fits level
    fun condition c₁ fits level => ?_
  generalize c.ahead.pos = pos
  refine (follows_block inside fits level (.thenBlock condition pos)).bind
    fun thenBody c₂ run before => follows_ahead ?_
  obtain ⟨go, same⟩ :=
    (returns_block inside.returns (fits.mono (Nat.le_succ n))).of_run run
  have fits := fits.onward go
  have level := level.trans same.symm
  rw [before, pastBlock]
  split
  · next word =>
    have step : outcome (a.into (.thenRead condition thenBody pos)) c₂ =
        outcome (a.into (.elseRead condition thenBody pos)) c₂.advance := by
      refine outcome_step (by simp [word]) ?_
      rw [feedToken_thenRead rfl, if_pos word]
      rfl
    have asks : outcome (a.into (.elseRead condition thenBody pos)) c₂.advance =
        opening a (.elseBlock condition thenBody pos) c₂.advance := by
      rw [outcome, feedToken_elseRead rfl]
      exact congrArg (outcomeBehind · _) (openBlock_into (a := a.along c₂.advance) _ _)
    rw [step, asks]
    refine follows_next ?_
    have level : a.parser.blocks.length = c₂.advance.depth := by simpa using level
    refine (follows_block inside fits.next level _).bind fun elseBody c₃ _ before => ?_
    rw [before]
    exact follows_pure rfl
  · next other =>
    refine follows_pure (congrArg (outcomeBehind · c₂) ?_)
    rw [feedToken_thenRead rfl, if_neg other, feedToken_ready rfl]
    rfl

/-- A statement that begins with an operand begins with an expression. -/
theorem beginning_expression (operand : c.ahead.kind.startsOperand = true) :
    beginning a c =
      outcome (a.expect (.value (c.ahead.kind == .ident) c.ahead.pos)) c := by
  obtain ⟨r, first⟩ := operand_inside operand [] a.parser.blocks.length
  have step : (Reading.start a.parser.blocks.length).feed c.ahead = .more r := congrArg taken first
  have begun : Reading.begin (a.along c).parser.blocks.length c.ahead = .ok r := first
  refine congrArg (outcomeBehind · c) ?_
  rw [Parser.begin_expression (Kind.not_startsStatement_of_startsOperand operand), begun,
    feedToken_expr rfl, step]
  rfl

/-- Whether the expression is a target is seen from its first token and from the expression. -/
theorem complete_target {first t : Token} {taken place : Nat} {e : Expr} (pos : Position)
    (alone : ∀ name namePos, e = .location name namePos → first.kind = .ident → taken = 1)
    (equals : t.kind = .mark .equals) :
    a.complete place t (.value (first.kind == .ident) pos) e =
      match target? first taken e with
      | none => a.fail place t .invalidTarget
      | some (name, namePos) => a.expect (.assign name namePos pos) := by
  rw [complete_value, if_pos equals]
  cases e with
  | location name namePos =>
    by_cases ident : first.kind = .ident
    · have one := alone name namePos rfl ident
      simp [target?, ident, one]
    · simp [target?, ident]
  | _ => cases first.kind == .ident <;> rfl

theorem follows_expressionStatement (value : Models n expression)
    (operand : c.ahead.kind.startsOperand = true) (fits : Fits n c)
    (level : a.parser.blocks.length = c.depth) :
    Follows (beginning a c) a (finished a) (expressionStatement expression) c := by
  rw [beginning_expression operand]
  refine follows_get ?_
  refine value.bind fits level fun e c₁ run fits level => follows_ahead ?_
  unfold completed
  split
  · next equals =>
    have alone : ∀ name namePos, e = .location name namePos → c.ahead.kind = .ident →
        c₁.taken - c.taken = 1 := by
      rintro name namePos rfl ident
      have := value.alone c c₁ name namePos run ident
      omega
    rw [complete_target _ alone equals]
    refine follows_get ?_
    cases target? c.ahead (c₁.taken - c.taken) e with
    | none => exact follows_fail rfl
    | some name =>
      obtain ⟨name, namePos⟩ := name
      have step : outcomeBehind ((a.along c₁).expect (.assign name namePos c.ahead.pos)) c₁ =
          outcome (a.expect (.assign name namePos c.ahead.pos)) c₁.advance :=
        outcomeBehind_eq (b := (a.along c₁).expect _) (by simp [equals]) rfl
      rw [step]
      refine follows_next ?_
      exact value.bind fits.next (by simpa using level) fun e c₂ _ _ _ => follows_semicolon _
  · next other =>
    rw [complete_value, if_neg other]
    exact follows_semicolon _

/-- A statement is read as the parser reads it. -/
theorem follows_statement (value : Models (n + 1) expression) (inside : ReadsBody n body)
    (begins : c.ahead.kind.begins = true) (fits : Fits (n + 1) c)
    (level : a.parser.blocks.length = c.depth) :
    Follows (beginning a c) a (finished a) (statement expression body) c := by
  unfold statement
  refine follows_ahead ?_
  cases word : c.ahead.kind.startsStatement with
  | true =>
    rcases Kind.startsStatement_cases word with
      kind | kind | kind | ⟨binding, kind⟩ | ⟨jump, kind⟩ <;> rw [kind]
    · exact follows_printStatement value kind fits level
    · exact follows_ifStatement value inside kind fits level
    · exact follows_whileStatement value inside kind fits level
    · rw [statementOf_declaration]
      exact follows_declaration value kind fits level
    · rw [statementOf_jump]
      exact follows_jumpStatement kind
  | false =>
    rw [statementOf_other expression body word]
    exact follows_expressionStatement value (by simpa [Kind.begins, word] using begins) fits level

/-! ## Several statements -/

/-- The kind of token that closes the statements between which the parser stands. -/
def closes (a : Account) : Kind := if a.parser.blocks = [] then .eof else .mark .closeBrace

theorem stopsAt_iff {closing : Kind} (closed : closing = closes a) {t : Token} :
    stopsAt closing t.kind = true ↔ a.parser.ResumesAt t := by
  subst closed
  unfold stopsAt Parser.ResumesAt closes
  split_ifs with outermost <;> simp [outermost, or_assoc]

/-- The search for a place to go on is the same. -/
theorem outcome_synchronize {closing : Kind} (closed : closing = closes a) :
    outcomeBehind ((a.along c).recover c.taken c.ahead) c =
      outcome (a.into .ready) (synchronize closing c) := by
  fun_induction synchronize closing c with
  | case1 c semicolon =>
    rw [recover_eq_ready semicolon]
    exact outcomeBehind_eq (b := (a.along c).into .ready) (by simp [semicolon]) rfl
  | case2 c _ stops =>
    have resumes : (a.along c).parser.ResumesAt c.ahead := (stopsAt_iff closed).mp stops
    refine congrArg (outcomeBehind · c) ?_
    rw [recover_eq_between resumes, feedToken_ready rfl]
    exact (between_into (a := a.along c) .ready).symm
  | case3 c other goesOn ih =>
    have resumes : ¬ (a.along c).parser.ResumesAt c.ahead :=
      fun h => goesOn ((stopsAt_iff closed).mpr h)
    have step : outcomeBehind ((a.along c).into .recovering) c =
        outcome (a.into .recovering) c.advance :=
      outcomeBehind_eq (b := (a.along c).into .recovering) (ne_eof_of_not_stopsAt goesOn) rfl
    rw [recover_eq_recovering other resumes, step, ← ih, outcome, feedToken_recovering rfl]
    exact congrArg (outcomeBehind · _) (recover_into (a := a.along c.advance) .recovering)

/-- The account in a statement that began at the place `first`. -/
def inStatement (a : Account) (first : Nat) : Account := { a with opened := first :: a.opened }

/-- The account puts down a failure as the cursor does. -/
theorem perform_fail (a : Account) (first : Nat) (fault : SyntaxFault) (c : Cursor) :
    ((inStatement a first).along c).perform c.taken c.ahead (.fail fault) =
      (a.along (c.fails first ⟨.syntactic fault, c.ahead.pos⟩)).into .recovering := by
  obtain ⟨_, _, _, _, pending, _, _, _, _, _⟩ := c
  cases pending <;> rfl

/-- A failure is put down, and reading goes on behind it. -/
theorem outcomeOfFault_eq {closing : Kind} (closed : closing = closes a) (first : Nat)
    (fault : SyntaxFault) :
    outcomeOfFault (inStatement a first) fault c =
      outcome (a.into .ready)
        (synchronize closing (c.fails first ⟨.syntactic fault, c.ahead.pos⟩)) := by
  rw [← outcome_synchronize closed, outcomeOfFault, fail_eq, perform_fail, recover_into]
  obtain ⟨errors, reports, same⟩ := fails_eq c first ⟨.syntactic fault, c.ahead.pos⟩
  rw [same]
  rfl

/-- The account between two statements, behind those that were `read`, the last one first. -/
def ready (a : Account) (read : List Stmt) : Account := (a.withBody read).into .ready

section Open

variable {read : List Stmt} {closing : Kind} (closed : closing = closes a)
  (open_ : ¬ (c.ahead.kind = closing ∨ c.ahead.kind = .eof))
include closed open_

theorem feedToken_open :
    ((ready a read).along c).feedToken c.taken c.ahead =
      ((ready a read).along c).begin c.taken c.ahead := by
  rw [feedToken_ready rfl]
  refine between_eq_begin (fun end_ => open_ (.inr end_)) fun brace => ?_
  by_contra inside
  refine open_ (.inl (brace.trans ?_))
  exact closed.trans (if_neg inside) |>.symm

/-- A statement begins, and its place is put down. -/
theorem outcome_ready (begins : c.ahead.kind.begins = true) :
    outcome (ready a read) c = beginning (inStatement (ready a read) c.taken) c.begin := by
  refine congrArg (outcomeBehind · c) ?_
  rw [feedToken_open closed open_, begin_eq begins]
  rfl

/-- A token that begins no statement is left out, and the search goes on behind it. -/
theorem outcome_refused (outside : c.ahead.kind.begins = false) :
    outcome (ready a read) c =
      outcome (ready a read) (resume closing c.taken
        (c.begin.atLevel c.depth |>.fails c.taken
          ⟨.syntactic (operandFault c.ahead), c.ahead.pos⟩)) := by
  let c₁ : Cursor := (c.begin.atLevel c.depth).fails c.taken
    ⟨.syntactic (operandFault c.ahead), c.ahead.pos⟩
  have step : ((ready a read).along c).feedToken c.taken c.ahead =
      ((ready a read).along c₁).into .recovering := by
    rw [feedToken_open closed open_, begin_refused outside]
    rfl
  have left : outcome (ready a read) c = outcome ((ready a read).into .recovering) c₁.advance :=
    (congrArg (outcomeBehind · c) step).trans
      (outcomeBehind_eq (b := ((ready a read).along c₁).into .recovering) (c := c₁)
        (fun end_ => open_ (.inr end_)) rfl)
  have closed' : closing = closes (ready a read) := closed
  have searched : outcome ((ready a read).into .recovering) c₁.advance =
      outcome (ready a read) (synchronize closing c₁.advance) := by
    rw [outcome, feedToken_recovering rfl]
    exact (congrArg (outcomeBehind · _)
      (recover_into (a := (ready a read).along c₁.advance) .recovering)).trans
        (outcome_synchronize closed')
  have forced : resume closing c.taken c₁ = synchronize closing c₁.advance :=
    congrArg (synchronize closing) (if_pos rfl)
  rw [left, searched, ← forced]

/-- One pass of the loop over statements is a statement of the parser, or a failure from which it
recovers. -/
theorem pass_follows (value : Models (n + 1) expression) (inside : ReadsBody n body)
    (fits : Fits (n + 1) c) (level : a.parser.blocks.length = c.depth) {s : Option Stmt} {c' : Cursor}
    (run : pass expression body closing c = some (s, c')) :
    outcome (ready a read) c = outcome (ready a (s.toList ++ read)) c' := by
  have fits : Fits (n + 1) c.begin := ⟨fits.left_lt, fits.depth_le⟩
  unfold pass at run
  cases begins : c.begin.ahead.kind.begins with
  | true =>
    obtain ⟨out, c₁, first, -, -, took⟩ := takes_statement value.toReads inside.returns fits begins
    have took : c₁.taken ≠ c.taken := Nat.ne_of_gt took
    have followed := follows_statement (a := inStatement (ready a read) c.taken) value inside begins
      fits level out c₁ first
    rw [outcome_ready closed open_ begins]
    rw [first] at run
    cases out with
    | ok s =>
      cases run
      exact followed
    | error r =>
      cases run
      obtain ⟨fault, rfl, before⟩ := followed
      have closed' : closing = closes (ready a read) := closed
      obtain ⟨errors, reports, same⟩ := fails_eq c₁ c.taken ⟨.syntactic fault, c₁.ahead.pos⟩
      have kept : (c₁.fails c.taken ⟨.syntactic fault, c₁.ahead.pos⟩).taken = c₁.taken := by
        rw [same]
      rw [before, outcomeOfFault_eq closed', resume, if_neg (kept ▸ took)]
      rfl
  | false =>
    rw [statement_refuses value.toReads begins] at run
    cases run
    exact outcome_refused closed open_ begins

end Open

/-- The loop over statements reads a block, if what it reads is what the parser reads. -/
theorem readsBody_of_follows {m : Nat} (value : Reads m expression) (le : n ≤ m)
    (follows : ∀ (a : Account) c read c', closes a = .mark .closeBrace → Fits n c →
      a.parser.blocks.length = c.depth →
      statements expression n (.mark .closeBrace) [] c = some (read, c') →
      outcome (ready a []) c = outcome (ready a read.reverse) c') :
    ReadsBody n (ExceptT.lift (statements expression n (.mark .closeBrace) [])) where
  returns _ fits := returns_body value le fits
  reads a head c out c' fits level run := by
    rw [lift_apply, Option.map_eq_some_iff] at run
    obtain ⟨⟨read, c₁⟩, run, same⟩ := run
    cases same
    obtain ⟨_, _, run', -, -, ended⟩ := statements_returns _ value le [] fits
    cases run.symm.trans run'
    exact ⟨read, rfl, ended, follows (a.enter head) c read c₁ rfl fits level run⟩

/-- The loop over statements reads what the parser reads up to a token that closes the statements. -/
theorem statements_follow {m : Nat} (value : Models m expression) (le : n ≤ m) {read : List Stmt}
    {closing : Kind} (closed : closing = closes a) (fits : Fits n c)
    (level : a.parser.blocks.length = c.depth) {statements' : List Stmt} {c' : Cursor}
    (run : statements expression n closing read c = some (statements', c')) :
    outcome (ready a read) c = outcome (ready a statements'.reverse) c' := by
  induction n generalizing a closing read c statements' c' with
  | zero => cases run
  | succ n ih =>
    rw [statements] at run
    dsimp only at run
    split at run
    · cases run
      rw [List.reverse_reverse]
    · next open_ =>
      have value' : Models (n + 1) expression := value.mono le
      have le : n ≤ m := Nat.le_of_succ_le le
      have inside := readsBody_of_follows value.toReads le
        fun a c read c' closed fits level run => ih le closed.symm fits level run
      obtain ⟨⟨s, c₁⟩, first, run⟩ := Option.bind_eq_some_iff.mp run
      obtain ⟨_, _, first', go, same, took⟩ :=
        pass_returns closing value'.toReads inside.returns (fun end_ => open_ (.inr end_)) fits
      cases first.symm.trans first'
      rw [pass_follows closed open_ value' inside fits level first]
      exact ih le closed (fits.behind (go.of_begin took) took) (level.trans same.symm) run

/-- The statements of a block are read as the parser reads them. -/
theorem readsBody_statements {m : Nat} (value : Models m expression) (le : n ≤ m) :
    ReadsBody n (ExceptT.lift (statements expression n (.mark .closeBrace) [])) :=
  readsBody_of_follows value.toReads le
    fun _ _ _ _ closed fits level run => statements_follow value le closed.symm fits level run

/-- A statement that fails does so with a syntactic fault at the token that it leaves ahead. -/
theorem fault_of_statement (value : Models (n + 1) expression) (inside : ReadsBody n body)
    (fits : Fits (n + 1) c) {r : Report} {c' : Cursor}
    (run : statement expression body c = some (.error r, c')) :
    ∃ fault, r = ⟨.syntactic fault, c'.ahead.pos⟩ := by
  cases begins : c.ahead.kind.begins with
  | true =>
    -- any account does that has as many open blocks as the cursor has levels
    let block : OpenBlock := ⟨.whileBlock (.literal .bool "true" .unknown) .unknown, []⟩
    let a : Account :=
      { Account.start with parser := { Parser.start with blocks := List.replicate c.depth block } }
    have level : a.parser.blocks.length = c.depth := List.length_replicate
    obtain ⟨fault, same, -⟩ := follows_statement value inside begins fits level _ c' run
    exact ⟨fault, same⟩
  | false =>
    rw [statement_refuses value.toReads begins] at run
    cases run
    exact ⟨_, rfl⟩

end Statements

end ImpSyntax.Descent
