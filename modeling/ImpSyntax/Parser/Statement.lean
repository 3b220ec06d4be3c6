import ImpSyntax.Parser.Expression
import ImpSyntax.Scanner

/-!
# Reading statements

Statements are read one item at a time. The blocks that are open are kept as a stack, the innermost
first, each with what stands in front of it; the mode says what has been read of the statement in
hand.

A statement that fails is reported, unless a lexical fault has been reported since it or a statement
inside it began, and is then left out: reading goes on behind the next semicolon, at the end of the
block, or at the next word that begins a statement.

Main results:

* `Parser.feed` — the step from item to item.
* `Parser.recover` — where reading goes on behind a failure.
-/

namespace ImpSyntax

open Precedence

/-! ## State -/

/-- What a block belongs to, with all that was read of it. -/
inductive BlockHead
  | thenBlock (condition : Expr) (pos : Position)
  | elseBlock (condition : Expr) (thenBody : List Stmt) (pos : Position)
  | whileBlock (condition : Expr) (pos : Position)
deriving DecidableEq, Repr

/-- A block that is open, and the statements in front of its statement, the last one first. -/
structure OpenBlock where
  head : BlockHead
  before : List Stmt
deriving DecidableEq, Repr

/-- What an expression is read for. The value of a statement of its own can turn out to be the
target of an assignment, if it is a name and its first token is that name. -/
inductive Goal
  | print (pos : Position)
  | assign (name : String) (namePos : Position) (pos : Position)
  | init (binding : Binding) (name : String) (type : Option TypeName) (pos : Position)
  | ifCondition (pos : Position)
  | whileCondition (pos : Position)
  | value (fromName : Bool) (pos : Position)
deriving DecidableEq, Repr

/-- What has been read of the statement in hand. -/
inductive Mode
  | ready
  | recovering
  | expr (goal : Goal) (reading : Reading)
  | closing (stmt : Stmt)
  | declaring (binding : Binding) (pos : Position)
  | named (binding : Binding) (first : TypeName) (pos : Position)
  | typed (binding : Binding) (type : TypeName) (name : String) (pos : Position)
  | opening (head : BlockHead)
  | thenRead (condition : Expr) (thenBody : List Stmt) (pos : Position)
  | elseRead (condition : Expr) (thenBody : List Stmt) (pos : Position)
deriving DecidableEq, Repr

/-- All that has been read: the open blocks, the statements of the innermost one, the statement in
hand, whether a lexical fault came up since a statement began, and the reports. Statements and
reports are kept with the last one first. -/
structure Parser where
  blocks : List OpenBlock
  body : List Stmt
  mode : Mode
  pending : Bool
  reports : List Report
deriving DecidableEq, Repr

namespace Parser

/-- The state in front of a text. -/
def start : Parser := ⟨[], [], .ready, false, []⟩

/-- The same state with another statement in hand. -/
def into (p : Parser) (mode : Mode) : Parser := { p with mode }

/-- A statement is complete. -/
def push (p : Parser) (s : Stmt) : Parser := { p with body := s :: p.body, mode := .ready }

/-- An expression is to be read at the nesting of the open blocks. -/
def expect (p : Parser) (goal : Goal) : Parser := p.into (.expr goal (.start p.blocks.length))

/-! ## The ends of blocks -/

/-- The innermost block ends. -/
def close (p : Parser) (block : OpenBlock) (outer : List OpenBlock) : Parser :=
  let behind (mode : Mode) : Parser := { p with blocks := outer, body := block.before, mode }
  let body := p.body.reverse
  match block.head with
  | .thenBlock condition pos => behind (.thenRead condition body pos)
  | .elseBlock condition thenBody pos =>
    (behind .ready).push (.ifElse condition thenBody (some body) pos)
  | .whileBlock condition pos => (behind .ready).push (.whileLoop condition body pos)

/-- The text ends at `pos`: every open block lacks its end. -/
def finish (p : Parser) (pos : Position) : Parser :=
  let lacking := p.blocks.map fun _ => Report.mk (.syntactic (.unexpectedEnd .closeBrace)) pos
  { p with
    blocks := []
    mode := .ready
    reports := if p.pending then p.reports else lacking ++ p.reports }

/-! ## The beginnings of statements -/

/-- A statement begins with `t`. If no statement can, `t` alone is left out before the search for
a place to go on. -/
def begin (p : Parser) (t : Token) : Parser :=
  let p := { p with pending := false }
  match t.kind with
  | .keyword .printWord => p.expect (.print t.pos)
  | .keyword .varWord => p.into (.declaring .var t.pos)
  | .keyword .letWord => p.into (.declaring .const t.pos)
  | .keyword .ifWord => p.expect (.ifCondition t.pos)
  | .keyword .whileWord => p.expect (.whileCondition t.pos)
  | .keyword .breakWord => p.into (.closing (.jump .leave t.pos))
  | .keyword .continueWord => p.into (.closing (.jump .again t.pos))
  | kind =>
    match Reading.begin p.blocks.length t with
    | .ok r => p.into (.expr (.value (kind == .ident) t.pos) r)
    | .error fault =>
      { p with mode := .recovering, reports := ⟨.syntactic fault, t.pos⟩ :: p.reports }

/-- Between two statements. -/
def between (p : Parser) (t : Token) : Parser :=
  match t.kind, p.blocks with
  | .eof, _ => p.finish t.pos
  | .mark .closeBrace, block :: outer => p.close block outer
  | _, _ => p.begin t

/-! ## Failures -/

/-- Behind a failure reading goes on behind a semicolon, at the end of a block, or at a word that
begins a statement. -/
def recover (p : Parser) (t : Token) : Parser :=
  match t.kind, p.blocks with
  | .mark .semicolon, _ => p.into .ready
  | .eof, _ => p.finish t.pos
  | .mark .closeBrace, block :: outer => p.close block outer
  | kind, _ => if kind.startsStatement then p.begin t else p.into .recovering

/-- The statement in hand fails at `t`. -/
def fail (p : Parser) (fault : SyntaxFault) (t : Token) : Parser :=
  let reports := if p.pending then p.reports else ⟨.syntactic fault, t.pos⟩ :: p.reports
  { p with reports }.recover t

/-! ## Inside statements -/

/-- The statement `s` lacks only its semicolon. -/
def finishStmt (p : Parser) (s : Stmt) (t : Token) : Parser :=
  if t.kind = .mark .semicolon then p.push s else p.fail (.insteadOf .semicolon t) t

/-- A block has to begin. -/
def openBlock (p : Parser) (head : BlockHead) (t : Token) : Parser :=
  if t.kind = .mark .openBrace then p.into (.opening head) else p.fail (.insteadOf .openBrace t) t

/-- The expression `e` is complete, with `t` behind it. -/
def complete (p : Parser) (goal : Goal) (e : Expr) (t : Token) : Parser :=
  match goal with
  | .print pos => p.finishStmt (.print e pos) t
  | .assign name namePos pos => p.finishStmt (.assign name namePos e pos) t
  | .init binding name type pos => p.finishStmt (.declare binding name type (some e) pos) t
  | .ifCondition pos => p.openBlock (.thenBlock e pos) t
  | .whileCondition pos => p.openBlock (.whileBlock e pos) t
  | .value fromName pos =>
    if t.kind = .mark .equals then
      match fromName, e with
      | true, .location name namePos => p.expect (.assign name namePos pos)
      | _, _ => p.fail .invalidTarget t
    else p.finishStmt (.expr e pos) t

/-- What the token `t` makes of the state. -/
def feedToken (p : Parser) (t : Token) : Parser :=
  match p.mode with
  | .ready => p.between t
  | .recovering => p.recover t
  | .expr goal reading =>
    match reading.feed t with
    | .more reading => p.into (.expr goal reading)
    | .done e => p.complete goal e t
    | .fault fault => p.fail fault t
  | .closing s => p.finishStmt s t
  | .declaring binding pos =>
    if t.kind = .ident then p.into (.named binding ⟨t.lexeme, t.pos⟩ pos)
    else p.fail (.insteadOf .identifier t) t
  | .named binding first pos =>
    if t.kind = .ident then p.into (.typed binding first t.lexeme pos)
    else if t.kind = .mark .equals then p.expect (.init binding first.name none pos)
    else p.fail (.insteadOf .equals t) t
  | .typed binding type name pos =>
    if t.kind = .mark .equals then p.expect (.init binding name (some type) pos)
    else match binding with
      | .var => p.finishStmt (.declare .var name (some type) none pos) t
      | .const => p.fail (.insteadOf .equals t) t
  | .opening head =>
    if p.blocks.length < maxNesting then
      { p with blocks := ⟨head, p.body⟩ :: p.blocks, body := [], mode := .ready }.between t
    else p.fail .tooDeep t
  | .thenRead condition thenBody pos =>
    if t.kind = .keyword .elseWord then p.into (.elseRead condition thenBody pos)
    else (p.push (.ifElse condition thenBody none pos)).between t
  | .elseRead condition thenBody pos => p.openBlock (.elseBlock condition thenBody pos) t

/-- What an item makes of the state: a lexical fault is reported and leaves the rest as it is. -/
def feed (p : Parser) : Item → Parser
  | .token t => p.feedToken t
  | .fault fault pos =>
    { p with pending := true, reports := ⟨.lexical fault, pos⟩ :: p.reports }

end Parser

end ImpSyntax
