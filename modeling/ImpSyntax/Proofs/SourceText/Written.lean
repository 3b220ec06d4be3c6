import ImpSyntax.Proofs.Lexical.Words
import ImpSyntax.Proofs.SourceText.Linear
import ImpSyntax.Proofs.SourceText.WellFormed

/-!
# What canonical text is read as

The canonical text of a well-formed tree is scanned into the words of the tree. These derive the tree
without its positions, and the demand of that derivation is the demand of the tree: the parentheses in
the text are exactly those that the levels of the grammar ask for.

Main results:

* `Expr.readable_of_wellFormed` — the text of an expression.
* `Stmt.readable_of_wellFormed`, `Stmt.readableList_of_wellFormed` — the lines of statements.
* `Program.words_source`, `Program.derives_words` — the words of a program's text.
-/

namespace ImpSyntax

open Precedence Grammar Reading

/-! ## Text and its words -/

/-- What can stand directly behind any token without changing it. -/
def isSeparator (c : Char) : Bool := c == ' ' || c == ';' || c == ')' || c == '\n'

theorem Kind.goesOn_separator (k : Kind) {c : Char} (h : isSeparator c = true) :
    k.goesOn c = false := by
  simp only [isSeparator, Bool.or_eq_true, beq_iff_eq] at h
  rcases h with ((rfl | rfl) | rfl) | rfl <;>
    cases k with
    | mark m => cases m <;> rfl
    | _ => rfl

/-- `Written text ts`: in front of a separator, or of nothing, the text is read as the tokens. -/
structure Written (text : List Char) (ts : List Token) : Prop where
  unplaced : ∀ t ∈ ts, t.pos = .unknown
  scanned : ∀ rest : List Char, (∀ c ∈ rest.head?, isSeparator c = true) →
    stream (text ++ rest) = ts.map .token ++ stream rest

namespace Written

variable {text text' : List Char} {ts ts' : List Token}

theorem of_spells {k : Kind} (h : k.Spells text) :
    Written text [⟨k, String.ofList text, .unknown⟩] where
  unplaced t ht := by cases List.mem_singleton.mp ht; rfl
  scanned rest sep := by
    rw [stream_append h fun c hc => k.goesOn_separator (sep c hc)]
    rfl

theorem keyword (w : Keyword) : Written w.spelling.toList [w.token] := by
  have spelled : (Kind.keyword w).Spells w.spelling.toList := rfl
  have written := of_spells spelled
  rw [String.ofList_toList] at written
  exact written

theorem mark (m : Mark) : Written m.chars [m.token] :=
  of_spells (rfl : (Kind.mark m).Spells m.chars)

theorem name {n : String} (h : IsIdentifier n) : Written n.toList [nameWord n] := by
  have written := of_spells h
  rw [String.ofList_toList] at written
  exact written

/-- Two texts with a space between them. -/
theorem spaced (h : Written text ts) (h' : Written text' ts') :
    Written (text ++ ' ' :: text') (ts ++ ts') where
  unplaced t ht := (List.mem_append.mp ht).elim (h.unplaced t) (h'.unplaced t)
  scanned rest sep := by
    have first := h.scanned (' ' :: (text' ++ rest)) fun c hc => by cases hc; rfl
    rw [List.append_assoc, List.cons_append, first, stream_cons_of_blank rfl, h'.scanned rest sep,
      List.map_append, List.append_assoc]

/-- A text and a mark directly behind it. -/
theorem followed {m : Mark} {c : Char} (h : Written text ts) (one : m.chars = [c])
    (sep : isSeparator c = true) : Written (text ++ [c]) (ts ++ [m.token]) where
  unplaced t ht := (List.mem_append.mp ht).elim (h.unplaced t) ((mark m).unplaced t)
  scanned rest sep' := by
    have first := h.scanned (c :: rest) fun d hd => by cases hd; exact sep
    have second := (mark m).scanned rest sep'
    rw [one, List.singleton_append] at second
    rw [List.append_assoc, List.singleton_append, first, second, List.map_append,
      List.append_assoc]

/-- A mark and a text directly behind it that does not go on with the mark. -/
theorem preceded {m : Mark} (h : Written text ts) (some_ : text ≠ [])
    (apart : Stops m.goesOn text) : Written (m.chars ++ text) (m.token :: ts) where
  unplaced t ht := (List.mem_cons.mp ht).elim (fun same => same ▸ rfl) (h.unplaced t)
  scanned rest sep := by
    have behind : Stops m.goesOn (text ++ rest) := by
      obtain ⟨c, cs, rfl⟩ := List.exists_cons_of_ne_nil some_
      exact apart
    have spelled : (Kind.mark m).Spells m.chars := rfl
    rw [List.append_assoc, stream_append spelled behind, h.scanned rest sep]
    rfl

theorem startOf (h : Written text ts) : Grammar.startOf ts = .unknown := by
  cases ts with
  | nil => rfl
  | cons t ts => exact h.unplaced t List.mem_cons_self

end Written

/-! ## Expressions -/

/-- An operator in front of its operand ends where anything but an equals sign follows. -/
theorem Mark.goesOn_sign {m : Mark} (sign : (Kind.mark m).isSign = true) {c : Char} (other : c ≠ '=') :
    m.goesOn c = false := by
  cases m with
  | bang => exact beq_false_of_ne other
  | minus | plus => rfl
  | _ => cases sign

namespace Expr

/-- The expression without its positions. -/
def erase (e : Expr) : Expr := e.relocate fun _ => .unknown

/-- The level of the outermost operator. -/
def level : Expr → Nat
  | binary op .. => (binaryLevel op).1
  | unary .. | literal .. | location .. => unaryLevel

theorem le_level_of_not_looser {e : Expr} {bound : Nat} (h : e.isLooserThan bound = false)
    (le : bound ≤ unaryLevel) : bound ≤ e.level := by
  cases e with
  | binary op l r pos => simpa [isLooserThan, level] using h
  | _ => exact le

/-- The text of the expression is read as its words, and these derive it. -/
structure Readable (e : Expr) : Prop where
  written : Written e.source.toList e.words
  phrase : Phrase e.level e.words e.erase e.spine e.demand
  loosest_le : loosest ≤ e.level
  begins : ∃ c cs, e.source.toList = c :: cs ∧ c ≠ '='

/-- An operand is written bare or in parentheses, such that it has at least the level asked for. -/
theorem Readable.operand {e : Expr} (h : e.Readable) {bound : Nat} (le : bound ≤ unaryLevel) :
    Written (enclosed (e.isLooserThan bound) e.source).toList
        (enclosedWords (e.isLooserThan bound) e.words) ∧
      (∃ c cs, (enclosed (e.isLooserThan bound) e.source).toList = c :: cs ∧ c ≠ '=') ∧
      Phrase bound (enclosedWords (e.isLooserThan bound) e.words) e.erase
        (if e.isLooserThan bound then 0 else e.spine)
        (enclosedDemand (e.isLooserThan bound) e.demand) := by
  cases looser : e.isLooserThan bound with
  | false =>
    exact ⟨h.written, h.begins, h.phrase.mono (le_level_of_not_looser looser le)⟩
  | true =>
    have text : (enclosed true e.source).toList = '(' :: (e.source.toList ++ [')']) := by
      simp [enclosed]
    have inner : Written (e.source.toList ++ [')']) (e.words ++ [Mark.closeParen.token]) :=
      h.written.followed rfl rfl
    have whole : Written ('(' :: (e.source.toList ++ [')'])) (enclosedWords true e.words) :=
      inner.preceded (m := .openParen) (by simp) fun _ _ => rfl
    have phrase := Phrase.group (o := Mark.openParen.token) rfl (h.phrase.mono h.loosest_le)
      (c := Mark.closeParen.token) rfl
    refine ⟨text ▸ whole, ⟨'(', _, text, by decide⟩, phrase.mono le⟩

/-- A leaf of a tree is one word. -/
theorem readable_leaf {k : Kind} {value : String} {e : Expr} (spelled : k.Spells value.toList)
    (source : e.source = value) (word : e.words = [⟨k, value, .unknown⟩])
    (phrase : Phrase unaryLevel [⟨k, value, .unknown⟩] e.erase 0 0)
    (leaf : e.level = unaryLevel ∧ e.spine = 0 ∧ e.demand = 0) (notMark : ∀ m, k ≠ .mark m) :
    e.Readable := by
  obtain ⟨level, spine, demand⟩ := leaf
  have written := Written.of_spells spelled
  rw [String.ofList_toList, ← word] at written
  refine ⟨source ▸ written, ?_, ?_, source ▸ spelled.begins notMark⟩
  · rw [level, spine, demand, word]
    exact phrase
  · rw [level]
    decide

theorem readable_literal {kind : LiteralKind} {value : String} {pos : Position}
    (h : kind.Spells value) : (literal kind value pos).Readable := by
  have leaf {k : Kind} (is : literalKind? k = some kind) (spelled : k.Spells value.toList)
      (notMark : ∀ m, k ≠ .mark m) : (literal kind value pos).Readable := by
    have word : (literal kind value pos).words = [⟨k, value, .unknown⟩] := by
      rw [words, LiteralKind.wordKind_eq is spelled]
    exact readable_leaf spelled rfl word (.literal is) ⟨rfl, rfl, rfl⟩ notMark
  cases kind with
  | int => exact leaf (k := .int) rfl h (by simp)
  | float => exact leaf (k := .float) rfl h (by simp)
  | char => exact leaf (k := .char) rfl h (by simp)
  | bool =>
    rcases h with rfl | rfl
    · exact leaf (k := .keyword .trueWord) rfl rfl (by simp)
    · exact leaf (k := .keyword .falseWord) rfl rfl (by simp)

theorem readable_of_wellFormed {e : Expr} (h : e.WellFormed) : e.Readable := by
  induction e with
  | location name pos =>
    exact readable_leaf (k := .ident) h rfl rfl (.name rfl) ⟨rfl, rfl, rfl⟩ (by simp)
  | literal kind value pos => exact readable_literal h
  | unary op e pos ih =>
    obtain ⟨sign, operand⟩ := h
    obtain ⟨m, isSign, rfl⟩ := mem_signSpellings_iff.mp sign
    obtain ⟨written, ⟨c, cs, begins, notEquals⟩, phrase⟩ :=
      (ih operand).operand (Nat.le_refl unaryLevel)
    have word : (unary m.spelling e pos).words =
        m.token :: enclosedWords (e.isLooserThan unaryLevel) e.words := by
      rw [words, operatorWord_sign isSign]
    have apart : Stops m.goesOn (enclosed (e.isLooserThan unaryLevel) e.source).toList := by
      rw [begins]
      intro d hd
      cases hd
      exact Mark.goesOn_sign isSign notEquals
    have text : (unary m.spelling e pos).source.toList =
        m.chars ++ (enclosed (e.isLooserThan unaryLevel) e.source).toList := by
      simp [source, Mark.spelling]
    have signed : Phrase unaryLevel (unary m.spelling e pos).words (unary m.spelling e pos).erase 0
        (unary m.spelling e pos).demand := word ▸ .sign isSign phrase
    refine ⟨?_, signed, (by decide : loosest ≤ unaryLevel), ?_⟩
    · rw [text, word]
      exact written.preceded (by simp [begins]) apart
    · rw [text]
      cases m with
      | bang | minus | plus => exact ⟨_, _, rfl, by decide⟩
      | _ => cases isSign
  | binary op l r pos ihl ihr =>
    obtain ⟨operator, left, right⟩ := h
    obtain ⟨m, level, found, rfl⟩ := mem_operatorSpellings_iff.mp operator
    have same := binaryLevel_spelling found
    have op : (Kind.mark m).binaryLevel? = some (level, .left) := by
      rw [binaryLevel?_mark, found]
      rfl
    have bounds := Kind.binaryLevel?_bounds op
    obtain ⟨writtenl, beginsl, phrasel⟩ := (ihl left).operand (Nat.le_of_lt bounds.2)
    obtain ⟨writtenr, -, phraser⟩ := (ihr right).operand (Nat.succ_le_of_lt bounds.2)
    have phrase := Phrase.link (t := m.token) phrasel op phraser
    rw [writtenl.startOf] at phrase
    have written := (writtenl.spaced (Written.mark m)).spaced writtenr
    have text : (binary m.spelling l r pos).source.toList =
        (enclosed (l.isLooserThan level) l.source).toList ++ ' ' :: m.chars ++
          ' ' :: (enclosed (r.isLooserThan (level + 1)) r.source).toList := by
      rw [source, same]
      simp [leftBound, rightBound, Mark.spelling]
    have word : (binary m.spelling l r pos).words =
        enclosedWords (l.isLooserThan level) l.words ++
          m.token :: enclosedWords (r.isLooserThan (level + 1)) r.words := by
      rw [words, same, operatorWord_level found]
      rfl
    have spine : (binary m.spelling l r pos).spine =
        (if l.isLooserThan level then 0 else l.spine) + 1 := by
      rw [Expr.spine, same]
      rfl
    have demand : (binary m.spelling l r pos).demand =
        max (enclosedDemand (l.isLooserThan level) l.demand)
          ((if l.isLooserThan level then 0 else l.spine) + 1 +
            enclosedDemand (r.isLooserThan (level + 1)) r.demand) := by
      rw [Expr.demand, spine, same]
      rfl
    have outermost : (binary m.spelling l r pos).level = level := by rw [Expr.level, same]
    refine ⟨?_, ?_, outermost ▸ bounds.1, ?_⟩
    · rw [List.append_assoc _ [m.token]] at written
      rw [text, word]
      exact written
    · rw [spine, demand, outermost, word]
      exact phrase
    · obtain ⟨c, cs, begins, notEquals⟩ := beginsl
      exact ⟨c, _, by rw [text, begins]; rfl, notEquals⟩

end Expr

/-! ## Lines -/

/-- The text that the lines make up. -/
def textOf (lines : List String) : List Char := (String.join (lines.map (· ++ "\n"))).toList

theorem textOf_cons (line : String) (lines : List String) :
    textOf (line :: lines) = line.toList ++ '\n' :: textOf lines := by
  simp [textOf, String.join_cons]

theorem textOf_append (lines others : List String) :
    textOf (lines ++ others) = textOf lines ++ textOf others := by
  induction lines with
  | nil => simp [textOf]
  | cons line lines ih => simp [textOf_cons, ih]

/-- `Scans lines ts`: whatever follows, the lines are read as the tokens. -/
def Scans (lines : List String) (ts : List Token) : Prop :=
  ∀ rest, stream (textOf lines ++ rest) = ts.map .token ++ stream rest

theorem Scans.nil : Scans [] [] := fun _ => by simp [textOf]

theorem Scans.append {lines others : List String} {ts us : List Token} (h : Scans lines ts)
    (h' : Scans others us) : Scans (lines ++ others) (ts ++ us) := by
  intro rest
  rw [textOf_append, List.append_assoc, h, h', List.map_append, List.append_assoc]

theorem stream_tabs (indent : Nat) (rest : List Char) :
    stream (List.replicate indent '\t' ++ rest) = stream rest := by
  induction indent with
  | zero => rfl
  | succ n ih => rw [List.replicate_succ, List.cons_append, stream_cons_of_blank rfl, ih]

theorem Written.line {text : String} {ts : List Token} (h : Written text.toList ts)
    (indent : Nat) : Scans [Stmt.indented indent text] ts := by
  intro rest
  have ended := h.scanned ('\n' :: rest) fun c hc => by cases hc; rfl
  have line : textOf [Stmt.indented indent text] ++ rest =
      List.replicate indent '\t' ++ (text.toList ++ '\n' :: rest) := by
    simp [Stmt.indented, textOf]
  rw [line, stream_tabs, ended, stream_cons_newline]

/-! ## Statements -/

namespace Stmt

/-- The statement without its positions. -/
def erase (s : Stmt) : Stmt := s.relocate fun _ => .unknown

/-- The statements without their positions. -/
def eraseList (body : List Stmt) : List Stmt := relocateList (fun _ => .unknown) body

/-- The lines of the statement are read as its words, and these derive it. -/
structure Readable (s : Stmt) : Prop where
  scans : ∀ indent, Scans (s.lines indent) s.words
  derives : Derives (.statement s.erase) s.words s.demand

/-- The same of several statements. -/
structure ReadableList (body : List Stmt) : Prop where
  scans : ∀ indent, Scans (linesList indent body) (wordsList body)
  derives : Derives (.statements (eraseList body)) (wordsList body) (demandList body)

theorem written_type {type : Option TypeName} (h : ∀ t ∈ type, IsIdentifier t.name)
    {text : List Char} {ts : List Token} (written : Written text ts) :
    Written (text ++ ((type.map fun t => " " ++ t.name).getD "").toList) (ts ++ typeWords type) := by
  cases type with
  | none => simpa [typeWords] using written
  | some t => simpa [typeWords] using written.spaced (.name (h t rfl))

theorem typePart_words (type : Option TypeName) :
    TypePart (typeWords type) (type.map (·.relocate fun _ => .unknown)) := by
  cases type with
  | none => exact .absent
  | some t => exact .present (t := nameWord t.name) rfl

theorem written_init {init : Option Expr} (h : ∀ e ∈ init, e.WellFormed) {text : List Char}
    {ts : List Token} (written : Written text ts) :
    Written (text ++ ((init.map fun e => " = " ++ e.source).getD "").toList)
      (ts ++ initWords init) := by
  cases init with
  | none => simpa [initWords] using written
  | some e =>
    have read := Expr.readable_of_wellFormed (h e rfl)
    simpa [initWords, Mark.chars] using (written.spaced (.mark .equals)).spaced read.written

theorem initPart_words {init : Option Expr} (h : ∀ e ∈ init, e.WellFormed) :
    InitPart (initWords init) (init.map Expr.erase) ((init.map Expr.demand).getD 0) := by
  cases init with
  | none => exact .absent
  | some e =>
    have read := Expr.readable_of_wellFormed (h e rfl)
    exact .present rfl (read.phrase.mono read.loosest_le)

/-- The line in front of a block: a reserved word, the condition and the brace. -/
theorem written_head (w : Keyword) {c : Expr} (read : c.Readable) :
    Written (w.spelling ++ " " ++ c.source ++ " \x7b").toList
      (w.token :: (c.words ++ [Mark.openBrace.token])) := by
  have parts := ((Written.keyword w).spaced read.written).spaced (.mark .openBrace)
  simpa [Mark.chars] using parts

/-- The words of a block, with its braces. -/
theorem derives_block {body : List Stmt} {ts : List Token} {demand : Nat}
    (h : Derives (.statements body) ts demand) : Derives (.block body) (blockWords ts) (demand + 1) :=
  .block rfl h rfl

/-- The line behind a block. -/
theorem written_close : Written "\x7d".toList [Mark.closeBrace.token] := .mark .closeBrace

/-- A declaration is written on one line. -/
theorem readable_declare {binding : Binding} {name : String} {type : Option TypeName}
    {init : Option Expr} {pos : Position} (h : (declare binding name type init pos).WellFormed) :
    (declare binding name type init pos).Readable := by
  obtain ⟨hn, htype, hinit, given⟩ := h
  have written : Written (declaration binding name type init).toList
      (declare binding name type init pos).words := by
    have front := (written_type htype (.keyword binding.word)).spaced (.name hn)
    have parts := (written_init hinit front).followed (m := .semicolon) rfl rfl
    simpa [declaration, words] using parts
  have given' : Declarable binding (type.map (·.relocate fun _ => .unknown))
      (init.map Expr.erase) := by
    cases binding <;> simpa [Declarable] using given
  have derived := @Derives.declare binding.word.token (nameWord name) Mark.semicolon.token binding
    _ _ _ _ _ rfl (typePart_words type) rfl (initPart_words hinit) given' rfl
  exact ⟨fun indent => written.line indent, derived⟩

mutual

theorem readable_of_wellFormed : (s : Stmt) → s.WellFormed → s.Readable
  | print e pos, h => by
    have read := Expr.readable_of_wellFormed h
    have written : Written ("print " ++ e.source ++ ";").toList (print e pos).words := by
      have parts := (Written.keyword .printWord).spaced
        (read.written.followed (m := .semicolon) rfl rfl)
      simpa [words, Keyword.spelling] using parts
    have derived := @Derives.print Keyword.printWord.token Mark.semicolon.token _ _ _ _ rfl
      (read.phrase.mono read.loosest_le) rfl
    exact ⟨fun indent => written.line indent, derived⟩
  | assign name namePos e pos, h => by
    have read := Expr.readable_of_wellFormed h.2
    have written : Written (name ++ " = " ++ e.source ++ ";").toList
        (assign name namePos e pos).words := by
      have parts := ((Written.name h.1).spaced (.mark .equals)).spaced
        (read.written.followed (m := .semicolon) rfl rfl)
      simpa [words, Mark.chars] using parts
    have derived := @Derives.assign (nameWord name) Mark.equals.token Mark.semicolon.token _ _ _ _
      rfl rfl (read.phrase.mono read.loosest_le) rfl
    exact ⟨fun indent => written.line indent, derived⟩
  | declare binding name type init pos, h => readable_declare h
  | ifElse c thenBody none pos, h => by
    have read := Expr.readable_of_wellFormed h.1
    have readThen := readableList_of_wellFormed thenBody h.2.1
    have head := written_head .ifWord read
    have derived := @Derives.ifElse Keyword.ifWord.token _ _ _ _ _ _ _ _ _ _ rfl
      (read.phrase.mono read.loosest_le) (derives_block readThen.derives) .absent
    refine ⟨fun indent => ?_, derived⟩
    have scans := ((head.line indent).append (readThen.scans (indent + 1))).append
      (written_close.line indent)
    simpa [lines, words, wordsElse, blockWords, Keyword.spelling] using scans
  | ifElse c thenBody (some elseBody) pos, h => by
    have read := Expr.readable_of_wellFormed h.1
    have readThen := readableList_of_wellFormed thenBody h.2.1
    have readElse := readableList_of_wellFormed elseBody h.2.2
    have head := written_head .ifWord read
    have between : Written "\x7d else \x7b".toList
        [Mark.closeBrace.token, Keyword.elseWord.token, Mark.openBrace.token] :=
      ((Written.mark .closeBrace).spaced (.keyword .elseWord)).spaced (.mark .openBrace)
    have other := @Derives.otherwise Keyword.elseWord.token _ _ _ rfl
      (derives_block readElse.derives)
    have derived := @Derives.ifElse Keyword.ifWord.token _ _ _ _ _ _ _ _ _ _ rfl
      (read.phrase.mono read.loosest_le) (derives_block readThen.derives) other
    refine ⟨fun indent => ?_, derived⟩
    have scans := (((head.line indent).append (readThen.scans (indent + 1))).append
      ((between.line indent).append (readElse.scans (indent + 1)))).append
        (written_close.line indent)
    simpa [lines, words, wordsElse, blockWords, Keyword.spelling] using scans
  | whileLoop c body pos, h => by
    have read := Expr.readable_of_wellFormed h.1
    have readBody := readableList_of_wellFormed body h.2
    have head := written_head .whileWord read
    have derived := @Derives.whileLoop Keyword.whileWord.token _ _ _ _ _ _ _ rfl
      (read.phrase.mono read.loosest_le) (derives_block readBody.derives)
    refine ⟨fun indent => ?_, derived⟩
    have scans := ((head.line indent).append (readBody.scans (indent + 1))).append
      (written_close.line indent)
    simpa [lines, words, blockWords, Keyword.spelling] using scans
  | jump j pos, h => by
    have written : Written (j.word.spelling ++ ";").toList (jump j pos).words := by
      have parts := (Written.keyword j.word).followed (m := .semicolon) rfl rfl
      simpa [words] using parts
    have derived := @Derives.jump j.word.token Mark.semicolon.token j rfl rfl
    exact ⟨fun indent => written.line indent, derived⟩
  | expr e pos, h => by
    have read := Expr.readable_of_wellFormed h
    have written : Written (e.source ++ ";").toList (expr e pos).words := by
      have parts := read.written.followed (m := .semicolon) rfl rfl
      simpa [words] using parts
    have derived := @Derives.expr Mark.semicolon.token _ _ _ _
      (read.phrase.mono read.loosest_le) rfl
    rw [read.written.startOf] at derived
    exact ⟨fun indent => written.line indent, derived⟩

theorem readableList_of_wellFormed : (body : List Stmt) → WellFormedList body → ReadableList body
  | [], _ => ⟨fun _ => .nil, .nil⟩
  | s :: rest, h => by
    have read := readable_of_wellFormed s h.1
    have readRest := readableList_of_wellFormed rest h.2
    exact ⟨fun indent => (read.scans indent).append (readRest.scans indent),
      read.derives.cons readRest.derives⟩

end

end Stmt

/-! ## Programs -/

theorem stream_source (p : Program) :
    stream p.source.toList = stream (textOf (Stmt.linesList 0 p.body)) := by
  unfold Program.source
  split
  · next empty =>
    rw [empty]
    exact stream_cons_newline []
  · rfl

/-- The text of a well-formed program is read without a fault, as the words of the program. -/
theorem Program.words_source {p : Program} (h : p.WellFormed) :
    FaultFree p.source ∧ ImpSyntax.words p.source = p.words := by
  have read := (Stmt.readableList_of_wellFormed p.body h).scans 0 []
  rw [List.append_nil, stream_nil, ← stream_source p] at read
  have known : stream p.source.toList = (p.words ++ [Token.eof .unknown]).map .token := by
    rw [read, List.map_append]
    rfl
  exact words_of_text known

/-- The words of a well-formed program derive it. -/
theorem Program.derives_words {p : Program} (h : p.WellFormed) :
    Derives (.statements p.erase.body) p.words p.demand :=
  (Stmt.readableList_of_wellFormed p.body h).derives

end ImpSyntax
