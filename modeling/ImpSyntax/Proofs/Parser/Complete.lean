import ImpSyntax.Proofs.Grammar.Sentence
import ImpSyntax.Proofs.Parser.Steps
import ImpSyntax.Proofs.Reading.Complete

/-!
# Every sentence is parsed

The tokens of a statement, fed to a parser that stands between two statements, add that statement to
what has been read, provided that the open blocks and the demand of the statement together keep to
the limit. If they do not, the first report made on the way is that of a nesting too deep.

Main results:

* `Parser.accepts_of_derives` — what is derived within the limit is read.
* `Parser.overflows_of_derives` — what is derived beyond the limit is refused for its depth.
* `Parser.run_of_derives`, `Parser.run_tooDeep_of_derives` — the same of whole programs.
-/

namespace ImpSyntax.Parser

open Precedence Grammar Reading

/-! ## Two ways of going on -/

/-- The two states do the same with every token but an `else`: that one only goes on with a
conditional. -/
def Settles (q r : Parser) : Prop :=
  ∀ t : Token, t.kind ≠ .keyword .elseWord → q.feedToken t = r.feedToken t

theorem Settles.refl (q : Parser) : Settles q q := fun _ _ => rfl

theorem Settles.trans {q r s : Parser} (h : Settles q r) (h' : Settles r s) : Settles q s :=
  fun t ht => (h t ht).trans (h' t ht)

theorem Settles.foldl_eq {q r : Parser} (h : Settles q r) {ts : List Token} (some_ : ts ≠ [])
    (first : ∀ t ∈ ts.head?, t.kind ≠ .keyword .elseWord) :
    ts.foldl feedToken q = ts.foldl feedToken r := by
  obtain ⟨t, rest, rfl⟩ := List.exists_cons_of_ne_nil some_
  rw [List.foldl_cons, List.foldl_cons, h t (first t rfl)]

theorem Settles.foldl {q r : Parser} (h : Settles q r) {ts : List Token}
    (first : ∀ t ∈ ts.head?, t.kind ≠ .keyword .elseWord) :
    Settles (ts.foldl feedToken q) (ts.foldl feedToken r) := by
  cases ts with
  | nil => exact h
  | cons t ts =>
    rw [h.foldl_eq (List.cons_ne_nil t ts) first]
    exact .refl _

/-- Behind `p` a nesting too deep was reported before anything else. -/
def Refuses (p q : Parser) : Prop :=
  ∃ pos, ⟨.syntactic .tooDeep, pos⟩ :: p.reports <:+ q.reports

theorem Refuses.foldl {p q : Parser} (h : Refuses p q) (ts : List Token) :
    Refuses p (ts.foldl feedToken q) := by
  obtain ⟨pos, h⟩ := h
  exact ⟨pos, h.trans (reports_foldl_feedToken q ts)⟩

theorem refuses_fail {p q : Parser} (same : q.reports = p.reports) (open_ : q.pending = false)
    (t : Token) : Refuses p (q.fail .tooDeep t) := by
  have reported := reports_fail q .tooDeep t
  rw [if_neg (by rw [open_]; simp), same] at reported
  exact ⟨t.pos, reported⟩

/-! ## Room for the next token -/

/-- The next token can be read within the limit: neither an operand nor a statement would stand one
level too far in. -/
def HasRoom (p : Parser) : Prop :=
  match p.mode with
  | .expr _ r => r.HasRoom
  | .opening _ => p.blocks.length < maxNesting
  | _ => True

theorem hasRoom_expr {p : Parser} {goal : Goal} {r : Reading} (mode : p.mode = .expr goal r) :
    p.HasRoom ↔ r.HasRoom := by
  rw [HasRoom, mode]

theorem hasRoom_opening {p : Parser} {head : BlockHead} (mode : p.mode = .opening head) :
    p.HasRoom ↔ p.blocks.length < maxNesting := by
  rw [HasRoom, mode]

/-- Without room every token is refused for its depth. -/
theorem refuses_of_not_hasRoom {p : Parser} (open_ : p.pending = false) (full : ¬ p.HasRoom)
    (t : Token) : Refuses p (p.feedToken t) := by
  cases mode : p.mode with
  | expr goal r =>
    rw [hasRoom_expr mode, Reading.HasRoom, Classical.not_imp] at full
    have step : p.feedToken t = p.fail .tooDeep t := by
      rw [feedToken_expr mode, Reading.feed, full.1]
      dsimp only
      rw [if_neg full.2]
    rw [step]
    exact refuses_fail rfl open_ t
  | opening head =>
    rw [hasRoom_opening mode] at full
    rw [feedToken_opening mode, if_neg full]
    exact refuses_fail rfl open_ t
  | _ => exact absurd (by rw [HasRoom, mode]; trivial) full

/-! ## Expressions -/

section Expressions

variable {p : Parser} {goal : Goal} {r r' : Reading} {ts : List Token}

theorem foldl_feedToken_expr (h : r.feedAll ts = .more r') :
    ts.foldl feedToken (p.into (.expr goal r)) = p.into (.expr goal r') := by
  induction ts generalizing r with
  | nil => cases h; rfl
  | cons t ts ih =>
    rw [feedAll] at h
    rw [List.foldl_cons, feedToken_expr rfl]
    split at h
    · next r₁ step => rw [step]; exact ih h
    · next other => exact absurd h (other r')

theorem refuses_expr (h : r.feedAll ts = .fault .tooDeep) (open_ : p.pending = false) :
    Refuses p (ts.foldl feedToken (p.into (.expr goal r))) := by
  induction ts generalizing r with
  | nil => cases h
  | cons t ts ih =>
    rw [feedAll] at h
    rw [List.foldl_cons, feedToken_expr rfl]
    split at h
    · next r₁ step => rw [step]; exact ih h
    · rw [h]
      exact (refuses_fail rfl open_ t).foldl ts

/-- A token that is no operator ends an expression that stands in no frame. -/
theorem feedToken_ended (goal : Goal) {e : Expr} {depth : Nat} {begun : Position}
    (h : r.StandsFor loosest [] depth e begun) {t : Token} (ht : t.kind.binaryLevel? = none) :
    (p.into (.expr goal r)).feedToken t = (p.into (.expr goal r)).complete goal e t := by
  have floor : rightFloor? t.kind loosest = none := by rw [rightFloor?, ht]
  rw [feedToken_expr rfl, h t (ends_of_not_operator ht _), settle, floor]

/-- Behind an expression within the limit comes what its goal asks for. -/
theorem feedToken_phrase (goal : Goal) {e : Expr} {links demand : Nat}
    (h : Phrase loosest ts e links demand) (fits : p.blocks.length + demand ≤ maxNesting)
    {t : Token} (ht : t.kind.binaryLevel? = none) :
    ∃ q, ts.foldl feedToken (p.expect goal) = p.into q ∧
      (p.into q).feedToken t = (p.into q).complete goal e t := by
  obtain ⟨r, read, stands⟩ := feedAll_phrase h [] (Nat.le_refl _) fits
  exact ⟨.expr goal r, foldl_feedToken_expr read, feedToken_ended _ stands ht⟩

theorem refuses_phrase (goal : Goal) {e : Expr} {links demand : Nat}
    (h : Phrase loosest ts e links demand) (open_ : p.pending = false) (within : p.blocks.length ≤ maxNesting)
    (deep : maxNesting < p.blocks.length + demand) :
    Refuses p (ts.foldl feedToken (p.expect goal)) :=
  refuses_expr (feedAll_phrase_tooDeep h [] (Nat.le_refl _) within deep) open_

end Expressions

/-! ## Statements that begin with an expression -/

section Values

variable {p : Parser} {t : Token} {ts : List Token}

theorem feedToken_begin (ready : p.mode = .ready) (begins : t.kind.begins = true) :
    p.feedToken t = p.begin t := by
  obtain ⟨notEof, notClose, -⟩ := Kind.ne_of_begins begins
  rw [feedToken_ready ready]
  exact between_eq_begin notEof fun h => absurd h notClose

theorem begin_operand (open_ : p.pending = false) (starts : t.kind.startsOperand = true) {r : Reading}
    (h : (Reading.start p.blocks.length).feed t = .more r) :
    p.begin t = p.into (.expr (.value (t.kind == .ident) t.pos) r) := by
  rw [begin_expression (Kind.not_startsStatement_of_startsOperand starts), fresh_eq open_]
  have taken : Reading.taken (Reading.begin p.blocks.length t) = .more r := h
  cases begun : Reading.begin p.blocks.length t with
  | ok r' => rw [begun] at taken; cases taken; rfl
  | error reason => rw [begun] at taken; cases taken

/-- Behind an expression that begins a statement comes what the statement asks for. -/
theorem feedToken_value {e : Expr} {links demand : Nat}
    (h : Phrase loosest (t :: ts) e links demand) (ready : p.mode = .ready)
    (open_ : p.pending = false) (fits : p.blocks.length + demand ≤ maxNesting) {u : Token}
    (hu : u.kind.binaryLevel? = none) :
    ∃ q, (t :: ts).foldl feedToken p = p.into q ∧
      (p.into q).feedToken u =
        (p.into q).complete (.value (t.kind == .ident) t.pos) e u := by
  obtain ⟨r, read, stands⟩ := feedAll_phrase h [] (Nat.le_refl _) fits
  refine ⟨.expr (.value (t.kind == .ident) t.pos) r, ?_, feedToken_ended _ stands hu⟩
  rw [feedAll] at read
  rw [List.foldl_cons, feedToken_begin ready (Kind.begins_of_startsOperand h.first)]
  split at read
  · next r₁ step =>
    rw [begin_operand open_ h.first step]
    exact foldl_feedToken_expr read
  · next other => exact absurd read (other r)

theorem refuses_value {e : Expr} {links demand : Nat}
    (h : Phrase loosest (t :: ts) e links demand) (ready : p.mode = .ready)
    (open_ : p.pending = false) (within : p.blocks.length ≤ maxNesting)
    (deep : maxNesting < p.blocks.length + demand) :
    Refuses p ((t :: ts).foldl feedToken p) := by
  have read := feedAll_phrase_tooDeep h [] (Nat.le_refl _) within deep
  rw [feedAll] at read
  rw [List.foldl_cons, feedToken_begin ready (Kind.begins_of_startsOperand h.first)]
  split at read
  · next r₁ step =>
    rw [begin_operand open_ h.first step]
    exact refuses_expr read open_
  · have taken : Reading.taken (Reading.begin p.blocks.length t) = .fault .tooDeep := read
    rw [begin_expression (Kind.not_startsStatement_of_startsOperand h.first), fresh_eq open_]
    cases begun : Reading.begin p.blocks.length t with
    | ok r => rw [begun] at taken; cases taken
    | error reason =>
      rw [begun] at taken
      cases taken
      exact Refuses.foldl ⟨t.pos, List.suffix_refl _⟩ ts

end Values

/-! ## Statements and blocks -/

/-- The state behind more statements of the innermost block. -/
def pushAll (p : Parser) (body : List Stmt) : Parser :=
  { p with body := body.reverse ++ p.body, mode := .ready }

/-- The state behind the end of a block with the given head and statements. -/
def closed (p : Parser) (head : BlockHead) (body : List Stmt) : Parser :=
  match head with
  | .thenBlock c pos => p.into (.thenRead c body pos)
  | .elseBlock c thenBody pos => p.push (.ifElse c thenBody (some body) pos)
  | .whileBlock c pos => p.push (.whileLoop c body pos)

theorem close_enter (p : Parser) (head : BlockHead) (body : List Stmt) :
    ((p.enter head).pushAll body).close ⟨head, p.body⟩ p.blocks = p.closed head body := by
  cases head <;> simp [close, enter, pushAll, closed, into, push]

/-- What reading the construct comes to, from any state in which it can begin and that leaves it
room. -/
def Accepts (ts : List Token) (demand : Nat) : Construct → Prop
  | .statement s => ∀ p : Parser, p.mode = .ready → p.pending = false →
      p.blocks.length + demand ≤ maxNesting → Settles (ts.foldl feedToken p) (p.push s)
  | .statements body => ∀ p : Parser, p.mode = .ready → p.pending = false →
      p.blocks.length + demand ≤ maxNesting → Settles (ts.foldl feedToken p) (p.pushAll body)
  | .block body => ∀ (p : Parser) (head : BlockHead), p.pending = false →
      p.blocks.length + demand ≤ maxNesting → ∃ o rest, ts = o :: rest ∧ o.kind = .mark .openBrace ∧
        rest.foldl feedToken (p.into (.opening head)) = p.closed head body
  | .otherwise body => ∀ (p : Parser) (c : Expr) (thenBody : List Stmt) (pos : Position),
      p.pending = false → p.blocks.length + demand ≤ maxNesting →
        Settles (ts.foldl feedToken (p.into (.thenRead c thenBody pos)))
          (p.push (.ifElse c thenBody body pos))

section Ends

variable {p : Parser} {t : Token}

theorem finishStmt_semicolon (h : t.kind = .mark .semicolon) (s : Stmt) :
    p.finishStmt s t = p.push s := if_pos h

theorem openBlock_brace (h : t.kind = .mark .openBrace) (head : BlockHead) :
    p.openBlock head t = p.into (.opening head) := if_pos h

end Ends

/-- An expression and the semicolon behind it complete the statement that the goal makes of them. -/
theorem foldl_phrase_semicolon {p : Parser} {goal : Goal} {ts : List Token} {e : Expr}
    {links demand : Nat} {semi : Token} {s : Stmt} (h : Phrase loosest ts e links demand)
    (fits : p.blocks.length + demand ≤ maxNesting) (hs : semi.kind = .mark .semicolon)
    (made : ∀ q : Parser, q.complete goal e semi = q.finishStmt s semi) :
    (ts ++ [semi]).foldl feedToken (p.expect goal) = p.push s := by
  obtain ⟨q, read, ended⟩ := feedToken_phrase goal h fits (t := semi) (by rw [hs]; rfl)
  rw [List.foldl_append, read, List.foldl_cons, ended, made, finishStmt_semicolon hs]
  rfl

/-- An expression and the block behind it come to the end of that block. -/
theorem foldl_phrase_block {p : Parser} {goal : Goal} (head : BlockHead) {ts tb : List Token}
    {e : Expr} {body : List Stmt} {links demand d : Nat} (h : Phrase loosest ts e links demand)
    (block : Accepts tb d (.block body)) (open_ : p.pending = false)
    (fits : p.blocks.length + max demand d ≤ maxNesting)
    (made : ∀ (q : Parser) (o : Token), q.complete goal e o = q.openBlock head o) :
    (ts ++ tb).foldl feedToken (p.expect goal) = p.closed head body := by
  obtain ⟨o, rest, rfl, ho, read⟩ := block p head open_ (by omega)
  obtain ⟨q, phraseRead, ended⟩ :=
    feedToken_phrase goal h (p := p) (by omega) (t := o) (by rw [ho]; rfl)
  rw [List.foldl_append, phraseRead, List.foldl_cons, ended, made, openBlock_brace ho]
  exact read

/-- A name and the sign behind it make the name the target of an assignment. -/
theorem foldl_target {p : Parser} {name eq : Token} (ready : p.mode = .ready)
    (open_ : p.pending = false) (hn : name.kind = .ident) (he : eq.kind = .mark .equals) :
    [name, eq].foldl feedToken p = p.expect (.assign name.lexeme name.pos name.pos) := by
  have begun : p.feedToken name = p.into (.expr (.value true name.pos)
      ⟨[], p.blocks.length, .operator (.location name.lexeme name.pos) name.pos⟩) := by
    have starts : name.kind.startsOperand = true := by rw [hn]; rfl
    rw [feedToken_begin ready (Kind.begins_of_startsOperand starts),
      begin_operand open_ starts (feed_name hn), hn]
    rfl
  have ended := feedToken_ended (p := p) (.value true name.pos)
    (r := ⟨[], p.blocks.length, .operator (.location name.lexeme name.pos) name.pos⟩)
    (fun _ _ => rfl) (t := eq) (by rw [he]; rfl)
  rw [List.foldl_cons, List.foldl_cons, begun, ended]
  exact if_pos he

/-- The mode behind the name that is declared. -/
def behindName (binding : Binding) (type : Option TypeName) (name : Token) (pos : Position) : Mode :=
  match type with
  | none => .named binding ⟨name.lexeme, name.pos⟩ pos
  | some type => .typed binding type name.lexeme pos

theorem foldl_name {p : Parser} {binding : Binding} {tt : List Token} {type : Option TypeName}
    {name : Token} {pos : Position} (htype : TypePart tt type) (hn : name.kind = .ident) :
    (tt ++ [name]).foldl feedToken (p.into (.declaring binding pos)) =
      p.into (behindName binding type name pos) := by
  cases htype with
  | absent =>
    rw [List.nil_append, List.foldl_cons, feedToken_declaring rfl, if_pos hn]
    rfl
  | @present t ht =>
    have behindType : (p.into (.declaring binding pos)).feedToken t =
        p.into (.named binding ⟨t.lexeme, t.pos⟩ pos) := if_pos ht
    rw [List.cons_append, List.nil_append, List.foldl_cons, List.foldl_cons, behindType,
      feedToken_named rfl, if_pos hn]
    rfl

/-- The first token inside a block is read as one between two statements. -/
theorem foldl_opening {p : Parser} {head : BlockHead} {ts : List Token} (some_ : ts ≠ [])
    (room : p.blocks.length < maxNesting) :
    ts.foldl feedToken (p.into (.opening head)) = ts.foldl feedToken (p.enter head) := by
  obtain ⟨t, rest, rfl⟩ := List.exists_cons_of_ne_nil some_
  have entered : (p.into (.opening head)).feedToken t = (p.enter head).between t :=
    if_pos room
  rw [List.foldl_cons, List.foldl_cons, entered, feedToken_ready rfl]

theorem feedToken_equals {p : Parser} {binding : Binding} {type : Option TypeName}
    {name eq : Token} {pos : Position} (he : eq.kind = .mark .equals) :
    (p.into (behindName binding type name pos)).feedToken eq =
      p.expect (.init binding name.lexeme type pos) := by
  cases type with
  | none =>
    rw [feedToken_named rfl, if_neg (by rw [he]; simp), if_pos he]
    rfl
  | some type =>
    cases binding with
    | var => rw [feedToken_typed_var rfl, if_pos he]; rfl
    | const => rw [feedToken_typed_const rfl, if_pos he]; rfl

theorem foldl_init {p : Parser} {binding : Binding} {type : Option TypeName} {name semi : Token}
    {pos : Position} {ti : List Token} {init : Option Expr} {demand : Nat}
    (hinit : InitPart ti init demand) (given : Declarable binding type init)
    (fits : p.blocks.length + demand ≤ maxNesting) (hs : semi.kind = .mark .semicolon) :
    (ti ++ [semi]).foldl feedToken (p.into (behindName binding type name pos)) =
      p.push (.declare binding name.lexeme type init pos) := by
  cases hinit with
  | absent =>
    have notEquals : semi.kind ≠ .mark .equals := by rw [hs]; simp
    cases type with
    | none => cases binding <;> simp [Declarable] at given
    | some type =>
      cases binding with
      | const => simp [Declarable] at given
      | var =>
        rw [List.nil_append, List.foldl_cons, feedToken_typed_var rfl, if_neg notEquals,
          finishStmt_semicolon hs]
        rfl
  | present he phrase =>
    rw [List.cons_append, List.foldl_cons, feedToken_equals he]
    exact foldl_phrase_semicolon phrase fits hs fun _ => rfl

theorem accepts_of_derives {c : Construct} {ts : List Token} {demand : Nat}
    (h : Derives c ts demand) : Accepts ts demand c := by
  induction h with
  | @print t semi ts e links demand ht phrase hs =>
    intro p ready open_ fits
    rw [List.foldl_cons, feedToken_begin ready (by rw [ht]; rfl), begin_print ht, fresh_eq open_,
      foldl_phrase_semicolon phrase fits hs fun _ => rfl]
    exact .refl _
  | @assign name eq semi ts e links demand hn he phrase hs =>
    intro p ready open_ fits
    have target := foldl_target ready open_ hn he
    rw [List.foldl_cons, List.foldl_cons, List.foldl_nil] at target
    rw [List.foldl_cons, List.foldl_cons, target,
      foldl_phrase_semicolon phrase fits hs fun _ => rfl]
    exact .refl _
  | @declare t name semi binding tt ti type init demand ht htype hn hinit given hs =>
    intro p ready open_ fits
    have begins : t.kind.begins = true := ht ▸ binding.begins_word
    have tokens : tt ++ name :: (ti ++ [semi]) = tt ++ [name] ++ (ti ++ [semi]) := by simp
    rw [List.foldl_cons, feedToken_begin ready begins, begin_declaration ht, fresh_eq open_,
      tokens, List.foldl_append, foldl_name htype hn, foldl_init hinit given fits hs]
    exact .refl _
  | @jump t semi j ht hs =>
    intro p ready open_ fits
    have begins : t.kind.begins = true := ht ▸ j.begins_word
    rw [List.foldl_cons, feedToken_begin ready begins, begin_jump ht, fresh_eq open_,
      List.foldl_cons, feedToken_closing rfl, finishStmt_semicolon hs]
    exact .refl _
  | @expr semi ts e links demand phrase hs =>
    intro p ready open_ fits
    obtain ⟨t, rest, rfl⟩ := List.exists_cons_of_ne_nil phrase.ne_nil
    obtain ⟨q, read, ended⟩ := feedToken_value phrase ready open_ fits (u := semi) (by rw [hs]; rfl)
    have notEquals : semi.kind ≠ .mark .equals := by rw [hs]; simp
    have completed : (p.into q).complete (.value (t.kind == .ident) t.pos) e semi =
        (p.into q).finishStmt (.expr e t.pos) semi := if_neg notEquals
    rw [List.foldl_append, read, List.foldl_cons, ended, completed, finishStmt_semicolon hs]
    exact .refl _
  | @ifElse t tc tb te c thenBody elseBody links dc db de ht cond _ _ ihb ihe =>
    intro p ready open_ fits
    rw [List.foldl_cons, feedToken_begin ready (by rw [ht]; rfl), begin_if ht, fresh_eq open_,
      ← List.append_assoc, List.foldl_append,
      foldl_phrase_block (.thenBlock c t.pos) cond ihb open_ (by omega) fun _ _ => rfl]
    exact ihe p c thenBody t.pos open_ (by omega)
  | @whileLoop t tc tb c body links dc db ht cond _ ih =>
    intro p ready open_ fits
    rw [List.foldl_cons, feedToken_begin ready (by rw [ht]; rfl), begin_while ht, fresh_eq open_,
      foldl_phrase_block (.whileBlock c t.pos) cond ih open_ fits fun _ _ => rfl]
    exact .refl _
  | nil =>
    intro p ready _ _
    have nothing : p.pushAll [] = p := by
      rw [pushAll, ← ready]
      rfl
    rw [nothing]
    exact .refl _
  | @cons s rest ts us d d' hs hr ihs ihr =>
    intro p ready open_ fits
    have others : ∀ t ∈ us.head?, t.kind ≠ .keyword .elseWord := fun t ht =>
      (Kind.ne_of_begins (hr.first_statements t ht)).2.2
    have pushed : (p.push s).pushAll rest = p.pushAll (s :: rest) := by
      simp [pushAll, push]
    rw [List.foldl_append, ← pushed]
    exact (Settles.foldl (ihs p ready open_ (by omega)) others).trans
      (ihr (p.push s) rfl open_ (by show p.blocks.length + d' ≤ _; omega))
  | @block o c ts body demand ho _ hc ih =>
    intro p head open_ fits
    refine ⟨o, ts ++ [c], rfl, ho, ?_⟩
    have inside : (p.enter head).blocks.length + demand ≤ maxNesting := by
      show p.blocks.length + 1 + demand ≤ maxNesting
      omega
    have notElse : c.kind ≠ .keyword .elseWord := by rw [hc]; simp
    rw [foldl_opening (by simp) (by omega), List.foldl_append, List.foldl_cons, List.foldl_nil,
      ih (p.enter head) rfl open_ inside c notElse, feedToken_ready rfl,
      (between_eq_close hc rfl : (p.enter head |>.pushAll body).between c = _), close_enter]
  | absent =>
    intro p c thenBody pos _ _ t ht
    rw [List.foldl_nil, feedToken_thenRead rfl, if_neg ht]
    rfl
  | @otherwise t tb body demand ht _ ih =>
    intro p c thenBody pos open_ fits
    obtain ⟨o, rest, rfl, ho, read⟩ := ih p (.elseBlock c thenBody pos) open_ fits
    have behindElse : (p.into (.thenRead c thenBody pos)).feedToken t =
        p.into (.elseRead c thenBody pos) := if_pos ht
    have opened : (p.into (.elseRead c thenBody pos)).feedToken o =
        p.into (.opening (.elseBlock c thenBody pos)) := if_pos ho
    rw [List.foldl_cons, behindElse, List.foldl_cons, opened, read]
    exact .refl _

/-! ## Beyond the limit -/

/-- What reading the construct comes to, from any state in which it can begin, where blocks and
demand together go beyond the limit. -/
def Overflows (ts : List Token) (demand : Nat) : Construct → Prop
  | .statement _ | .statements _ => ∀ p : Parser, p.mode = .ready → p.pending = false →
      p.blocks.length ≤ maxNesting → maxNesting < p.blocks.length + demand →
        Refuses p (ts.foldl feedToken p)
  | .block _ => ∀ (p : Parser) (head : BlockHead), p.pending = false →
      p.blocks.length ≤ maxNesting → maxNesting < p.blocks.length + demand →
        ∃ o rest, ts = o :: rest ∧ o.kind = .mark .openBrace ∧
          Refuses p (rest.foldl feedToken (p.into (.opening head)))
  | .otherwise _ => ∀ (p : Parser) (c : Expr) (thenBody : List Stmt) (pos : Position),
      p.pending = false → p.blocks.length ≤ maxNesting →
        maxNesting < p.blocks.length + demand →
          Refuses p (ts.foldl feedToken (p.into (.thenRead c thenBody pos)))

/-- An expression is refused for its own depth, or else for that of the block behind it. -/
theorem refuses_phrase_block {p : Parser} {goal : Goal} (head : BlockHead) {ts tb : List Token}
    {e : Expr} {body : List Stmt} {links demand d : Nat} (h : Phrase loosest ts e links demand)
    (block : Overflows tb d (.block body)) (open_ : p.pending = false)
    (within : p.blocks.length ≤ maxNesting)
    (deep : maxNesting < p.blocks.length + max demand d)
    (made : ∀ (q : Parser) (o : Token), q.complete goal e o = q.openBlock head o) :
    Refuses p ((ts ++ tb).foldl feedToken (p.expect goal)) := by
  rw [List.foldl_append]
  by_cases fits : p.blocks.length + demand ≤ maxNesting
  · obtain ⟨o, rest, rfl, ho, refused⟩ := block p head open_ within (by omega)
    obtain ⟨q, phraseRead, ended⟩ :=
      feedToken_phrase goal h fits (t := o) (by rw [ho]; rfl)
    rw [phraseRead, List.foldl_cons, ended, made, openBlock_brace ho]
    exact refused
  · exact (refuses_phrase goal h open_ within (by omega)).foldl tb

theorem refuses_init {p : Parser} {binding : Binding} {type : Option TypeName} {name : Token}
    {pos : Position} {ti : List Token} {init : Option Expr} {demand : Nat}
    (hinit : InitPart ti init demand) (open_ : p.pending = false)
    (within : p.blocks.length ≤ maxNesting) (deep : maxNesting < p.blocks.length + demand) :
    Refuses p (ti.foldl feedToken (p.into (behindName binding type name pos))) := by
  cases hinit with
  | absent => omega
  | present he phrase =>
    rw [List.foldl_cons, feedToken_equals he]
    exact refuses_phrase _ phrase open_ within deep

theorem overflows_of_derives {c : Construct} {ts : List Token} {demand : Nat}
    (h : Derives c ts demand) : Overflows ts demand c := by
  induction h with
  | @print t semi ts e links demand ht phrase hs =>
    intro p ready open_ within deep
    rw [List.foldl_cons, feedToken_begin ready (by rw [ht]; rfl), begin_print ht, fresh_eq open_,
      List.foldl_append]
    exact (refuses_phrase _ phrase open_ within deep).foldl [semi]
  | @assign name eq semi ts e links demand hn he phrase hs =>
    intro p ready open_ within deep
    have target := foldl_target ready open_ hn he
    rw [List.foldl_cons, List.foldl_cons, List.foldl_nil] at target
    rw [List.foldl_cons, List.foldl_cons, target, List.foldl_append]
    exact (refuses_phrase _ phrase open_ within deep).foldl [semi]
  | @declare t name semi binding tt ti type init demand ht htype hn hinit given hs =>
    intro p ready open_ within deep
    have begins : t.kind.begins = true := ht ▸ binding.begins_word
    have tokens : tt ++ name :: (ti ++ [semi]) = tt ++ [name] ++ (ti ++ [semi]) := by simp
    rw [List.foldl_cons, feedToken_begin ready begins, begin_declaration ht, fresh_eq open_,
      tokens, List.foldl_append, foldl_name htype hn, List.foldl_append]
    exact (refuses_init hinit open_ within deep).foldl [semi]
  | jump => intro p _ _ within deep; omega
  | @expr semi ts e links demand phrase hs =>
    intro p ready open_ within deep
    obtain ⟨t, rest, rfl⟩ := List.exists_cons_of_ne_nil phrase.ne_nil
    rw [List.foldl_append]
    exact (refuses_value phrase ready open_ within deep).foldl [semi]
  | @ifElse t tc tb te c thenBody elseBody links dc db de ht cond block _ ihb ihe =>
    intro p ready open_ within deep
    rw [List.foldl_cons, feedToken_begin ready (by rw [ht]; rfl), begin_if ht, fresh_eq open_,
      ← List.append_assoc, List.foldl_append]
    by_cases fits : p.blocks.length + max dc db ≤ maxNesting
    · have read : (tc ++ tb).foldl feedToken (p.expect (.ifCondition t.pos)) =
          p.into (.thenRead c thenBody t.pos) :=
        foldl_phrase_block (.thenBlock c t.pos) cond (accepts_of_derives block) open_ fits
          fun _ _ => rfl
      rw [read]
      exact ihe p c thenBody t.pos open_ within (by omega)
    · exact (refuses_phrase_block (.thenBlock c t.pos) cond ihb open_ within (by omega)
        fun _ _ => rfl).foldl te
  | @whileLoop t tc tb c body links dc db ht cond _ ih =>
    intro p ready open_ within deep
    rw [List.foldl_cons, feedToken_begin ready (by rw [ht]; rfl), begin_while ht, fresh_eq open_]
    exact refuses_phrase_block (.whileBlock c t.pos) cond ih open_ within deep fun _ _ => rfl
  | nil => intro p _ _ within deep; omega
  | @cons s rest ts us d d' hs hr ihs ihr =>
    intro p ready open_ within deep
    rw [List.foldl_append]
    by_cases fits : p.blocks.length + d ≤ maxNesting
    · have others : ∀ t ∈ us.head?, t.kind ≠ .keyword .elseWord := fun t ht =>
        (Kind.ne_of_begins (hr.first_statements t ht)).2.2
      have more : us ≠ [] := by
        rintro rfl
        have none := hr.eq_nil_of_statements
        omega
      rw [(accepts_of_derives hs p ready open_ fits).foldl_eq more others]
      exact ihr (p.push s) rfl open_ within (by show maxNesting < p.blocks.length + d'; omega)
    · exact (ihs p ready open_ within (by omega)).foldl us
  | @block o c ts body demand ho _ hc ih =>
    intro p head open_ within deep
    refine ⟨o, ts ++ [c], rfl, ho, ?_⟩
    by_cases room : p.blocks.length < maxNesting
    · have inside : maxNesting < (p.enter head).blocks.length + demand := by
        show maxNesting < p.blocks.length + 1 + demand
        omega
      rw [foldl_opening (by simp) room, List.foldl_append]
      exact (ih (p.enter head) rfl open_ room inside).foldl [c]
    · obtain ⟨t, us, tokens⟩ := List.exists_cons_of_ne_nil (l := ts ++ [c]) (by simp)
      have refused : (p.into (.opening head)).feedToken t =
          (p.into (.opening head)).fail .tooDeep t := if_neg room
      rw [tokens, List.foldl_cons, refused]
      exact (refuses_fail rfl open_ t).foldl us
  | absent => intro p _ _ _ _ within deep; omega
  | @otherwise t tb body demand ht _ ih =>
    intro p c thenBody pos open_ within deep
    obtain ⟨o, rest, rfl, ho, refused⟩ := ih p (.elseBlock c thenBody pos) open_ within deep
    have behindElse : (p.into (.thenRead c thenBody pos)).feedToken t =
        p.into (.elseRead c thenBody pos) := if_pos ht
    have opened : (p.into (.elseRead c thenBody pos)).feedToken o =
        p.into (.opening (.elseBlock c thenBody pos)) := if_pos ho
    rw [List.foldl_cons, behindElse, List.foldl_cons, opened]
    exact refused

/-! ## Whole programs -/

section Whole

variable {body : List Stmt} {ts : List Token} {demand : Nat} {pos : Position} {eof : Token}

/-- The tokens of a program within the limit, and the end of the text, are parsed as that
program. -/
theorem run_of_derives (h : Derives (.statements body) ts demand) (fits : demand ≤ maxNesting)
    (he : eof.kind = .eof) :
    run ((ts ++ [eof]).map .token) = ⟨⟨body, startOf (ts ++ [eof])⟩, []⟩ := by
  have read : Settles (ts.foldl feedToken start) (start.pushAll body) :=
    accepts_of_derives h start rfl rfl (by show 0 + demand ≤ _; omega)
  have ended : (ts ++ [eof]).foldl feedToken start = start.pushAll body := by
    rw [List.foldl_append, List.foldl_cons, List.foldl_nil, read eof (by rw [he]; simp),
      feedToken_ready rfl, between_eq_finish he]
    rfl
  have first : Item.firstPos ((ts ++ [eof]).map .token) = startOf (ts ++ [eof]) := by
    cases ts <;> rfl
  rw [run, foldl_feed_tokens, ended, first]
  simp [pushAll, start]

/-- The first report on a program beyond the limit is that of a nesting too deep. -/
theorem run_tooDeep_of_derives (h : Derives (.statements body) ts demand)
    (deep : maxNesting < demand) (items : List Item) :
    ∃ pos, (run (ts.map .token ++ items)).reports.head? = some ⟨.syntactic .tooDeep, pos⟩ := by
  obtain ⟨pos, refused⟩ : Refuses start (ts.foldl feedToken start) :=
    overflows_of_derives h start rfl rfl (Nat.zero_le _) (by show maxNesting < 0 + demand; omega)
  have reported : [Report.mk (.syntactic .tooDeep) pos] <:+
      ((ts.map Item.token ++ items).foldl feed start).reports := by
    rw [List.foldl_append, foldl_feed_tokens]
    exact List.IsSuffix.trans refused (reports_foldl_feed _ items)
  obtain ⟨earlier, split⟩ := reported
  refine ⟨pos, ?_⟩
  show ((ts.map Item.token ++ items).foldl feed start).reports.reverse.head? = _
  rw [← split]
  simp

end Whole

end ImpSyntax.Parser
