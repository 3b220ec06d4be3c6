import ImpSyntax.Parser.Program
import ImpSyntax.Tree.SourceText

/-!
# What one token does to the parser

The cases in which a step of the parser is decided, each with the state it leads to, and what every
step keeps: reports are only ever added, and a state without reports has met no failure.

Main results:

* `Parser.feedToken_ready` to `Parser.feedToken_elseRead` — one step in each mode.
* `Parser.between_eq_begin`, `Parser.recover_eq_recovering` — the cases that remain when the named ones
  are out.
* `Parser.adds_feedToken`, `Parser.adds_feed` — what a step adds to the reports.
* `Parser.reports_foldl_feed` — reports are never taken back.
-/

namespace ImpSyntax

theorem Kind.startsStatement_cases {k : Kind} (h : k.startsStatement = true) :
    k = .keyword .printWord ∨ k = .keyword .ifWord ∨ k = .keyword .whileWord ∨
      (∃ b : Binding, k = .keyword b.word) ∨ ∃ j : Jump, k = .keyword j.word := by
  cases k with
  | keyword w =>
    cases w with
    | printWord => exact .inl rfl
    | ifWord => exact .inr (.inl rfl)
    | whileWord => exact .inr (.inr (.inl rfl))
    | varWord => exact .inr (.inr (.inr (.inl ⟨.var, rfl⟩)))
    | letWord => exact .inr (.inr (.inr (.inl ⟨.const, rfl⟩)))
    | breakWord => exact .inr (.inr (.inr (.inr ⟨.leave, rfl⟩)))
    | continueWord => exact .inr (.inr (.inr (.inr ⟨.again, rfl⟩)))
    | _ => cases h
  | _ => cases h

namespace Parser

open Precedence

/-! ## One step, mode by mode -/

section Modes

variable {p : Parser} {t : Token}

/-- The state in which the statements of a block with the given head are read. -/
def enter (p : Parser) (head : BlockHead) : Parser :=
  { p with blocks := ⟨head, p.body⟩ :: p.blocks, body := [], mode := .ready }

theorem feedToken_ready (h : p.mode = .ready) : p.feedToken t = p.between t := by
  cases p
  cases h
  rfl

theorem feedToken_recovering (h : p.mode = .recovering) : p.feedToken t = p.recover t := by
  cases p
  cases h
  rfl

theorem feedToken_expr {goal : Goal} {r : Reading} (h : p.mode = .expr goal r) :
    p.feedToken t = match r.feed t with
      | .more r' => p.into (.expr goal r')
      | .done e => p.complete goal e t
      | .fault fault => p.fail fault t := by
  cases p
  cases h
  rfl

theorem feedToken_closing {s : Stmt} (h : p.mode = .closing s) :
    p.feedToken t = p.finishStmt s t := by
  cases p
  cases h
  rfl

theorem feedToken_declaring {binding : Binding} {pos : Position}
    (h : p.mode = .declaring binding pos) :
    p.feedToken t =
      if t.kind = .ident then p.into (.named binding ⟨t.lexeme, t.pos⟩ pos)
      else p.fail (.insteadOf .identifier t) t := by
  cases p
  cases h
  rfl

theorem feedToken_named {binding : Binding} {first : TypeName} {pos : Position}
    (h : p.mode = .named binding first pos) :
    p.feedToken t =
      if t.kind = .ident then p.into (.typed binding first t.lexeme pos)
      else if t.kind = .mark .equals then p.expect (.init binding first.name none pos)
      else p.fail (.insteadOf .equals t) t := by
  cases p
  cases h
  rfl

theorem feedToken_typed_var {type : TypeName} {name : String} {pos : Position}
    (h : p.mode = .typed .var type name pos) :
    p.feedToken t =
      if t.kind = .mark .equals then p.expect (.init .var name (some type) pos)
      else p.finishStmt (.declare .var name (some type) none pos) t := by
  cases p
  cases h
  rfl

theorem feedToken_typed_const {type : TypeName} {name : String} {pos : Position}
    (h : p.mode = .typed .const type name pos) :
    p.feedToken t =
      if t.kind = .mark .equals then p.expect (.init .const name (some type) pos)
      else p.fail (.insteadOf .equals t) t := by
  cases p
  cases h
  rfl

theorem feedToken_opening {head : BlockHead} (h : p.mode = .opening head) :
    p.feedToken t =
      if p.blocks.length < maxNesting then (p.enter head).between t else p.fail .tooDeep t := by
  cases p
  cases h
  rfl

theorem feedToken_thenRead {c : Expr} {thenBody : List Stmt} {pos : Position}
    (h : p.mode = .thenRead c thenBody pos) :
    p.feedToken t =
      if t.kind = .keyword .elseWord then p.into (.elseRead c thenBody pos)
      else (p.push (.ifElse c thenBody none pos)).between t := by
  cases p
  cases h
  rfl

theorem feedToken_elseRead {c : Expr} {thenBody : List Stmt} {pos : Position}
    (h : p.mode = .elseRead c thenBody pos) :
    p.feedToken t = p.openBlock (.elseBlock c thenBody pos) t := by
  cases p
  cases h
  rfl

end Modes

/-! ## Between two statements -/

theorem between_eq_finish {p : Parser} {t : Token} (h : t.kind = .eof) :
    p.between t = p.finish t.pos := by
  unfold between
  rw [h]

theorem between_eq_close {p : Parser} {t : Token} {block : OpenBlock} {outer : List OpenBlock}
    (h : t.kind = .mark .closeBrace) (hb : p.blocks = block :: outer) :
    p.between t = p.close block outer := by
  unfold between
  rw [h, hb]

theorem between_eq_begin {p : Parser} {t : Token} (h : t.kind ≠ .eof)
    (hb : t.kind = .mark .closeBrace → p.blocks = []) : p.between t = p.begin t := by
  unfold between
  split
  · next kind => exact absurd kind h
  · next kind blocks => rw [hb kind] at blocks; cases blocks
  · rfl

/-- The three cases of `between`, in the order in which they are tried. -/
theorem between_cases (p : Parser) (t : Token) :
    (t.kind = .eof ∧ p.between t = p.finish t.pos) ∨
    (∃ block outer, t.kind = .mark .closeBrace ∧ p.blocks = block :: outer ∧
      p.between t = p.close block outer) ∨
    (t.kind ≠ .eof ∧ (t.kind = .mark .closeBrace → p.blocks = []) ∧ p.between t = p.begin t) := by
  by_cases h : t.kind = .eof
  · exact .inl ⟨h, between_eq_finish h⟩
  by_cases hc : t.kind = .mark .closeBrace
  · cases hb : p.blocks with
    | nil => exact .inr (.inr ⟨h, fun _ => rfl, between_eq_begin h fun _ => hb⟩)
    | cons block outer => exact .inr (.inl ⟨block, outer, hc, rfl, between_eq_close hc hb⟩)
  · exact .inr (.inr ⟨h, fun hc' => absurd hc' hc, between_eq_begin h fun hc' => absurd hc' hc⟩)

/-! ## The beginnings of statements -/

/-- The state without a lexical fault held against it. -/
def fresh (p : Parser) : Parser := { p with pending := false }

theorem fresh_eq {p : Parser} (h : p.pending = false) : p.fresh = p := by
  cases p
  cases h
  rfl

section Beginnings

variable {p : Parser} {t : Token}

theorem begin_print (h : t.kind = .keyword .printWord) :
    p.begin t = p.fresh.expect (.print t.pos) := by
  unfold begin
  rw [h]
  rfl

theorem begin_if (h : t.kind = .keyword .ifWord) :
    p.begin t = p.fresh.expect (.ifCondition t.pos) := by
  unfold begin
  rw [h]
  rfl

theorem begin_while (h : t.kind = .keyword .whileWord) :
    p.begin t = p.fresh.expect (.whileCondition t.pos) := by
  unfold begin
  rw [h]
  rfl

theorem begin_declaration {binding : Binding} (h : t.kind = .keyword binding.word) :
    p.begin t = p.fresh.into (.declaring binding t.pos) := by
  unfold begin
  cases binding <;> rw [h] <;> rfl

theorem begin_jump {j : Jump} (h : t.kind = .keyword j.word) :
    p.begin t = p.fresh.into (.closing (.jump j t.pos)) := by
  unfold begin
  cases j <;> rw [h] <;> rfl

theorem begin_expression (h : t.kind.startsStatement = false) :
    p.begin t = match Reading.begin p.blocks.length t with
      | .ok r => p.fresh.into (.expr (.value (t.kind == .ident) t.pos) r)
      | .error fault =>
        { p.fresh with mode := .recovering, reports := ⟨.syntactic fault, t.pos⟩ :: p.reports } := by
  unfold begin
  split
  case h_8 => rfl
  all_goals next kind => rw [kind] at h; cases h

end Beginnings

/-! ## Behind a failure -/

/-- Where reading goes on behind a failure although nothing is left out: at the end of the text, at
the end of a block, at a word that begins a statement. -/
def ResumesAt (p : Parser) (t : Token) : Prop :=
  t.kind = .eof ∨ (t.kind = .mark .closeBrace ∧ p.blocks ≠ []) ∨ t.kind.startsStatement = true

theorem recover_eq_ready {p : Parser} {t : Token} (h : t.kind = .mark .semicolon) :
    p.recover t = p.into .ready := by
  unfold recover
  rw [h]

theorem recover_eq_between {p : Parser} {t : Token} (h : p.ResumesAt t) :
    p.recover t = p.between t := by
  rcases h with h | ⟨h, hb⟩ | h
  · unfold recover between
    rw [h]
  · obtain ⟨block, outer, hb⟩ := List.exists_cons_of_ne_nil hb
    unfold recover between
    rw [h, hb]
  · have notEof : t.kind ≠ .eof := by rintro h'; rw [h'] at h; cases h
    have notClose : t.kind ≠ .mark .closeBrace := by rintro h'; rw [h'] at h; cases h
    rw [between_eq_begin notEof fun h' => absurd h' notClose]
    unfold recover
    split
    · next h' => rw [h'] at h; cases h
    · next h' => exact absurd h' notEof
    · next h' _ => exact absurd h' notClose
    · rw [if_pos h]

theorem recover_eq_recovering {p : Parser} {t : Token} (hs : t.kind ≠ .mark .semicolon)
    (h : ¬ p.ResumesAt t) : p.recover t = p.into .recovering := by
  unfold recover
  split
  · next h' => exact absurd h' hs
  · next h' => exact absurd (.inl h') h
  · next h' hb => exact absurd (.inr (.inl ⟨h', by rw [hb]; simp⟩)) h
  · rw [if_neg fun h' => h (.inr (.inr h'))]

/-- The three cases of `recover`. -/
theorem recover_cases (p : Parser) (t : Token) :
    (t.kind = .mark .semicolon ∧ p.recover t = p.into .ready) ∨
    (p.ResumesAt t ∧ p.recover t = p.between t) ∨
    (t.kind ≠ .mark .semicolon ∧ ¬ p.ResumesAt t ∧ p.recover t = p.into .recovering) := by
  by_cases hs : t.kind = .mark .semicolon
  · exact .inl ⟨hs, recover_eq_ready hs⟩
  by_cases h : p.ResumesAt t
  · exact .inr (.inl ⟨h, recover_eq_between h⟩)
  · exact .inr (.inr ⟨hs, h, recover_eq_recovering hs h⟩)

/-! ## What a step adds to the reports -/

/-- The step from `p` to `q` at the token adds reports of syntactic faults at the token, and one at
most, unless the text ends there. -/
def Adds (t : Token) (p q : Parser) : Prop :=
  ∃ new : List Report, q.reports = new ++ p.reports ∧
    (∀ r ∈ new, r.isLexical = false ∧ r.pos = t.pos) ∧ (t.kind ≠ .eof → new.length ≤ 1)

section Adds

variable {p q : Parser} {t : Token}

theorem Adds.suffix (h : Adds t p q) : p.reports <:+ q.reports := by
  obtain ⟨new, added, -⟩ := h
  exact ⟨new, added.symm⟩

theorem adds_of_eq (h : q.reports = p.reports) : Adds t p q := ⟨[], h, by simp, by simp⟩

theorem adds_one {fault : SyntaxFault} (h : q.reports = ⟨.syntactic fault, t.pos⟩ :: p.reports) :
    Adds t p q := by
  refine ⟨[⟨.syntactic fault, t.pos⟩], h, fun r mem => ?_, fun _ => Nat.le_refl _⟩
  cases List.mem_singleton.mp mem
  exact ⟨rfl, rfl⟩

end Adds

theorem reports_close (p : Parser) (block : OpenBlock) (outer : List OpenBlock) :
    (p.close block outer).reports = p.reports := by
  obtain ⟨head, before⟩ := block
  cases head <;> rfl

theorem adds_finish (p : Parser) {t : Token} (eof : t.kind = .eof) : Adds t p (p.finish t.pos) := by
  unfold Adds finish
  dsimp only
  split
  · exact adds_of_eq rfl
  · refine ⟨_, rfl, fun r mem => ?_, fun other => absurd eof other⟩
    obtain ⟨block, -, rfl⟩ := List.mem_map.mp mem
    exact ⟨rfl, rfl⟩

/-- A statement that begins with its own word does not fail at that word. -/
theorem reports_begin (p : Parser) {t : Token} (h : t.kind.startsStatement = true) :
    (p.begin t).reports = p.reports := by
  rcases Kind.startsStatement_cases h with h | h | h | ⟨binding, h⟩ | ⟨j, h⟩
  · rw [begin_print h]; rfl
  · rw [begin_if h]; rfl
  · rw [begin_while h]; rfl
  · rw [begin_declaration h]; rfl
  · rw [begin_jump h]; rfl

theorem adds_begin (p : Parser) (t : Token) : Adds t p (p.begin t) := by
  by_cases h : t.kind.startsStatement = true
  · exact adds_of_eq (reports_begin p h)
  · rw [begin_expression (by simpa using h)]
    split
    · exact adds_of_eq rfl
    · exact adds_one rfl

theorem adds_between (p : Parser) (t : Token) : Adds t p (p.between t) := by
  rcases between_cases p t with ⟨eof, h⟩ | ⟨block, outer, _, _, h⟩ | ⟨_, _, h⟩ <;> rw [h]
  · exact adds_finish p eof
  · exact adds_of_eq (reports_close p block outer)
  · exact adds_begin p t

/-- Where the search for a place to go on ends before the end of the text, nothing is reported. -/
theorem reports_recover (p : Parser) {t : Token} (goesOn : t.kind ≠ .eof) :
    (p.recover t).reports = p.reports := by
  rcases recover_cases p t with ⟨_, h⟩ | ⟨resumes, h⟩ | ⟨_, _, h⟩ <;> rw [h]
  · rfl
  · rcases resumes with eof | ⟨close, inside⟩ | starts
    · exact absurd eof goesOn
    · obtain ⟨block, outer, blocks⟩ := List.exists_cons_of_ne_nil inside
      rw [between_eq_close close blocks, reports_close]
    · have notClose : t.kind ≠ .mark .closeBrace := by rintro h'; rw [h'] at starts; cases starts
      rw [between_eq_begin goesOn fun close => absurd close notClose, reports_begin p starts]
  · rfl

theorem recover_eof {p : Parser} {t : Token} (eof : t.kind = .eof) : p.recover t = p.finish t.pos := by
  rw [recover_eq_between (.inl eof), between_eq_finish eof]

theorem adds_recover (p : Parser) (t : Token) : Adds t p (p.recover t) := by
  by_cases eof : t.kind = .eof
  · rw [recover_eof eof]
    exact adds_finish p eof
  · exact adds_of_eq (reports_recover p eof)

/-- The reports behind a failure: the fault is one of them, unless it is held back. -/
theorem reports_fail (p : Parser) (fault : SyntaxFault) (t : Token) :
    (if p.pending then p.reports else ⟨.syntactic fault, t.pos⟩ :: p.reports) <:+
      (p.fail fault t).reports :=
  (adds_recover { p with reports := _ } t).suffix

theorem adds_fail (p : Parser) (fault : SyntaxFault) (t : Token) : Adds t p (p.fail fault t) := by
  unfold fail
  dsimp only
  split
  · exact adds_recover p t
  · by_cases eof : t.kind = .eof
    · obtain ⟨new, added, all, -⟩ :=
        adds_recover { p with reports := ⟨.syntactic fault, t.pos⟩ :: p.reports } t
      refine ⟨new ++ [⟨.syntactic fault, t.pos⟩], by simp [added], fun r mem => ?_,
        fun other => absurd eof other⟩
      rcases List.mem_append.mp mem with mem | mem
      · exact all r mem
      · cases List.mem_singleton.mp mem
        exact ⟨rfl, rfl⟩
    · exact adds_one (reports_recover _ eof)

theorem adds_finishStmt (p : Parser) (s : Stmt) (t : Token) : Adds t p (p.finishStmt s t) := by
  unfold finishStmt
  split
  · exact adds_of_eq rfl
  · exact adds_fail p _ t

theorem adds_openBlock (p : Parser) (head : BlockHead) (t : Token) :
    Adds t p (p.openBlock head t) := by
  unfold openBlock
  split
  · exact adds_of_eq rfl
  · exact adds_fail p _ t

theorem adds_complete (p : Parser) (goal : Goal) (e : Expr) (t : Token) :
    Adds t p (p.complete goal e t) := by
  unfold complete
  split
  · exact adds_finishStmt p _ t
  · exact adds_finishStmt p _ t
  · exact adds_finishStmt p _ t
  · exact adds_openBlock p _ t
  · exact adds_openBlock p _ t
  · split
    · split
      · exact adds_of_eq rfl
      · exact adds_fail p _ t
    · exact adds_finishStmt p _ t

theorem adds_feedToken (p : Parser) (t : Token) : Adds t p (p.feedToken t) := by
  cases h : p.mode with
  | ready => rw [feedToken_ready h]; exact adds_between p t
  | recovering => rw [feedToken_recovering h]; exact adds_recover p t
  | expr goal r =>
    rw [feedToken_expr h]
    split
    · exact adds_of_eq rfl
    · exact adds_complete p _ _ t
    · exact adds_fail p _ t
  | closing s => rw [feedToken_closing h]; exact adds_finishStmt p s t
  | declaring binding pos =>
    rw [feedToken_declaring h]
    split
    · exact adds_of_eq rfl
    · exact adds_fail p _ t
  | named binding first pos =>
    rw [feedToken_named h]
    split
    · exact adds_of_eq rfl
    split
    · exact adds_of_eq rfl
    · exact adds_fail p _ t
  | typed binding type name pos =>
    cases binding with
    | var =>
      rw [feedToken_typed_var h]
      split
      · exact adds_of_eq rfl
      · exact adds_finishStmt p _ t
    | const =>
      rw [feedToken_typed_const h]
      split
      · exact adds_of_eq rfl
      · exact adds_fail p _ t
  | opening head =>
    rw [feedToken_opening h]
    split
    · exact adds_between (p.enter head) t
    · exact adds_fail p _ t
  | thenRead c thenBody pos =>
    rw [feedToken_thenRead h]
    split
    · exact adds_of_eq rfl
    · exact adds_between (p.push _) t
  | elseRead c thenBody pos => rw [feedToken_elseRead h]; exact adds_openBlock p _ t

/-- Tokens are items. -/
theorem foldl_feed_tokens (p : Parser) (ts : List Token) :
    (ts.map Item.token).foldl feed p = ts.foldl feedToken p := List.foldl_map

/-! ## Reports are only added -/

theorem reports_feedToken (p : Parser) (t : Token) : p.reports <:+ (p.feedToken t).reports :=
  (adds_feedToken p t).suffix

theorem reports_foldl_feedToken (p : Parser) (ts : List Token) :
    p.reports <:+ (ts.foldl feedToken p).reports := by
  induction ts generalizing p with
  | nil => exact List.suffix_refl _
  | cons t ts ih => exact (reports_feedToken p t).trans (ih (p.feedToken t))

/-- Where nothing is reported in the end, nothing was reported before. -/
theorem quiet_of_foldl {p : Parser} {ts : List Token}
    (quiet : (ts.foldl feedToken p).reports = []) : p.reports = [] := by
  have kept := reports_foldl_feedToken p ts
  rwa [quiet, List.suffix_nil] at kept

/-- An item is reported at its own position, and once at most, unless the text ends there. -/
theorem adds_feed (p : Parser) (item : Item) :
    ∃ new : List Report, (p.feed item).reports = new ++ p.reports ∧
      (∀ r ∈ new, r.pos = item.pos) ∧
      ((∀ t, item = .token t → t.kind ≠ .eof) → new.length ≤ 1) := by
  cases item with
  | token t =>
    obtain ⟨new, added, all, once⟩ := adds_feedToken p t
    exact ⟨new, added, fun r mem => (all r mem).2, fun goesOn => once (goesOn t rfl)⟩
  | fault reason pos =>
    refine ⟨[⟨.lexical reason, pos⟩], rfl, fun r mem => ?_, fun _ => Nat.le_refl _⟩
    rw [List.mem_singleton.mp mem]
    rfl

theorem reports_feed (p : Parser) (item : Item) : p.reports <:+ (p.feed item).reports := by
  obtain ⟨new, added, -⟩ := adds_feed p item
  exact ⟨new, added.symm⟩

theorem reports_foldl_feed (p : Parser) (items : List Item) :
    p.reports <:+ (items.foldl feed p).reports := by
  induction items generalizing p with
  | nil => exact List.suffix_refl _
  | cons item items ih => exact (reports_feed p item).trans (ih (p.feed item))

end Parser

end ImpSyntax
