import Mathlib.Tactic.SplitIfs
import ImpSyntax.Proofs.Grammar.Sentence
import ImpSyntax.Proofs.Parser.Complete
import ImpSyntax.Proofs.Reading.Sound

/-!
# What is parsed without a report is derived

As long as nothing is reported, the state of the parser accounts for the tokens that were fed to it:
every open block holds the derivations of its head and of the statements in it, and the mode says how
far the statement in hand has come. At the end of the text, with no block open, what is accounted for
is one derivation of all the tokens.

Main results:

* `Parser.feedToken_sound` — a step without a report keeps the account.
* `Parser.run_eq_some_iff` — a program comes out exactly when its tokens derive it within the limit.
-/

namespace ImpSyntax.Parser

open Precedence Grammar Reading

/-! ## The account of a state -/

/-- `Headed head ts demand`: the tokens `ts` are what stands in front of a block with this head. -/
inductive Headed : BlockHead → List Token → Nat → Prop
  | thenBlock {t : Token} {tc : List Token} {c : Expr} {links dc : Nat} :
      t.kind = .keyword .ifWord → Phrase loosest tc c links dc →
      Headed (.thenBlock c t.pos) (t :: tc) dc
  | elseBlock {t e : Token} {tc tb : List Token} {c : Expr} {thenBody : List Stmt}
      {links dc db : Nat} :
      t.kind = .keyword .ifWord → Phrase loosest tc c links dc → Derives (.block thenBody) tb db →
      e.kind = .keyword .elseWord →
      Headed (.elseBlock c thenBody t.pos) (t :: (tc ++ (tb ++ [e]))) (max dc db)
  | whileBlock {t : Token} {tc : List Token} {c : Expr} {links dc : Nat} :
      t.kind = .keyword .whileWord → Phrase loosest tc c links dc →
      Headed (.whileBlock c t.pos) (t :: tc) dc

/-- `Nest ts blocks body`: the tokens `ts` open the blocks and give the statements `body` of the
innermost one, the last one first. -/
inductive Nest : List Token → List OpenBlock → List Stmt → Prop
  | outermost {ts : List Token} {body : List Stmt} {demand : Nat} :
      Derives (.statements body.reverse) ts demand → demand ≤ maxNesting → Nest ts [] body
  | inner {ts th tb : List Token} {o : Token} {blocks : List OpenBlock} {head : BlockHead}
      {before body : List Stmt} {dh demand : Nat} :
      Nest ts blocks before → Headed head th dh → blocks.length + dh ≤ maxNesting →
      o.kind = .mark .openBrace → Derives (.statements body.reverse) tb demand →
      blocks.length + 1 + demand ≤ maxNesting →
      Nest (ts ++ (th ++ o :: tb)) (⟨head, before⟩ :: blocks) body

/-- `Begun base ts mode`: at nesting `base` the tokens `ts` are what the mode says of the statement
in hand. -/
inductive Begun (base : Nat) : List Token → Mode → Prop
  | ready : Begun base [] .ready
  | print {t : Token} {ts : List Token} {r : Reading} :
      t.kind = .keyword .printWord → Reads base ts r →
      Begun base (t :: ts) (.expr (.print t.pos) r)
  | assign {name eq : Token} {ts : List Token} {r : Reading} :
      name.kind = .ident → eq.kind = .mark .equals → Reads base ts r →
      Begun base (name :: eq :: ts) (.expr (.assign name.lexeme name.pos name.pos) r)
  | init {t name eq : Token} {binding : Binding} {type : Option TypeName} {tt ts : List Token}
      {r : Reading} :
      t.kind = .keyword binding.word → TypePart tt type → name.kind = .ident →
      eq.kind = .mark .equals → Reads base ts r →
      Begun base (t :: (tt ++ name :: eq :: ts)) (.expr (.init binding name.lexeme type t.pos) r)
  | ifCondition {t : Token} {ts : List Token} {r : Reading} :
      t.kind = .keyword .ifWord → Reads base ts r →
      Begun base (t :: ts) (.expr (.ifCondition t.pos) r)
  | whileCondition {t : Token} {ts : List Token} {r : Reading} :
      t.kind = .keyword .whileWord → Reads base ts r →
      Begun base (t :: ts) (.expr (.whileCondition t.pos) r)
  | value {t : Token} {ts : List Token} {r : Reading} : Reads base (t :: ts) r →
      Begun base (t :: ts) (.expr (.value (t.kind == .ident) t.pos) r)
  | closing {t : Token} {j : Jump} : t.kind = .keyword j.word →
      Begun base [t] (.closing (.jump j t.pos))
  | declaring {t : Token} {binding : Binding} : t.kind = .keyword binding.word →
      Begun base [t] (.declaring binding t.pos)
  | named {t first : Token} {binding : Binding} :
      t.kind = .keyword binding.word → first.kind = .ident →
      Begun base [t, first] (.named binding ⟨first.lexeme, first.pos⟩ t.pos)
  | typed {t first name : Token} {binding : Binding} :
      t.kind = .keyword binding.word → first.kind = .ident → name.kind = .ident →
      Begun base [t, first, name] (.typed binding ⟨first.lexeme, first.pos⟩ name.lexeme t.pos)
  | opening {ts : List Token} {o : Token} {head : BlockHead} {demand : Nat} :
      Headed head ts demand → base + demand ≤ maxNesting → o.kind = .mark .openBrace →
      Begun base (ts ++ [o]) (.opening head)
  | thenRead {t : Token} {tc tb : List Token} {c : Expr} {thenBody : List Stmt}
      {links dc db : Nat} :
      t.kind = .keyword .ifWord → Phrase loosest tc c links dc → Derives (.block thenBody) tb db →
      base + max dc db ≤ maxNesting → Begun base (t :: (tc ++ tb)) (.thenRead c thenBody t.pos)
  | elseRead {ts : List Token} {c : Expr} {thenBody : List Stmt} {pos : Position} {demand : Nat} :
      Headed (.elseBlock c thenBody pos) ts demand → base + demand ≤ maxNesting →
      Begun base ts (.elseRead c thenBody pos)

/-- The state accounts for the tokens `ts`. -/
def Accounts (ts : List Token) (p : Parser) : Prop :=
  p.pending = false ∧ ∃ us vs, ts = us ++ vs ∧ Nest us p.blocks p.body ∧
    Begun p.blocks.length vs p.mode

/-- What the state behind the tokens `ts` and `t` accounts for: all of them, or, where the text ends
with `t`, a program. -/
def Follows (ts : List Token) (t : Token) (p : Parser) : Prop :=
  (t.kind ≠ .eof ∧ Accounts (ts ++ [t]) p) ∨
    (t.kind = .eof ∧ ∃ demand ≤ maxNesting, Derives (.statements p.body.reverse) ts demand)

section Nest

variable {us vs : List Token} {blocks : List OpenBlock} {body : List Stmt}

theorem Nest.length_le (h : Nest us blocks body) : blocks.length ≤ maxNesting := by
  cases h with
  | outermost => exact Nat.zero_le _
  | inner => simp only [List.length_cons]; omega

/-- A statement is added to the innermost block. -/
theorem Nest.push (h : Nest us blocks body) {s : Stmt} {demand : Nat}
    (hs : Derives (.statement s) vs demand) (fits : blocks.length + demand ≤ maxNesting) :
    Nest (us ++ vs) blocks (s :: body) := by
  have single : Derives (.statements [s]) vs demand := by
    simpa using hs.cons .nil
  cases h with
  | @outermost ts body d derived within =>
    have more := derived.statements_append single
    rw [← List.reverse_cons] at more
    exact .outermost more (by simp only [List.length_nil] at fits; omega)
  | @inner ts th tb o blocks head before body dh d outer headed headFits ho derived within =>
    have more := derived.statements_append single
    rw [← List.reverse_cons] at more
    have nested := Nest.inner outer headed headFits ho more
      (by simp only [List.length_cons] at fits; omega)
    rw [List.append_assoc, List.append_assoc, List.cons_append]
    exact nested

end Nest

/-! ## Failures are reported -/

section Quiet

variable {p : Parser} {t : Token}

theorem reports_fail_ne_nil (open_ : p.pending = false) (reason : SyntaxFault) :
    (p.fail reason t).reports ≠ [] := by
  have reported := reports_fail p reason t
  rw [if_neg (by rw [open_]; simp)] at reported
  intro none
  rw [none, List.suffix_nil] at reported
  cases reported

theorem finishStmt_quiet {s : Stmt} (open_ : p.pending = false)
    (quiet : (p.finishStmt s t).reports = []) :
    t.kind = .mark .semicolon ∧ p.finishStmt s t = p.push s := by
  by_cases h : t.kind = .mark .semicolon
  · exact ⟨h, finishStmt_semicolon h s⟩
  · rw [finishStmt, if_neg h] at quiet
    exact absurd quiet (reports_fail_ne_nil open_ _)

theorem openBlock_quiet {head : BlockHead} (open_ : p.pending = false)
    (quiet : (p.openBlock head t).reports = []) :
    t.kind = .mark .openBrace ∧ p.openBlock head t = p.into (.opening head) := by
  by_cases h : t.kind = .mark .openBrace
  · exact ⟨h, openBlock_brace h head⟩
  · rw [openBlock, if_neg h] at quiet
    exact absurd quiet (reports_fail_ne_nil open_ _)

theorem complete_equals_quiet {fromName : Bool} {pos : Position} {e : Expr}
    (open_ : p.pending = false) (ht : t.kind = .mark .equals)
    (quiet : (p.complete (.value fromName pos) e t).reports = []) :
    ∃ name namePos, fromName = true ∧ e = .location name namePos ∧
      p.complete (.value fromName pos) e t = p.expect (.assign name namePos pos) := by
  by_cases target : fromName = true ∧ ∃ name namePos, e = .location name namePos
  · obtain ⟨rfl, name, namePos, rfl⟩ := target
    exact ⟨name, namePos, rfl, rfl, if_pos ht⟩
  · have failed : p.complete (.value fromName pos) e t = p.fail .invalidTarget t := by
      rw [complete, if_pos ht]
      exact fun name namePos isName location => target ⟨isName, name, namePos, location⟩
    rw [failed] at quiet
    exact absurd quiet (reports_fail_ne_nil open_ _)

theorem reports_finish {pos : Position} (open_ : p.pending = false) :
    (p.finish pos).reports =
      (p.blocks.map fun _ => ⟨.syntactic (.unexpectedEnd .closeBrace), pos⟩) ++ p.reports := by
  rw [finish, open_]
  rfl

theorem finish_quiet {pos : Position} (open_ : p.pending = false)
    (quiet : (p.finish pos).reports = []) : p.blocks = [] := by
  rw [reports_finish open_, List.append_eq_nil_iff, List.map_eq_nil_iff] at quiet
  exact quiet.1

end Quiet

/-! ## Steps between two statements -/

section Between

variable {p : Parser} {t : Token} {us vs : List Token}

/-- A complete statement is accounted for where its semicolon was read. -/
theorem follows_push {s : Stmt} {demand : Nat} (open_ : p.pending = false)
    (nest : Nest us p.blocks p.body) (ht : t.kind = .mark .semicolon)
    (hs : Derives (.statement s) (vs ++ [t]) demand)
    (fits : p.blocks.length + demand ≤ maxNesting) : Follows (us ++ vs) t (p.push s) := by
  have pushed := nest.push hs fits
  exact .inl ⟨by rw [ht]; simp, open_, us ++ (vs ++ [t]), [], by simp, pushed, .ready⟩

/-- A statement is accounted for further by the mode alone. -/
theorem follows_into {mode : Mode} (open_ : p.pending = false) (nest : Nest us p.blocks p.body)
    (ht : t.kind ≠ .eof) (begun : Begun p.blocks.length (vs ++ [t]) mode) :
    Follows (us ++ vs) t (p.into mode) :=
  .inl ⟨ht, open_, us, vs ++ [t], by simp, nest, begun⟩

theorem begin_sound (open_ : p.pending = false) (nest : Nest us p.blocks p.body)
    (quiet : (p.begin t).reports = []) (ht : t.kind ≠ .eof) : Follows us t (p.begin t) := by
  have into : ∀ {mode : Mode}, Begun p.blocks.length [t] mode → Follows us t (p.into mode) := by
    intro mode begun
    have whole := @follows_into p t us [] mode open_ nest ht begun
    rwa [List.append_nil] at whole
  have nothing := reads_start nest.length_le
  by_cases starts : t.kind.startsStatement = true
  · rcases Kind.startsStatement_cases starts with h | h | h | ⟨binding, h⟩ | ⟨j, h⟩
    · rw [begin_print h, fresh_eq open_]
      exact into (.print h nothing)
    · rw [begin_if h, fresh_eq open_]
      exact into (.ifCondition h nothing)
    · rw [begin_while h, fresh_eq open_]
      exact into (.whileCondition h nothing)
    · rw [begin_declaration h, fresh_eq open_]
      exact into (.declaring h)
    · rw [begin_jump h, fresh_eq open_]
      exact into (.closing h)
  · have read := feed_sound nothing t
    have fed : (Reading.start p.blocks.length).feed t = taken (Reading.begin p.blocks.length t) :=
      rfl
    rw [begin_expression (by simpa using starts), fresh_eq open_] at quiet ⊢
    rw [fed] at read
    cases begun : Reading.begin p.blocks.length t with
    | error reason => rw [begun] at quiet; cases quiet
    | ok r =>
      rw [begun] at read
      exact into (.value read)

theorem close_sound {block : OpenBlock} {outer : List OpenBlock} (open_ : p.pending = false)
    (nest : Nest us (block :: outer) p.body) (ht : t.kind = .mark .closeBrace) :
    Follows us t (p.close block outer) := by
  have notEof : t.kind ≠ .eof := by rw [ht]; simp
  cases nest with
  | @inner ts th tb o _ head before _ dh demand nest headed headFits ho derived fits =>
    have block := Derives.block ho derived ht
    cases headed with
    | @thenBlock i tc c links dc hi cond =>
      have begun : Begun outer.length (i :: (tc ++ o :: (tb ++ [t])))
          (.thenRead c p.body.reverse i.pos) := .thenRead hi cond block (by omega)
      exact .inl ⟨notEof, open_, ts, i :: (tc ++ o :: (tb ++ [t])), by simp, nest, begun⟩
    | @elseBlock i e tc tb' c thenBody links dc db hi cond thenBlock he =>
      have whole := nest.push (.ifElse hi cond thenBlock (.otherwise he block))
        (by omega)
      exact .inl ⟨notEof, open_, _, [], by simp, whole, .ready⟩
    | @whileBlock w tc c links dc hw cond =>
      have whole := nest.push (.whileLoop hw cond block) (by omega)
      exact .inl ⟨notEof, open_, _, [], by simp, whole, .ready⟩

theorem between_sound (open_ : p.pending = false) (nest : Nest us p.blocks p.body)
    (quiet : (p.between t).reports = []) : Follows us t (p.between t) := by
  rcases between_cases p t with ⟨ht, h⟩ | ⟨block, outer, ht, hb, h⟩ | ⟨ht, -, h⟩
  · rw [h] at quiet ⊢
    have noBlocks := finish_quiet open_ quiet
    rw [noBlocks] at nest
    cases nest with
    | outermost derived within => exact .inr ⟨ht, _, within, derived⟩
  · rw [h]
    rw [hb] at nest
    exact close_sound open_ nest ht
  · rw [h] at quiet ⊢
    exact begin_sound open_ nest quiet ht

end Between

/-! ## Steps inside a statement -/

section Inside

variable {p : Parser} {t : Token} {us vs : List Token}

theorem complete_sound {goal : Goal} {r : Reading} {e : Expr} (open_ : p.pending = false)
    (nest : Nest us p.blocks p.body) (begun : Begun p.blocks.length vs (.expr goal r))
    (done : r.feed t = .done e) (quiet : (p.complete goal e t).reports = []) :
    Follows (us ++ vs) t (p.complete goal e t) := by
  cases begun with
  | @print k ts _ hk reads =>
    obtain ⟨links, demand, phrase, fits⟩ := reads.done done
    obtain ⟨ht, pushed⟩ := finishStmt_quiet open_ quiet
    have step : p.complete (.print k.pos) e t = p.push (.print e k.pos) := pushed
    rw [step]
    exact follows_push open_ nest ht (.print hk phrase ht) fits
  | @assign name eq ts _ hn he reads =>
    obtain ⟨links, demand, phrase, fits⟩ := reads.done done
    obtain ⟨ht, pushed⟩ := finishStmt_quiet open_ quiet
    have step : p.complete (.assign name.lexeme name.pos name.pos) e t =
        p.push (.assign name.lexeme name.pos e name.pos) := pushed
    rw [step]
    exact follows_push open_ nest ht (.assign hn he phrase ht) fits
  | @init k name eq binding type tt ts _ hk htype hn he reads =>
    obtain ⟨links, demand, phrase, fits⟩ := reads.done done
    obtain ⟨ht, pushed⟩ := finishStmt_quiet open_ quiet
    have step : p.complete (.init binding name.lexeme type k.pos) e t =
        p.push (.declare binding name.lexeme type (some e) k.pos) := pushed
    have given : Declarable binding type (some e) := by cases binding <;> simp [Declarable]
    have derived := Derives.declare hk htype hn (.present he phrase) given ht
    rw [step]
    exact follows_push open_ nest ht (by simpa using derived) fits
  | @ifCondition k ts _ hk reads =>
    obtain ⟨links, demand, phrase, fits⟩ := reads.done done
    obtain ⟨ht, opened⟩ := openBlock_quiet open_ quiet
    have step : p.complete (.ifCondition k.pos) e t = p.into (.opening (.thenBlock e k.pos)) :=
      opened
    rw [step]
    exact follows_into open_ nest (by rw [ht]; simp) (.opening (.thenBlock hk phrase) fits ht)
  | @whileCondition k ts _ hk reads =>
    obtain ⟨links, demand, phrase, fits⟩ := reads.done done
    obtain ⟨ht, opened⟩ := openBlock_quiet open_ quiet
    have step : p.complete (.whileCondition k.pos) e t =
        p.into (.opening (.whileBlock e k.pos)) := opened
    rw [step]
    exact follows_into open_ nest (by rw [ht]; simp) (.opening (.whileBlock hk phrase) fits ht)
  | @value k ts _ reads =>
    obtain ⟨links, demand, phrase, fits⟩ := reads.done done
    by_cases ht : t.kind = .mark .equals
    · obtain ⟨name, namePos, isName, rfl, step⟩ := complete_equals_quiet open_ ht quiet
      -- the value was a name alone, so its token is all there is in front of the sign
      have hk : k.kind = .ident := by simpa using isName
      obtain ⟨rfl, rfl, rfl⟩ := phrase.eq_singleton_of_location hk
      rw [step]
      exact follows_into open_ nest (by rw [ht]; simp)
        (.assign hk ht (reads_start nest.length_le))
    · have step : p.complete (.value (k.kind == .ident) k.pos) e t =
          p.finishStmt (.expr e k.pos) t := if_neg ht
      rw [step] at quiet ⊢
      obtain ⟨hs, pushed⟩ := finishStmt_quiet open_ quiet
      rw [pushed]
      exact follows_push open_ nest hs (.expr phrase hs) fits

theorem begun_more {goal : Goal} {r r' : Reading} {base : Nat}
    (begun : Begun base vs (.expr goal r)) (more : r.feed t = .more r') :
    Begun base (vs ++ [t]) (.expr goal r') := by
  cases begun with
  | print hk reads => exact .print hk (reads.more more)
  | assign hn he reads => exact .assign hn he (reads.more more)
  | init hk htype hn he reads =>
    have begun := Begun.init hk htype hn he (reads.more more)
    simpa using begun
  | ifCondition hk reads => exact .ifCondition hk (reads.more more)
  | whileCondition hk reads => exact .whileCondition hk (reads.more more)
  | value reads => exact .value (reads.more more)

end Inside

theorem feedToken_sound {p : Parser} {ts : List Token} {t : Token} (h : Accounts ts p)
    (quiet : (p.feedToken t).reports = []) : Follows ts t (p.feedToken t) := by
  obtain ⟨open_, us, vs, rfl, nest, begun⟩ := h
  have notEof : ∀ {k : Kind}, t.kind = k → k ≠ .eof → t.kind ≠ .eof := fun h h' => h ▸ h'
  generalize hmode : p.mode = mode at begun
  have isExpr : ∀ goal r, mode = .expr goal r → Follows (us ++ vs) t (p.feedToken t) := by
    rintro goal r rfl
    rw [feedToken_expr hmode] at quiet ⊢
    split at quiet
    · next r' more =>
      have goesOn := inExpression_of_more more
      have ht : t.kind ≠ .eof := by rintro ht; rw [ht] at goesOn; cases goesOn
      exact follows_into open_ nest ht (begun_more begun more)
    · next e done => exact complete_sound open_ nest begun done quiet
    · exact absurd quiet (reports_fail_ne_nil open_ _)
  cases begun with
  | ready =>
    rw [feedToken_ready hmode] at quiet ⊢
    rw [List.append_nil]
    exact between_sound open_ nest quiet
  | closing hk =>
    rw [feedToken_closing hmode] at quiet ⊢
    obtain ⟨ht, pushed⟩ := finishStmt_quiet open_ quiet
    rw [pushed]
    exact follows_push open_ nest ht (.jump hk ht) nest.length_le
  | declaring hk =>
    rw [feedToken_declaring hmode] at quiet ⊢
    split_ifs at quiet ⊢ with name
    · exact follows_into open_ nest (notEof name (by simp)) (.named hk name)
    · exact absurd quiet (reports_fail_ne_nil open_ _)
  | @named k first binding hk hf =>
    rw [feedToken_named hmode] at quiet ⊢
    split_ifs at quiet ⊢ with name equals
    · exact follows_into open_ nest (notEof name (by simp)) (.typed hk hf name)
    · exact follows_into open_ nest (notEof equals (by simp))
        (.init hk .absent hf equals (reads_start nest.length_le))
    · exact absurd quiet (reports_fail_ne_nil open_ _)
  | @typed k first name binding hk hf hn =>
    cases binding with
    | var =>
      rw [feedToken_typed_var hmode] at quiet ⊢
      split_ifs at quiet ⊢ with equals
      · exact follows_into open_ nest (notEof equals (by simp))
          (.init hk (.present hf) hn equals (reads_start nest.length_le))
      · obtain ⟨ht, pushed⟩ := finishStmt_quiet open_ quiet
        rw [pushed]
        have derived := Derives.declare hk (.present hf) hn .absent (.inl (by simp)) ht
        exact follows_push open_ nest ht derived nest.length_le
    | const =>
      rw [feedToken_typed_const hmode] at quiet ⊢
      split_ifs at quiet ⊢ with equals
      · exact follows_into open_ nest (notEof equals (by simp))
          (.init hk (.present hf) hn equals (reads_start nest.length_le))
      · exact absurd quiet (reports_fail_ne_nil open_ _)
  | @opening th o head demand headed fits ho =>
    rw [feedToken_opening hmode] at quiet ⊢
    split_ifs at quiet ⊢ with room
    · have inside : Nest (us ++ (th ++ [o])) (p.enter head).blocks (p.enter head).body :=
        .inner nest headed fits ho .nil room
      exact between_sound (p := p.enter head) open_ inside quiet
    · exact absurd quiet (reports_fail_ne_nil open_ _)
  | @thenRead k tc tb c thenBody links dc db hk cond block fits =>
    rw [feedToken_thenRead hmode] at quiet ⊢
    split_ifs at quiet ⊢ with other
    · have headed := Headed.elseBlock hk cond block other
      exact follows_into open_ nest (notEof other (by simp)) (by simpa using .elseRead headed fits)
    · have derived := Derives.ifElse hk cond block .absent
      have whole := nest.push (by simpa using derived) (by simpa using fits)
      exact between_sound (p := p.push _) open_ whole quiet
  | @elseRead th c thenBody pos demand headed fits =>
    rw [feedToken_elseRead hmode] at quiet ⊢
    obtain ⟨ht, opened⟩ := openBlock_quiet open_ quiet
    rw [opened]
    exact follows_into open_ nest (notEof ht (by simp)) (.opening headed fits ht)
  | _ => exact isExpr _ _ rfl

/-! ## Whole programs -/

theorem foldl_feedToken_sound {p : Parser} {ts us : List Token} (h : Accounts ts p)
    (words : ∀ u ∈ us, u.kind ≠ .eof) (quiet : (us.foldl feedToken p).reports = []) :
    Accounts (ts ++ us) (us.foldl feedToken p) := by
  induction us generalizing p ts with
  | nil => simpa using h
  | cons u us ih =>
    rw [List.foldl_cons] at quiet
    rcases feedToken_sound h (quiet_of_foldl quiet) with ⟨-, more⟩ | ⟨ended, -⟩
    · have whole := ih more (fun v hv => words v (List.mem_cons_of_mem _ hv)) quiet
      rwa [List.append_assoc] at whole
    · exact absurd ended (words u List.mem_cons_self)

/-- Where nothing has been reported, the state accounts for everything that was read. -/
theorem accounts_of_quiet {ts : List Token} (goesOn : ∀ t ∈ ts, t.kind ≠ .eof)
    (quiet : (ts.foldl feedToken start).reports = []) : Accounts ts (ts.foldl feedToken start) := by
  have begun : Accounts [] start := ⟨rfl, [], [], rfl, .outermost .nil (Nat.zero_le _), .ready⟩
  exact foldl_feedToken_sound begun goesOn quiet

theorem Accounts.ne_recovering {ts : List Token} {p : Parser} (h : Accounts ts p) :
    p.mode ≠ .recovering := by
  obtain ⟨-, us, vs, -, -, begun⟩ := h
  intro mode
  rw [mode] at begun
  cases begun

section Whole

variable {ts : List Token} {eof : Token} {P : Program}

theorem derives_of_run (words : ∀ t ∈ ts, t.kind ≠ .eof) (he : eof.kind = .eof)
    (accepted : (run ((ts ++ [eof]).map .token)).program? = some P) :
    ∃ demand ≤ maxNesting, Derives (.statements P.body) ts demand := by
  obtain ⟨quiet, made⟩ := Parsed.program?_eq_some_iff.mp accepted
  have behind : ((ts ++ [eof]).foldl feedToken start).reports = [] := by
    rw [run, foldl_feed_tokens] at quiet
    simpa using quiet
  rw [List.foldl_append] at behind
  have account := accounts_of_quiet words (quiet_of_foldl behind)
  rcases feedToken_sound account behind with ⟨notEof, -⟩ | ⟨-, demand, within, derived⟩
  · exact absurd he notEof
  · refine ⟨demand, within, ?_⟩
    rw [← made, run, foldl_feed_tokens, List.foldl_append]
    exact derived

/-- The tokens of a text are a program exactly if they derive it within the limit. -/
theorem run_eq_some_iff (words : ∀ t ∈ ts, t.kind ≠ .eof) (he : eof.kind = .eof) :
    (run ((ts ++ [eof]).map .token)).program? = some P ↔
      (∃ demand ≤ maxNesting, Derives (.statements P.body) ts demand) ∧
        P.pos = startOf (ts ++ [eof]) := by
  constructor
  · intro accepted
    obtain ⟨demand, within, derived⟩ := derives_of_run words he accepted
    refine ⟨⟨demand, within, derived⟩, ?_⟩
    rw [run_of_derives derived within he, Parsed.program?_eq_some_iff] at accepted
    rw [← accepted.2]
  · rintro ⟨⟨demand, within, derived⟩, begun⟩
    rw [run_of_derives derived within he, ← begun]
    rfl

end Whole

end ImpSyntax.Parser
