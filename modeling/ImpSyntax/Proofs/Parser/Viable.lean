import ImpSyntax.Proofs.Lexical.Words
import ImpSyntax.Proofs.Parser.Sound

/-!
# What has been read can be completed

In every state of the parser some words complete what has been read to a program. A frame of an
expression is closed by its operand and its parenthesis, a statement by its semicolon or its block,
an open block by its brace. Nesting sets no limit here: the program is one of the grammar, which need
not be accepted.

There is one state that reading leaves by a failure alone: where the next operand would stand one
level further in than the limit allows.

Main results:

* `Reads.completable` — an expression in part is the beginning of a phrase.
* `Begun.completable` — a statement in part is the beginning of a program.
* `Nest.completable` — so is a statement behind open blocks.
* `Parser.Accounts.completable` — what a state accounts for is the beginning of a program.
-/

namespace ImpSyntax

open Precedence

namespace Grammar

/-! ## Completions -/

/-- The tokens are an expression. -/
def IsPhrase (ts : List Token) : Prop :=
  ∃ e links demand, Phrase Reading.loosest ts e links demand

/-- The tokens are a statement. -/
def IsStmt (ts : List Token) : Prop := ∃ s demand, Derives (.statement s) ts demand

/-- The tokens are a program, within the limit or beyond it. -/
def IsSentence (ts : List Token) : Prop := ∃ body demand, Derives (.statements body) ts demand

/-- With some words behind them the tokens have the property. -/
def Completable (P : List Token → Prop) (ts : List Token) : Prop :=
  ∃ rest, (∀ t ∈ rest, t.IsWord) ∧ P (ts ++ rest)

section Completable

variable {P Q : List Token → Prop} {ts us : List Token}

theorem Completable.whole (h : P ts) : Completable P ts := ⟨[], by simp, by rwa [List.append_nil]⟩

/-- What more words make completable is completable. -/
theorem Completable.behind (words : ∀ t ∈ us, t.IsWord) (h : Completable P (ts ++ us)) :
    Completable P ts := by
  obtain ⟨rest, others, whole⟩ := h
  refine ⟨us ++ rest, fun t mem => ?_, by rwa [← List.append_assoc]⟩
  exact (List.mem_append.mp mem).elim (words t) (others t)

theorem Completable.mark (m : Mark) (h : Completable P (ts ++ [m.token])) : Completable P ts :=
  h.behind fun _ mem => List.mem_singleton.mp mem ▸ m.isWord_token

/-- A name to complete expressions and declarations with. -/
def someName : Token := ⟨.ident, "x", .unknown⟩

theorem Completable.name (h : Completable P (ts ++ [someName])) : Completable P ts := by
  have word : someName.IsWord := ⟨⟨⟨by decide, by simp⟩, fun w => by cases w <;> decide⟩, rfl⟩
  exact h.behind fun _ mem => List.mem_singleton.mp mem ▸ word

/-- A part is completed first, and the whole behind it. -/
theorem Completable.bind (h : Completable P ts)
    (then_ : ∀ rest, P (ts ++ rest) → Completable Q (us ++ rest)) : Completable Q us := by
  obtain ⟨rest, words, part⟩ := h
  exact (then_ rest part).behind words

end Completable

theorem IsStmt.isSentence {ts : List Token} (h : IsStmt ts) : IsSentence ts := by
  obtain ⟨s, demand, derived⟩ := h
  exact ⟨[s], _, by simpa using derived.cons .nil⟩

theorem IsSentence.append {ts us : List Token} (h : IsSentence ts) (h' : IsSentence us) :
    IsSentence (ts ++ us) := by
  obtain ⟨body, demand, derived⟩ := h
  obtain ⟨body', demand', derived'⟩ := h'
  exact ⟨_, _, derived.statements_append derived'⟩

end Grammar

open Grammar

/-! ## Expressions -/

namespace Reading

/-- The frames are closed around their operand. -/
theorem Opens.completable {base : Nat} {ts us : List Token} {frames : List Frame}
    {depth level links demand : Nat} {e : Expr} (h : Opens base ts frames depth)
    (phrase : Phrase level us e links demand) (floor : floorOf frames ≤ level) :
    Completable IsPhrase (ts ++ us) := by
  induction h generalizing us level links demand e with
  | nil => exact .whole ⟨e, links, demand, phrase.mono floor⟩
  | sign opened ht _ ih =>
    rw [List.append_assoc]
    exact ih (.sign ht (phrase.mono floor)) opened.floorOf_le
  | @group ts frames depth o opened ho _ ih =>
    have closed : Phrase unaryLevel (o :: (us ++ [Mark.closeParen.token])) e 0 (demand + 1) :=
      .group ho (phrase.mono floor) rfl
    have whole := ih closed opened.floorOf_le
    refine .mark .closeParen ?_
    rw [List.append_assoc, List.append_assoc]
    exact whole
  | link opened le left _ op _ ih =>
    rw [List.append_assoc, List.append_assoc]
    exact ih (.link left op (phrase.mono floor)) le

theorem Reads.completable {base : Nat} {ts : List Token} {r : Reading} (h : Reads base ts r)
    (room : r.HasRoom) : Completable IsPhrase ts := by
  have operand : ∀ {frames : List Frame} {depth : Nat}, Opens base ts frames depth →
      Completable IsPhrase ts := by
    intro frames depth opened
    have name : Phrase unaryLevel [someName] (.location "x" .unknown) 0 0 := .name rfl
    exact .name (opened.completable name opened.floorOf_le)
  cases h with
  | operand opened _ => exact operand opened
  | inner opened => exact operand (opened (room rfl))
  | operator opened phrase _ => exact opened.completable phrase opened.floorOf_le

end Reading

/-! ## Statements -/

namespace Parser

/-- An expression in part and a semicolon, where that makes a statement. -/
theorem completable_semicolon {base : Nat} {r : Reading} {ts us : List Token}
    (reads : Reading.Reads base ts r) (room : r.HasRoom)
    (made : ∀ rest semi, IsPhrase (ts ++ rest) → semi.kind = .mark .semicolon →
      IsStmt (us ++ rest ++ [semi])) : Completable IsSentence us :=
  (reads.completable room).bind fun rest phrase =>
    .mark .semicolon (.whole (made rest _ phrase rfl).isSentence)

/-- A block behind its head makes a statement. -/
theorem Headed.isStmt {head : BlockHead} {ts tb : List Token} {body : List Stmt}
    {dh d : Nat} (headed : Headed head ts dh) (block : Derives (.block body) tb d) :
    IsStmt (ts ++ tb) := by
  cases headed with
  | thenBlock ht cond => exact ⟨_, _, by simpa using Derives.ifElse ht cond block .absent⟩
  | elseBlock ht cond thenBlock he =>
    exact ⟨_, _, by simpa using Derives.ifElse ht cond thenBlock (.otherwise he block)⟩
  | whileBlock ht cond => exact ⟨_, _, .whileLoop ht cond block⟩

/-- The block behind a head is completed by its end. -/
theorem Headed.completable {head : BlockHead} {ts tb : List Token} {o : Token} {dh : Nat}
    (headed : Headed head ts dh) (ho : o.kind = .mark .openBrace) (inside : IsSentence tb) :
    Completable IsSentence (ts ++ o :: tb) := by
  obtain ⟨body, demand, derived⟩ := inside
  have block : Derives (.block body) (o :: (tb ++ [Mark.closeBrace.token])) (demand + 1) :=
    .block ho derived rfl
  refine .mark .closeBrace ?_
  rw [List.append_assoc]
  exact .whole (headed.isStmt block).isSentence

theorem completable_init {t name eq : Token} {binding : Binding} {type : Option TypeName}
    {tt : List Token} (ht : t.kind = .keyword binding.word) (htype : TypePart tt type)
    (hn : name.kind = .ident) (he : eq.kind = .mark .equals) {base : Nat} {r : Reading}
    {ts : List Token} (reads : Reading.Reads base ts r) (room : r.HasRoom) :
    Completable IsSentence (t :: (tt ++ name :: eq :: ts)) := by
  refine completable_semicolon reads room fun rest semi ⟨e, _, _, phrase⟩ hs => ?_
  have given : Declarable binding type (some e) := by cases binding <;> simp [Declarable]
  exact ⟨_, _, by simpa using Derives.declare ht htype hn (.present he phrase) given hs⟩

/-- A declaration of which the name has been read can be given a value. -/
theorem completable_declared {t name : Token} {binding : Binding} {type : Option TypeName}
    {tt : List Token} (ht : t.kind = .keyword binding.word) (htype : TypePart tt type)
    (hn : name.kind = .ident) : Completable IsSentence (t :: (tt ++ [name])) := by
  have nothing : Reading.Reads 0 [] (.start 0) := Reading.reads_start (Nat.zero_le _)
  have sign : Mark.equals.token.kind = .mark .equals := rfl
  have given := completable_init ht htype hn sign nothing fun inner => by cases inner
  exact .mark .equals (by simpa using given)

theorem Begun.completable {base : Nat} {ts : List Token} {mode : Mode} (h : Begun base ts mode)
    (room : ∀ goal r, mode = .expr goal r → r.HasRoom) : Completable IsSentence ts := by
  cases h with
  | ready => exact .whole ⟨[], 0, .nil⟩
  | print ht reads =>
    exact completable_semicolon reads (room _ _ rfl) fun rest semi ⟨e, _, _, phrase⟩ hs =>
      ⟨_, _, .print ht phrase hs⟩
  | assign hn he reads =>
    exact completable_semicolon reads (room _ _ rfl) fun rest semi ⟨e, _, _, phrase⟩ hs =>
      ⟨_, _, .assign hn he phrase hs⟩
  | init ht htype hn he reads => exact completable_init ht htype hn he reads (room _ _ rfl)
  | @ifCondition t ts r ht reads =>
    refine (reads.completable (room _ _ rfl)).bind fun rest ⟨c, _, _, cond⟩ => ?_
    exact .mark .openBrace ((Headed.thenBlock ht cond).completable rfl ⟨[], 0, .nil⟩)
  | whileCondition ht reads =>
    refine (reads.completable (room _ _ rfl)).bind fun rest ⟨c, _, _, cond⟩ => ?_
    exact .mark .openBrace ((Headed.whileBlock ht cond).completable rfl ⟨[], 0, .nil⟩)
  | value reads =>
    exact completable_semicolon reads (room _ _ rfl) fun rest semi ⟨e, _, _, phrase⟩ hs =>
      ⟨_, _, .expr phrase hs⟩
  | closing ht => exact .mark .semicolon (.whole (IsStmt.isSentence ⟨_, _, .jump ht rfl⟩))
  | declaring ht => exact .name (completable_declared ht .absent rfl)
  | named ht hf => exact completable_declared ht .absent hf
  | typed ht hf hn => exact completable_declared ht (.present hf) hn
  | opening headed _ ho => exact headed.completable ho ⟨[], 0, .nil⟩
  | thenRead ht cond block _ =>
    exact .whole (IsStmt.isSentence
      ⟨_, _, by simpa using Derives.ifElse ht cond block .absent⟩)
  | elseRead headed _ => exact .mark .openBrace (headed.completable rfl ⟨[], 0, .nil⟩)

/-! ## Open blocks -/

theorem Nest.completable {us vs : List Token} {blocks : List OpenBlock} {body : List Stmt}
    (h : Nest us blocks body) (behind : IsSentence vs) : Completable IsSentence (us ++ vs) := by
  induction h generalizing vs with
  | outermost derived _ => exact .whole (IsSentence.append ⟨_, _, derived⟩ behind)
  | @inner ts th tb o blocks head before body dh demand nest headed _ ho derived _ ih =>
    have inside : IsSentence (tb ++ vs) := IsSentence.append ⟨_, _, derived⟩ behind
    refine (headed.completable ho inside).bind fun rest whole => ?_
    have more := ih whole
    simpa using more

theorem Accounts.completable {ts : List Token} {p : Parser} (h : Accounts ts p)
    (room : p.HasRoom) : Completable IsSentence ts := by
  obtain ⟨-, us, vs, rfl, nest, begun⟩ := h
  refine (begun.completable fun _ _ mode => (hasRoom_expr mode).mp room).bind fun rest sentence => ?_
  rw [List.append_assoc]
  exact nest.completable sentence

end Parser

end ImpSyntax
