import ImpSyntax.Proofs.Grammar.Phrase
import ImpSyntax.Tree.SourceText

/-!
# The grammar of programs

Statements, blocks and whole programs are derived from their tokens, together with the demand of the
derivation: how deep blocks, parentheses and operators nest in it. A block adds one level for what it
encloses, also where that is nothing.

Main results:

* `Derives.ne_nil` — no statement and no block is empty.
* `Derives.first` — what a statement can begin with.
* `Derives.statements_append` — programs in a row are one program.
-/

namespace ImpSyntax

open Precedence Reading

theorem Binding.begins_word (b : Binding) : (Kind.keyword b.word).begins = true := by
  cases b <;> rfl

theorem Jump.begins_word (j : Jump) : (Kind.keyword j.word).begins = true := by
  cases j <;> rfl

namespace Grammar

/-! ## Declarations -/

/-- The type in front of the name that is declared, if there is one. -/
inductive TypePart : List Token → Option TypeName → Prop
  | absent : TypePart [] none
  | present {t : Token} : t.kind = .ident → TypePart [t] (some ⟨t.lexeme, t.pos⟩)

/-- The value behind the name that is declared, if there is one. -/
inductive InitPart : List Token → Option Expr → Nat → Prop
  | absent : InitPart [] none 0
  | present {t : Token} {ts : List Token} {e : Expr} {links demand : Nat} :
      t.kind = .mark .equals → Phrase loosest ts e links demand → InitPart (t :: ts) (some e) demand

/-- What has to be given: a variable needs a type or a value, a constant needs a value. -/
def Declarable : Binding → Option TypeName → Option Expr → Prop
  | .var, type, init => type ≠ none ∨ init ≠ none
  | .const, _, init => init ≠ none

/-! ## Statements -/

/-- What a run of tokens can stand for: a statement, any number of statements, a block with these
statements, or what may follow the first block of a conditional. -/
inductive Construct
  | statement (s : Stmt)
  | statements (body : List Stmt)
  | block (body : List Stmt)
  | otherwise (body : Option (List Stmt))

/-- `Derives c ts demand`: the tokens `ts` are the construct `c`. -/
inductive Derives : Construct → List Token → Nat → Prop
  | print {t semi : Token} {ts : List Token} {e : Expr} {links demand : Nat} :
      t.kind = .keyword .printWord → Phrase loosest ts e links demand →
      semi.kind = .mark .semicolon →
      Derives (.statement (.print e t.pos)) (t :: (ts ++ [semi])) demand
  | assign {name eq semi : Token} {ts : List Token} {e : Expr} {links demand : Nat} :
      name.kind = .ident → eq.kind = .mark .equals → Phrase loosest ts e links demand →
      semi.kind = .mark .semicolon →
      Derives (.statement (.assign name.lexeme name.pos e name.pos))
        (name :: eq :: (ts ++ [semi])) demand
  | declare {t name semi : Token} {binding : Binding} {tt ti : List Token}
      {type : Option TypeName} {init : Option Expr} {demand : Nat} :
      t.kind = .keyword binding.word → TypePart tt type → name.kind = .ident →
      InitPart ti init demand → Declarable binding type init → semi.kind = .mark .semicolon →
      Derives (.statement (.declare binding name.lexeme type init t.pos))
        (t :: (tt ++ name :: (ti ++ [semi]))) demand
  | jump {t semi : Token} {j : Jump} :
      t.kind = .keyword j.word → semi.kind = .mark .semicolon →
      Derives (.statement (.jump j t.pos)) [t, semi] 0
  | expr {semi : Token} {ts : List Token} {e : Expr} {links demand : Nat} :
      Phrase loosest ts e links demand → semi.kind = .mark .semicolon →
      Derives (.statement (.expr e (startOf ts))) (ts ++ [semi]) demand
  | ifElse {t : Token} {tc tb te : List Token} {c : Expr} {thenBody : List Stmt}
      {elseBody : Option (List Stmt)} {links dc db de : Nat} :
      t.kind = .keyword .ifWord → Phrase loosest tc c links dc → Derives (.block thenBody) tb db →
      Derives (.otherwise elseBody) te de →
      Derives (.statement (.ifElse c thenBody elseBody t.pos)) (t :: (tc ++ (tb ++ te)))
        (max dc (max db de))
  | whileLoop {t : Token} {tc tb : List Token} {c : Expr} {body : List Stmt}
      {links dc db : Nat} :
      t.kind = .keyword .whileWord → Phrase loosest tc c links dc → Derives (.block body) tb db →
      Derives (.statement (.whileLoop c body t.pos)) (t :: (tc ++ tb)) (max dc db)
  | nil : Derives (.statements []) [] 0
  | cons {s : Stmt} {rest : List Stmt} {ts us : List Token} {d d' : Nat} :
      Derives (.statement s) ts d → Derives (.statements rest) us d' →
      Derives (.statements (s :: rest)) (ts ++ us) (max d d')
  | block {o c : Token} {ts : List Token} {body : List Stmt} {demand : Nat} :
      o.kind = .mark .openBrace → Derives (.statements body) ts demand →
      c.kind = .mark .closeBrace → Derives (.block body) (o :: (ts ++ [c])) (demand + 1)
  | absent : Derives (.otherwise none) [] 0
  | otherwise {t : Token} {tb : List Token} {body : List Stmt} {demand : Nat} :
      t.kind = .keyword .elseWord → Derives (.block body) tb demand →
      Derives (.otherwise (some body)) (t :: tb) demand

namespace Derives

variable {ts us : List Token} {s : Stmt} {body rest : List Stmt} {d d' : Nat}

theorem ne_nil (h : Derives (.statement s) ts d) : ts ≠ [] := by
  cases h <;> simp

theorem first {t : Token} (h : Derives (.statement s) (t :: ts) d) : t.kind.begins = true := by
  generalize hts : t :: ts = us at h
  cases h with
  | print ht => cases hts; rw [ht]; rfl
  | assign ht => cases hts; rw [ht]; rfl
  | @declare _ _ _ binding _ _ _ _ _ ht =>
    cases hts
    rw [ht]
    exact binding.begins_word
  | @jump _ _ j ht =>
    obtain ⟨rfl, rfl⟩ := List.cons.inj hts
    rw [ht]
    exact j.begins_word
  | expr phrase =>
    obtain ⟨first, others, rfl⟩ := List.exists_cons_of_ne_nil phrase.ne_nil
    cases hts
    exact Kind.begins_of_startsOperand phrase.first
  | ifElse ht => cases hts; rw [ht]; rfl
  | whileLoop ht => cases hts; rw [ht]; rfl

/-- A run of statements begins as its first statement does. -/
theorem first_statements (h : Derives (.statements body) ts d) :
    ∀ t ∈ ts.head?, t.kind.begins = true := by
  cases h with
  | nil => simp
  | cons hs _ =>
    obtain ⟨first, others, rfl⟩ := List.exists_cons_of_ne_nil hs.ne_nil
    intro t ht
    cases ht
    exact hs.first

/-- Without tokens there are no statements. -/
theorem eq_nil_of_statements (h : Derives (.statements body) [] d) : body = [] ∧ d = 0 := by
  generalize hts : ([] : List Token) = ts at h
  cases h with
  | nil => exact ⟨rfl, rfl⟩
  | cons hs _ => exact absurd (List.append_eq_nil_iff.mp hts.symm).1 hs.ne_nil

theorem statements_append (h : Derives (.statements body) ts d)
    (h' : Derives (.statements rest) us d') :
    Derives (.statements (body ++ rest)) (ts ++ us) (max d d') := by
  induction body generalizing ts d with
  | nil => cases h; simpa using h'
  | cons s body ih =>
    cases h with
    | cons hs hb =>
      rw [List.append_assoc, Nat.max_assoc]
      exact hs.cons (ih hb)

end Derives

end Grammar

end ImpSyntax
