import ImpSyntax.Parser.Expression

/-!
# The grammar of expressions

Expressions are derived level by level. A phrase of a level is a chain of two-place operators of that
level, with phrases of the next level between them; the tightest phrases are operators in front of an
operand, parentheses, names and literals. Beside the tree a derivation gives two counts: the links of
the chain that stands bare at the left end of the phrase, and the demand, which is how deep the
nesting goes inside the phrase. A parenthesis and an operator in front of its operand add one level
each; the right side of the `i`-th link of a chain stands `i` levels deeper than the chain.

Main results:

* `Phrase.mono` — a phrase of some level is one of every looser level.
* `Phrase.links_le_demand` — every link of the bare chain counts.
* `Phrase.eq_singleton_of_location` — only a name alone, or in parentheses, is read as a name.
-/

namespace ImpSyntax

open Precedence Reading

/-- The levels of the two-place operators lie below that of the operators in front of an operand. -/
theorem Kind.binaryLevel?_bounds {k : Kind} {level : Nat} {assoc : Assoc}
    (h : k.binaryLevel? = some (level, assoc)) : loosest ≤ level ∧ level < unaryLevel := by
  cases k with
  | mark m =>
    rw [binaryLevel?_mark, Option.map_eq_some_iff] at h
    obtain ⟨level', found, same⟩ := h
    cases same
    cases m <;> cases found <;> decide
  | _ => rw [binaryLevel?_eq_none (by simp)] at h; cases h

/-- Whether an operand can begin with a token of the kind: an operator in front of its operand, an
opening parenthesis, a name or a literal. -/
def Kind.startsOperand (k : Kind) : Bool :=
  k.isSign || k == .mark .openParen || k == .ident || (literalKind? k).isSome

/-- Whether an expression can go on with a token of the kind: with an operand, a two-place operator or
the end of a parenthesis. -/
def Kind.inExpression (k : Kind) : Bool :=
  k.startsOperand || k.binaryLevel?.isSome || k == .mark .closeParen

/-- Whether a statement can begin with a token of the kind. -/
def Kind.begins (k : Kind) : Bool := k.startsStatement || k.startsOperand

theorem Kind.not_startsStatement_of_startsOperand {k : Kind} (h : k.startsOperand = true) :
    k.startsStatement = false := by
  cases k with
  | keyword w => cases w <;> first | rfl | cases h
  | _ => rfl

theorem Kind.begins_of_startsOperand {k : Kind} (h : k.startsOperand = true) :
    k.begins = true := by
  rw [begins, h, Bool.or_true]

/-- A statement begins neither with the end of the text or of a block, nor with an `else`. -/
theorem Kind.ne_of_begins {k : Kind} (h : k.begins = true) :
    k ≠ .eof ∧ k ≠ .mark .closeBrace ∧ k ≠ .keyword .elseWord := by
  refine ⟨?_, ?_, ?_⟩ <;> rintro rfl <;> cases h

namespace Grammar

/-- The position at which a run of tokens begins. -/
def startOf (ts : List Token) : Position := (ts.head?.map Token.pos).getD .unknown

@[simp] theorem startOf_cons (t : Token) (ts : List Token) : startOf (t :: ts) = t.pos := rfl

theorem startOf_append {ts : List Token} (h : ts ≠ []) (us : List Token) :
    startOf (ts ++ us) = startOf ts := by
  obtain ⟨t, rest, rfl⟩ := List.exists_cons_of_ne_nil h
  rfl

/-- `Phrase level ts e links demand`: the tokens `ts` are an expression of level `level` or tighter,
with the tree `e`. -/
inductive Phrase : Nat → List Token → Expr → Nat → Nat → Prop
  | name {t : Token} : t.kind = .ident → Phrase unaryLevel [t] (.location t.lexeme t.pos) 0 0
  | literal {t : Token} {kind : LiteralKind} : literalKind? t.kind = some kind →
      Phrase unaryLevel [t] (.literal kind t.lexeme t.pos) 0 0
  | group {o c : Token} {ts : List Token} {e : Expr} {links demand : Nat} :
      o.kind = .mark .openParen → Phrase loosest ts e links demand →
      c.kind = .mark .closeParen → Phrase unaryLevel (o :: (ts ++ [c])) e 0 (demand + 1)
  | sign {t : Token} {ts : List Token} {e : Expr} {links demand : Nat} :
      t.kind.isSign = true → Phrase unaryLevel ts e links demand →
      Phrase unaryLevel (t :: ts) (.unary t.lexeme e t.pos) 0 (demand + 1)
  | link {level : Nat} {t : Token} {ls rs : List Token} {l r : Expr} {n d n' d' : Nat} :
      Phrase level ls l n d → t.kind.binaryLevel? = some (level, .left) →
      Phrase (level + 1) rs r n' d' →
      Phrase level (ls ++ t :: rs) (.binary t.lexeme l r (startOf ls)) (n + 1)
        (max d (n + 1 + d'))
  | tighter {level : Nat} {ts : List Token} {e : Expr} {links demand : Nat} :
      Phrase (level + 1) ts e links demand → Phrase level ts e links demand

namespace Phrase

variable {level : Nat} {ts : List Token} {e : Expr} {links demand : Nat}

theorem ne_nil (h : Phrase level ts e links demand) : ts ≠ [] := by
  induction h with
  | tighter _ ih => exact ih
  | _ => simp

theorem first {t : Token} {rest : List Token} (h : Phrase level (t :: rest) e links demand) :
    t.kind.startsOperand = true := by
  generalize hts : t :: rest = ts at h
  induction h generalizing rest with
  | name ht => cases hts; rw [ht]; rfl
  | literal ht => cases hts; simp [Kind.startsOperand, ht]
  | group ho => cases hts; rw [ho]; rfl
  | sign ht => cases hts; simp [Kind.startsOperand, ht]
  | link left _ _ ih _ =>
    obtain ⟨first, others, rfl⟩ := List.exists_cons_of_ne_nil left.ne_nil
    cases hts
    exact ih rfl
  | tighter _ ih => exact ih hts

theorem mono (h : Phrase level ts e links demand) {looser : Nat} (le : looser ≤ level) :
    Phrase looser ts e links demand := by
  obtain ⟨k, rfl⟩ := Nat.exists_eq_add_of_le le
  induction k with
  | zero => exact h
  | succ k ih => exact ih h.tighter (Nat.le_add_right _ _)

theorem links_le_demand (h : Phrase level ts e links demand) : links ≤ demand := by
  induction h with
  | link _ _ _ ihl ihr => omega
  | tighter _ ih => exact ih
  | _ => omega

theorem links_eq_zero (h : Phrase level ts e links demand) (tight : unaryLevel ≤ level) :
    links = 0 := by
  induction h with
  | link _ op _ _ _ => exact absurd (Kind.binaryLevel?_bounds op).2 (by omega)
  | tighter _ ih => exact ih (by omega)
  | _ => rfl

/-- An expression that is read as a name and begins with a name is that name alone. -/
theorem eq_singleton_of_location {t : Token} {rest : List Token} {name : String} {pos : Position}
    (h : Phrase level (t :: rest) (.location name pos) links demand) (ht : t.kind = .ident) :
    rest = [] ∧ name = t.lexeme ∧ pos = t.pos := by
  generalize hts : t :: rest = ts at h
  generalize he : Expr.location name pos = e at h
  induction h with
  | name => cases hts; cases he; exact ⟨rfl, rfl, rfl⟩
  | group ho => cases hts; rw [ht] at ho; cases ho
  | tighter _ ih => exact ih hts he
  | literal => cases he
  | sign => cases he
  | link => cases he

end Phrase

end Grammar

end ImpSyntax
