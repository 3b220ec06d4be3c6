import ImpSyntax.Proofs.Grammar.Sentence
import ImpSyntax.Proofs.Lexical.Spelling

/-!
# Trees that can be written down

A tree is well-formed if its names, literals and operators are such as stand in a program, and its
declarations give what has to be given. Its demand is how deep the nesting goes in its canonical
text, where parentheses stand only around the operands that need them.

Main results:

* `Program.WellFormed`, `Program.demand` — well-formed programs and the demand of their text.
* `Program.wellFormed_of_derives` — what is derived from words is well-formed.
-/

namespace ImpSyntax

open Precedence Grammar Reading

/-! ## Well-formed trees -/

/-- A name that is not reserved. -/
def IsIdentifier (name : String) : Prop := Kind.ident.Spells name.toList

/-- Whether a literal of the kind can be written so. -/
def LiteralKind.Spells : LiteralKind → String → Prop
  | int, value => IsDigits value.toList
  | float, value => IsFloat value.toList
  | char, value => IsCharConst value.toList
  | bool, value => value = "true" ∨ value = "false"

/-- The one-place operators. -/
def signSpellings : List String := ["!", "-", "+"]

/-- The two-place operators. -/
def operatorSpellings : List String :=
  ["||", "&&", "==", "!=", "<", "<=", ">", ">=", "+", "-", "*", "/"]

/-- All names, literals and operators of the expression can stand in a program. -/
def Expr.WellFormed : Expr → Prop
  | binary op l r _ => op ∈ operatorSpellings ∧ l.WellFormed ∧ r.WellFormed
  | unary op e _ => op ∈ signSpellings ∧ e.WellFormed
  | literal kind value _ => kind.Spells value
  | location name _ => IsIdentifier name

namespace Stmt

mutual

/-- The statement can stand in a program. -/
def WellFormed : Stmt → Prop
  | print e _ => e.WellFormed
  | assign name _ e _ => IsIdentifier name ∧ e.WellFormed
  | declare binding name type init _ =>
    IsIdentifier name ∧ (∀ t ∈ type, IsIdentifier t.name) ∧ (∀ e ∈ init, e.WellFormed) ∧
      Declarable binding type init
  | ifElse c thenBody elseBody _ =>
    c.WellFormed ∧ WellFormedList thenBody ∧ WellFormedElse elseBody
  | whileLoop c body _ => c.WellFormed ∧ WellFormedList body
  | jump .. => True
  | expr e _ => e.WellFormed

/-- All the statements can stand in a program. -/
def WellFormedList : List Stmt → Prop
  | [] => True
  | s :: rest => s.WellFormed ∧ WellFormedList rest

/-- The block of an `else`, if there is one, can stand in a program. -/
def WellFormedElse : Option (List Stmt) → Prop
  | none => True
  | some body => WellFormedList body

end

end Stmt

/-- All statements of the program can stand in a program. -/
def Program.WellFormed (p : Program) : Prop := Stmt.WellFormedList p.body

/-! ## Demand -/

namespace Expr

/-- The demand of an operand of the given demand, in parentheses or not. -/
def enclosedDemand (inParens : Bool) (demand : Nat) : Nat :=
  if inParens then demand + 1 else demand

/-- How many two-place operators stand bare along the left edge of the expression. -/
def spine : Expr → Nat
  | binary op l _ _ => (if l.isLooserThan (leftBound (binaryLevel op)) then 0 else l.spine) + 1
  | _ => 0

/-- How deep the nesting goes in the text of the expression. -/
def demand : Expr → Nat
  | binary op l r pos =>
    max (enclosedDemand (l.isLooserThan (leftBound (binaryLevel op))) l.demand)
      ((binary op l r pos).spine +
        enclosedDemand (r.isLooserThan (rightBound (binaryLevel op))) r.demand)
  | unary _ e _ => enclosedDemand (e.isLooserThan unaryLevel) e.demand + 1
  | literal .. | location .. => 0

end Expr

namespace Stmt

mutual

/-- How deep the nesting goes in the text of the statement. -/
def demand : Stmt → Nat
  | print e _ | assign _ _ e _ | expr e _ => e.demand
  | declare _ _ _ init _ => (init.map Expr.demand).getD 0
  | ifElse c thenBody elseBody _ =>
    max c.demand (max (demandList thenBody + 1) (demandElse elseBody))
  | whileLoop c body _ => max c.demand (demandList body + 1)
  | jump .. => 0

/-- How deep the nesting goes in the text of the statements. -/
def demandList : List Stmt → Nat
  | [] => 0
  | s :: rest => max s.demand (demandList rest)

/-- How deep the nesting goes in the text of an `else`, if there is one. -/
def demandElse : Option (List Stmt) → Nat
  | none => 0
  | some body => demandList body + 1

end

end Stmt

/-- How deep the nesting goes in the text of the program. -/
def Program.demand (p : Program) : Nat := Stmt.demandList p.body

/-! ## Operators and their levels -/

theorem mem_signSpellings_iff {op : String} :
    op ∈ signSpellings ↔ ∃ m : Mark, (Kind.mark m).isSign = true ∧ op = m.spelling := by
  constructor
  · intro h
    simp only [signSpellings, List.mem_cons, List.not_mem_nil, or_false] at h
    rcases h with rfl | rfl | rfl
    · exact ⟨.bang, rfl, rfl⟩
    · exact ⟨.minus, rfl, rfl⟩
    · exact ⟨.plus, rfl, rfl⟩
  · rintro ⟨m, sign, rfl⟩
    cases m <;> first | decide | cases sign

theorem mem_operatorSpellings_iff {op : String} :
    op ∈ operatorSpellings ↔ ∃ (m : Mark) (level : Nat), m.level? = some level ∧
      op = m.spelling := by
  constructor
  · intro h
    simp only [operatorSpellings, List.mem_cons, List.not_mem_nil, or_false] at h
    rcases h with rfl | rfl | rfl | rfl | rfl | rfl | rfl | rfl | rfl | rfl | rfl | rfl
    · exact ⟨.orOr, _, rfl, rfl⟩
    · exact ⟨.andAnd, _, rfl, rfl⟩
    · exact ⟨.eqEq, _, rfl, rfl⟩
    · exact ⟨.notEq, _, rfl, rfl⟩
    · exact ⟨.lt, _, rfl, rfl⟩
    · exact ⟨.ltEq, _, rfl, rfl⟩
    · exact ⟨.gt, _, rfl, rfl⟩
    · exact ⟨.gtEq, _, rfl, rfl⟩
    · exact ⟨.plus, _, rfl, rfl⟩
    · exact ⟨.minus, _, rfl, rfl⟩
    · exact ⟨.times, _, rfl, rfl⟩
    · exact ⟨.divide, _, rfl, rfl⟩
  · rintro ⟨m, level, found, rfl⟩
    cases m <;> first | decide | cases found

theorem binaryLevel_spelling {m : Mark} {level : Nat} (h : m.level? = some level) :
    binaryLevel m.spelling = (level, .left) := by
  have notPunctuation : m.isPunctuation = false := by
    cases m <;> first | rfl | cases h
  have found : Mark.operator? m.spelling = some m :=
    Mark.operator?_eq_some_iff.mpr ⟨notPunctuation, rfl⟩
  rw [binaryLevel, found, Option.bind_some, binaryLevel?_mark, h]
  rfl

/-- The two-place operators are marks. -/
theorem Kind.exists_mark_of_binaryLevel? {k : Kind} {level : Nat} {assoc : Assoc}
    (h : k.binaryLevel? = some (level, assoc)) : ∃ m : Mark, k = .mark m ∧ m.level? = some level := by
  cases k with
  | mark m =>
    rw [binaryLevel?_mark, Option.map_eq_some_iff] at h
    obtain ⟨level', found, same⟩ := h
    cases same
    exact ⟨m, rfl, found⟩
  | _ => rw [binaryLevel?_eq_none (by simp)] at h; cases h

theorem binaryLevel_lexeme {t : Token} {level : Nat} {assoc : Assoc}
    (h : t.kind.binaryLevel? = some (level, assoc)) (spelled : t.kind.Spells t.lexeme.toList) :
    binaryLevel t.lexeme = (level, .left) := by
  obtain ⟨m, kind, found⟩ := Kind.exists_mark_of_binaryLevel? h
  rw [Token.lexeme_mark kind spelled, binaryLevel_spelling found]

/-! ## What is derived from words -/

section Derived

variable {ts : List Token}

theorem LiteralKind.spells_of_literalKind? {k : Kind} {kind : LiteralKind} {value : String}
    (h : literalKind? k = some kind) (spelled : k.Spells value.toList) : kind.Spells value := by
  cases k with
  | int | float | char => cases h; exact spelled
  | keyword w =>
    have same : value = w.spelling := String.toList_inj.mp spelled
    cases w with
    | trueWord => cases h; exact .inl same
    | falseWord => cases h; exact .inr same
    | _ => cases h
  | _ => cases h

theorem Grammar.Phrase.wellFormed {level links demand : Nat} {e : Expr}
    (h : Phrase level ts e links demand) (spelled : ∀ t ∈ ts, t.kind.Spells t.lexeme.toList) :
    e.WellFormed := by
  induction h with
  | @name t ht =>
    have name := spelled t List.mem_cons_self
    rw [ht] at name
    exact name
  | @literal t kind ht =>
    exact LiteralKind.spells_of_literalKind? ht (spelled t List.mem_cons_self)
  | group _ _ _ ih => exact ih fun t ht => spelled t (by simp [ht])
  | @sign t ts e links demand ht _ ih =>
    refine ⟨?_, ih fun t ht => spelled t (by simp [ht])⟩
    cases kind : t.kind with
    | mark m =>
      rw [kind] at ht
      have same := Token.lexeme_mark kind (spelled t List.mem_cons_self)
      exact mem_signSpellings_iff.mpr ⟨m, ht, same⟩
    | _ => rw [kind] at ht; cases ht
  | @link level t ls rs l r n d n' d' _ op _ ihl ihr =>
    refine ⟨?_, ihl fun t ht => spelled t (by simp [ht]), ihr fun t ht => spelled t (by simp [ht])⟩
    obtain ⟨m, kind, found⟩ := Kind.exists_mark_of_binaryLevel? op
    have same := Token.lexeme_mark kind (spelled t (by simp))
    exact mem_operatorSpellings_iff.mpr ⟨m, level, found, same⟩
  | tighter _ ih => exact ih spelled

/-- What it is for the construct to stand in a program. -/
def Grammar.Construct.WellFormed : Construct → Prop
  | .statement s => s.WellFormed
  | .statements body | .block body => Stmt.WellFormedList body
  | .otherwise body => Stmt.WellFormedElse body

theorem isIdentifier_of_spells {t : Token} (h : t.kind = .ident)
    (spelled : t.kind.Spells t.lexeme.toList) : IsIdentifier t.lexeme := by
  rw [h] at spelled
  exact spelled

theorem Grammar.Derives.wellFormed {c : Construct} {demand : Nat} (h : Derives c ts demand)
    (spelled : ∀ t ∈ ts, t.kind.Spells t.lexeme.toList) : c.WellFormed := by
  induction h with
  | print _ phrase _ => exact phrase.wellFormed fun t ht => spelled t (by simp [ht])
  | assign hn _ phrase _ =>
    exact ⟨isIdentifier_of_spells hn (spelled _ (by simp)),
      phrase.wellFormed fun t ht => spelled t (by simp [ht])⟩
  | declare _ htype hn hinit given _ =>
    refine ⟨isIdentifier_of_spells hn (spelled _ (by simp)), ?_, ?_, given⟩
    · intro type is
      cases htype with
      | absent => cases is
      | present ht => cases is; exact isIdentifier_of_spells ht (spelled _ (by simp))
    · intro e is
      cases hinit with
      | absent => cases is
      | present _ phrase => cases is; exact phrase.wellFormed fun t ht => spelled t (by simp [ht])
  | jump => trivial
  | expr phrase _ => exact phrase.wellFormed fun t ht => spelled t (by simp [ht])
  | ifElse _ cond _ _ ihb ihe =>
    exact ⟨cond.wellFormed fun t ht => spelled t (by simp [ht]),
      ihb fun t ht => spelled t (by simp [ht]), ihe fun t ht => spelled t (by simp [ht])⟩
  | whileLoop _ cond _ ih =>
    exact ⟨cond.wellFormed fun t ht => spelled t (by simp [ht]),
      ih fun t ht => spelled t (by simp [ht])⟩
  | nil => trivial
  | cons _ _ ihs ihr =>
    exact ⟨ihs fun t ht => spelled t (by simp [ht]), ihr fun t ht => spelled t (by simp [ht])⟩
  | block _ _ _ ih => exact ih fun t ht => spelled t (by simp [ht])
  | absent => trivial
  | otherwise _ _ ih => exact ih fun t ht => spelled t (by simp [ht])

end Derived

theorem Program.wellFormed_of_derives {p : Program} {ts : List Token} {demand : Nat}
    (h : Derives (.statements p.body) ts demand)
    (spelled : ∀ t ∈ ts, t.kind.Spells t.lexeme.toList) : p.WellFormed :=
  h.wellFormed spelled

end ImpSyntax
