import ImpSyntax.Proofs.Lexical.Words
import ImpSyntax.Tree.SourceText

/-!
# The words of a tree

A tree is laid out from left to right as words: its keywords, names, operators and literals, with the
marks that separate and enclose them, and with parentheses around the operands that need them. No
spelling, spacing or position takes part in this.

Main results:

* `Expr.words`, `Stmt.words`, `Program.words` — the words of a tree.
* `operatorWord_sign`, `operatorWord_level`, `LiteralKind.wordKind_eq` — the words of operators and
  literals are those that stand in a program.
-/

namespace ImpSyntax

open Precedence Reading

/-! ## Single words -/

/-- The name as a word. -/
def nameWord (name : String) : Token := ⟨.ident, name, .unknown⟩

theorem Token.erase_keyword {t : Token} {w : Keyword} (h : t.kind = .keyword w)
    (spelled : t.kind.Spells t.lexeme.toList) : t.erase = w.token := by
  rw [Token.erase, Token.relocate, h, Token.lexeme_keyword h spelled]
  rfl

theorem Token.erase_mark {t : Token} {m : Mark} (h : t.kind = .mark m)
    (spelled : t.kind.Spells t.lexeme.toList) : t.erase = m.token := by
  rw [Token.erase, Token.relocate, h, Token.lexeme_mark h spelled]
  rfl

/-- The operator written `op` as a word; what is no operator is taken for a name. -/
def operatorWord (op : String) : Token := ((Mark.operator? op).map Mark.token).getD (nameWord op)

theorem operatorWord_spelling {m : Mark} (h : m.isPunctuation = false) :
    operatorWord m.spelling = m.token := by
  rw [operatorWord, Mark.operator?_eq_some_iff.mpr ⟨h, rfl⟩]
  rfl

theorem operatorWord_sign {m : Mark} (h : (Kind.mark m).isSign = true) :
    operatorWord m.spelling = m.token :=
  operatorWord_spelling (by cases m <;> first | rfl | cases h)

theorem operatorWord_level {m : Mark} {level : Nat} (h : m.level? = some level) :
    operatorWord m.spelling = m.token :=
  operatorWord_spelling (by cases m <;> first | rfl | cases h)

/-- What kind of word a literal is. -/
def LiteralKind.wordKind : LiteralKind → String → Kind
  | int, _ => .int
  | float, _ => .float
  | char, _ => .char
  | bool, value => .ofWord value.toList

theorem LiteralKind.wordKind_eq {k : Kind} {kind : LiteralKind} {value : String}
    (h : literalKind? k = some kind) (spelled : k.Spells value.toList) :
    kind.wordKind value = k := by
  cases k with
  | int | float | char => cases h; rfl
  | keyword w =>
    have same : value.toList = w.spelling.toList := spelled
    cases w with
    | trueWord | falseWord => cases h; rw [wordKind, same, Kind.ofWord_spelling]
    | _ => cases h
  | _ => cases h

/-! ## Expressions -/

namespace Expr

/-- The words of an operand, in parentheses or not. -/
def enclosedWords (inParens : Bool) (ts : List Token) : List Token :=
  if inParens then Mark.openParen.token :: (ts ++ [Mark.closeParen.token]) else ts

/-- The words of the expression. -/
def words : Expr → List Token
  | literal kind value _ => [⟨kind.wordKind value, value, .unknown⟩]
  | location name _ => [nameWord name]
  | unary op e _ => operatorWord op :: enclosedWords (e.isLooserThan unaryLevel) e.words
  | binary op l r _ =>
    enclosedWords (l.isLooserThan (leftBound (binaryLevel op))) l.words ++
      operatorWord op :: enclosedWords (r.isLooserThan (rightBound (binaryLevel op))) r.words

end Expr

/-! ## Statements -/

namespace Stmt

/-- The words of the type in front of a name that is declared, if there is one. -/
def typeWords : Option TypeName → List Token
  | none => []
  | some type => [nameWord type.name]

/-- The words of the value behind a name that is declared, if there is one. -/
def initWords : Option Expr → List Token
  | none => []
  | some e => Mark.equals.token :: e.words

/-- The words of a block around those of its statements. -/
def blockWords (ts : List Token) : List Token :=
  Mark.openBrace.token :: (ts ++ [Mark.closeBrace.token])

mutual

/-- The words of the statement. -/
def words : Stmt → List Token
  | print e _ => Keyword.printWord.token :: (e.words ++ [Mark.semicolon.token])
  | assign name _ e _ =>
    nameWord name :: Mark.equals.token :: (e.words ++ [Mark.semicolon.token])
  | declare binding name type init _ =>
    binding.word.token ::
      (typeWords type ++ nameWord name :: (initWords init ++ [Mark.semicolon.token]))
  | ifElse c thenBody elseBody _ =>
    Keyword.ifWord.token :: (c.words ++ (blockWords (wordsList thenBody) ++ wordsElse elseBody))
  | whileLoop c body _ => Keyword.whileWord.token :: (c.words ++ blockWords (wordsList body))
  | jump j _ => [j.word.token, Mark.semicolon.token]
  | expr e _ => e.words ++ [Mark.semicolon.token]

/-- The words of the statements, one statement after the other. -/
def wordsList : List Stmt → List Token
  | [] => []
  | s :: rest => s.words ++ wordsList rest

/-- The words of an `else` and its block, if there is one. -/
def wordsElse : Option (List Stmt) → List Token
  | none => []
  | some body => Keyword.elseWord.token :: blockWords (wordsList body)

end

end Stmt

/-- The words of the program. -/
def Program.words (p : Program) : List Token := Stmt.wordsList p.body

end ImpSyntax
