import ImpSyntax.Position

/-!
# Tokens

The words of the language: reserved words, marks (operators and punctuation), names and literals.
A token is a kind together with the text it was read from and the position of that text.

Main results:

* `Keyword.ofSpelling?_eq_some_iff` — a word is reserved exactly when it is spelled as one of the
  ten keywords.
* `Mark.operator?_eq_some_iff` — the operators are the marks that are no punctuation.
-/

namespace ImpSyntax

/-! ## Reserved words -/

/-- The reserved words. -/
inductive Keyword
  | printWord | ifWord | elseWord | varWord | whileWord
  | trueWord | falseWord | letWord | breakWord | continueWord
deriving DecidableEq, Repr, Inhabited

namespace Keyword

/-- Every reserved word. -/
def all : List Keyword :=
  [printWord, ifWord, elseWord, varWord, whileWord, trueWord, falseWord, letWord, breakWord,
    continueWord]

/-- The word as it is written in a program. -/
def spelling : Keyword → String
  | printWord => "print"
  | ifWord => "if"
  | elseWord => "else"
  | varWord => "var"
  | whileWord => "while"
  | trueWord => "true"
  | falseWord => "false"
  | letWord => "let"
  | breakWord => "break"
  | continueWord => "continue"

/-- The keyword written `s`, if `s` is reserved. -/
def ofSpelling? (s : String) : Option Keyword := all.find? (·.spelling == s)

/-- Whether a statement can begin with the word. -/
def startsStatement : Keyword → Bool
  | printWord | ifWord | varWord | letWord | whileWord | breakWord | continueWord => true
  | elseWord | trueWord | falseWord => false

/-- The word's name in token listings. -/
def name : Keyword → String
  | printWord => "PRINT"
  | ifWord => "IF"
  | elseWord => "ELSE"
  | varWord => "VAR"
  | whileWord => "WHILE"
  | trueWord => "TRUE"
  | falseWord => "FALSE"
  | letWord => "LET"
  | breakWord => "BREAK"
  | continueWord => "CONTINUE"

theorem mem_all (k : Keyword) : k ∈ all := by cases k <;> decide

theorem ofSpelling?_spelling (k : Keyword) : ofSpelling? k.spelling = some k := by
  cases k <;> decide

theorem ofSpelling?_eq_some_iff {s : String} {k : Keyword} :
    ofSpelling? s = some k ↔ s = k.spelling := by
  refine ⟨fun h => ?_, fun h => h ▸ ofSpelling?_spelling k⟩
  have := List.find?_some h
  exact (by simpa using this : k.spelling = s).symm

end Keyword

/-! ## Marks -/

/-- Operators and punctuation, longer spellings first. -/
inductive Mark
  | eqEq | notEq | ltEq | gtEq | orOr | andAnd
  | bang | equals | semicolon | lt | gt | openBrace | closeBrace
  | times | plus | minus | divide | openParen | closeParen
deriving DecidableEq, Repr, Inhabited

namespace Mark

/-- Every mark, in the order in which a text is matched against them. -/
def all : List Mark :=
  [eqEq, notEq, ltEq, gtEq, orOr, andAnd, bang, equals, semicolon, lt, gt, openBrace, closeBrace,
    times, plus, minus, divide, openParen, closeParen]

/-- The characters of the mark. -/
def chars : Mark → List Char
  | eqEq => ['=', '=']
  | notEq => ['!', '=']
  | ltEq => ['<', '=']
  | gtEq => ['>', '=']
  | orOr => ['|', '|']
  | andAnd => ['&', '&']
  | bang => ['!']
  | equals => ['=']
  | semicolon => [';']
  | lt => ['<']
  | gt => ['>']
  | openBrace => ['\x7b']
  | closeBrace => ['\x7d']
  | times => ['*']
  | plus => ['+']
  | minus => ['-']
  | divide => ['/']
  | openParen => ['(']
  | closeParen => [')']

/-- The mark as it is written in a program. -/
def spelling (m : Mark) : String := String.ofList m.chars

/-- Whether the mark only separates or encloses. -/
def isPunctuation : Mark → Bool
  | semicolon | openBrace | closeBrace | openParen | closeParen => true
  | _ => false

/-- The operator written `s`, if there is one; punctuation is no operator. -/
def operator? (s : String) : Option Mark :=
  all.find? fun m => !m.isPunctuation && m.spelling == s

/-- The mark's name in token listings. -/
def name : Mark → String
  | eqEq => "EQ"
  | notEq => "NE"
  | ltEq => "LE"
  | gtEq => "GE"
  | orOr => "OR"
  | andAnd => "AND"
  | bang => "NOT"
  | equals => "EQUALS"
  | semicolon => "SEMI"
  | lt => "LT"
  | gt => "GT"
  | openBrace => "LBRACE"
  | closeBrace => "RBRACE"
  | times => "TIMES"
  | plus => "PLUS"
  | minus => "MINUS"
  | divide => "DIVIDE"
  | openParen => "LPAREN"
  | closeParen => "RPAREN"

theorem mem_all (m : Mark) : m ∈ all := by cases m <;> decide

theorem chars_ne_nil (m : Mark) : m.chars ≠ [] := by cases m <;> simp [chars]

theorem operator?_eq_some_iff {s : String} {m : Mark} :
    operator? s = some m ↔ m.isPunctuation = false ∧ s = m.spelling := by
  constructor
  · intro h
    have := List.find?_some h
    simp only [Bool.and_eq_true, Bool.not_eq_true', beq_iff_eq] at this
    exact ⟨this.1, this.2.symm⟩
  · rintro ⟨hm, rfl⟩
    cases m <;> first | exact absurd hm (by decide) | decide

end Mark

/-! ## Kinds -/

/-- What a token is. -/
inductive Kind
  | ident
  | int
  | float
  | char
  | keyword (word : Keyword)
  | mark (mark : Mark)
  | eof
deriving DecidableEq, Repr, Inhabited

namespace Kind

/-- Every kind. -/
def all : List Kind :=
  [ident, int, float, char] ++ Keyword.all.map keyword ++ Mark.all.map mark ++ [eof]

/-- The kind's name in token listings. -/
def name : Kind → String
  | ident => "ID"
  | int => "INT_CONST"
  | float => "FLOAT_CONST"
  | char => "CHAR_CONST"
  | keyword w => w.name
  | mark m => m.name
  | eof => "EOF"

/-- The kind of the given name. -/
def ofName? (s : String) : Option Kind := all.find? (·.name == s)

/-- Whether a statement that is no expression begins with such a token. -/
def startsStatement : Kind → Bool
  | keyword w => w.startsStatement
  | _ => false

theorem mem_all (k : Kind) : k ∈ all := by
  cases k <;> simp [all, Keyword.mem_all, Mark.mem_all]

end Kind

/-! ## Tokens -/

/-- A piece of a text, with what it is and where it stands. -/
structure Token where
  kind : Kind
  lexeme : String
  pos : Position
deriving DecidableEq, Repr, Inhabited

namespace Token

/-- The token that stands behind the end of a text. -/
def eof (pos : Position) : Token := ⟨.eof, "", pos⟩

/-- How a message speaks of the token. -/
def describe (t : Token) : String :=
  if t.kind = .eof then "end of input" else t.lexeme

/-- The token's line in a listing. -/
def toString (t : Token) : String := s!"{t.kind.name} '{t.lexeme}' @ {t.pos}"

instance : ToString Token := ⟨Token.toString⟩

end Token

end ImpSyntax
