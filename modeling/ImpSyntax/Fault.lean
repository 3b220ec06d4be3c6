import ImpSyntax.Token
import ImpSyntax.Precedence
import ImpSyntax.Text.Quoted

/-!
# Faults and reports

What can be wrong with a text: lexical faults are found while it is cut into tokens, syntactic
faults while the tokens are put together. A report is a fault and where it is. Not all that goes
wrong is reported; an incident says what went wrong, and whether it was.

Main results:

* `LexicalFault.message`, `SyntaxFault.message` — the wording of every fault.
* `Report.toString`, `Report.line` — the two ways in which a report is written down.
-/

namespace ImpSyntax

/-! ## Lexical faults -/

/-- Why a piece of text is no token. -/
inductive LexicalFault
  | illegal (c : Char)
  | unclosedComment
  | unclosedChar
  | malformedChar (text : String)
deriving DecidableEq, Repr

/-- The wording of the fault. -/
def LexicalFault.message : LexicalFault → String
  | illegal c => "Illegal character " ++ Text.quoted c
  | unclosedComment => "Unterminated comment"
  | unclosedChar => "Unterminated character constant"
  | malformedChar text => "Malformed character constant " ++ text

/-! ## Syntactic faults -/

/-- What a rule asks for next. -/
inductive Expectation
  | semicolon | equals | openBrace | closeBrace | closeParen | identifier | expression
deriving DecidableEq, Repr

/-- How a message speaks of what is asked for. -/
def Expectation.describe : Expectation → String
  | semicolon => "';'"
  | equals => "'='"
  | openBrace => "'\x7b'"
  | closeBrace => "'\x7d'"
  | closeParen => "')'"
  | identifier => "identifier"
  | expression => "expression"

/-- Why a token cannot stand where it does. -/
inductive SyntaxFault
  | missing (expected : Expectation) (found : String)
  | unexpectedEnd (expected : Expectation)
  | unexpectedToken (found : String)
  | invalidTarget
  | tooDeep
deriving DecidableEq, Repr

namespace SyntaxFault

/-- The wording of the fault. -/
def message : SyntaxFault → String
  | missing expected found => s!"expected {expected.describe}, got '{found}'"
  | unexpectedEnd expected => s!"unexpected end of input, expected {expected.describe}"
  | unexpectedToken found => s!"syntax error near the symbol '{found}'"
  | invalidTarget => "left-hand side of '=' must be a location"
  | tooDeep => s!"nesting exceeds {Precedence.maxNesting} levels"

/-- The fault of finding `t` where `expected` has to be. -/
def insteadOf (expected : Expectation) (t : Token) : SyntaxFault :=
  if t.kind = .eof then unexpectedEnd expected else missing expected t.lexeme

end SyntaxFault

/-! ## Reports -/

/-- Any fault. -/
inductive Fault
  | lexical (fault : LexicalFault)
  | syntactic (fault : SyntaxFault)
deriving DecidableEq, Repr

/-- The wording of the fault. -/
def Fault.message : Fault → String
  | lexical fault => fault.message
  | syntactic fault => fault.message

/-- Whether the fault lies in the characters and not in the order of the tokens. -/
def Fault.isLexical : Fault → Bool
  | lexical _ => true
  | syntactic _ => false

/-- A fault and where it is. -/
structure Report where
  fault : Fault
  pos : Position
deriving DecidableEq, Repr

namespace Report

/-- The wording of the fault, without its position. -/
def message (r : Report) : String := r.fault.message

/-- Whether the fault is a lexical one. -/
def isLexical (r : Report) : Bool := r.fault.isLexical

/-- The report as a sentence. -/
def toString (r : Report) : String :=
  s!"{r.message} at line {r.pos.line}, column {r.pos.column}"

instance : ToString Report := ⟨Report.toString⟩

/-- The report as a line of a log. -/
def line (r : Report) : String :=
  let label := if r.isLexical then "Lexical error" else "Syntax error"
  s!"{label}: {r.message} at {r.pos}"

end Report

/-! ## Incidents -/

/-- A statement that failed: the places of its first token and of the token at which it failed, that
token, the fault, and whether it was reported. -/
structure Failure where
  first : Nat
  place : Nat
  token : Token
  fault : SyntaxFault
  heard : Bool
deriving DecidableEq, Repr

/-- What can go wrong in a text. -/
inductive Incident
  | lexical (reason : LexicalFault) (pos : Position)
  | failure (failure : Failure)
deriving DecidableEq, Repr

namespace Incident

/-- What is reported of the incident. -/
def report? : Incident → Option Report
  | lexical reason pos => some ⟨.lexical reason, pos⟩
  | failure f => if f.heard then some ⟨.syntactic f.fault, f.token.pos⟩ else none

/-- The incident with its places numbered in another way. -/
def renumber (number : Nat → Nat) : Incident → Incident
  | lexical reason pos => lexical reason pos
  | failure f => failure { f with first := number f.first, place := number f.place }

end Incident

end ImpSyntax
