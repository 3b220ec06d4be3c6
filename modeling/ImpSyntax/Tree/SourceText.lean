import ImpSyntax.Precedence
import ImpSyntax.Tree.Basic

/-!
# Canonical source text

A tree written down as a program: one statement per line, blocks indented with tabs, and parentheses
only where the tree groups differently from what the levels of the operators say.

Main results:

* `Expr.source`, `Stmt.lines`, `Program.source` — the text of a tree.
* `Program.source_eq_join` — a program that is not empty is written as its lines, each with a
  newline behind it.
-/

namespace ImpSyntax

open Precedence

/-! ## Expressions -/

/-- The level of the two-place operator written `op` and how it groups; what is no such operator
binds more loosely than all of them. -/
def binaryLevel (op : String) : Nat × Assoc :=
  ((Mark.operator? op).bind fun m => (Kind.mark m).binaryLevel?).getD (0, .left)

namespace Expr

/-- Whether the outermost operator has a level below `level`; names and literals have none. -/
def isLooserThan (level : Nat) : Expr → Bool
  | binary op .. => (binaryLevel op).1 < level
  | unary .. => unaryLevel < level
  | literal .. | location .. => false

/-- The text of an operand, in parentheses or not. -/
def enclosed (inParens : Bool) (text : String) : String :=
  if inParens then "(" ++ text ++ ")" else text

/-- The least level that stands bare on the left of an operator. -/
def leftBound : Nat × Assoc → Nat
  | (level, .left) => level
  | (level, .right) => level + 1

/-- The least level that stands bare on the right of an operator. -/
def rightBound : Nat × Assoc → Nat
  | (level, .left) => level + 1
  | (level, .right) => level

/-- The expression as it is written in a program. -/
def source : Expr → String
  | literal _ value _ => value
  | location name _ => name
  | unary op e _ => op ++ enclosed (e.isLooserThan unaryLevel) e.source
  | binary op l r _ =>
    enclosed (l.isLooserThan (leftBound (binaryLevel op))) l.source ++ " " ++ op ++ " " ++
      enclosed (r.isLooserThan (rightBound (binaryLevel op))) r.source

end Expr

/-! ## Statements -/

/-- The word that a declaration begins with. -/
def Binding.word : Binding → Keyword
  | var => .varWord
  | const => .letWord

/-- The word that a jump consists of. -/
def Jump.word : Jump → Keyword
  | leave => .breakWord
  | again => .continueWord

namespace Stmt

/-- A line inside as many blocks as `indent` says. -/
def indented (indent : Nat) (text : String) : String :=
  String.ofList (List.replicate indent '\t') ++ text

/-- A declaration on one line. -/
def declaration (binding : Binding) (name : String) (type : Option TypeName)
    (init : Option Expr) : String :=
  binding.word.spelling ++ (type.map fun t => " " ++ t.name).getD "" ++ " " ++ name ++
    (init.map fun e => " = " ++ e.source).getD "" ++ ";"

mutual

/-- The lines of the statement, without their newlines. -/
def lines (indent : Nat) : Stmt → List String
  | print e _ => [indented indent ("print " ++ e.source ++ ";")]
  | assign name _ e _ => [indented indent (name ++ " = " ++ e.source ++ ";")]
  | declare binding name type init _ => [indented indent (declaration binding name type init)]
  | ifElse c thenBody none _ =>
    indented indent ("if " ++ c.source ++ " \x7b") :: linesList (indent + 1) thenBody ++
      [indented indent "\x7d"]
  | ifElse c thenBody (some elseBody) _ =>
    indented indent ("if " ++ c.source ++ " \x7b") :: linesList (indent + 1) thenBody ++
      indented indent "\x7d else \x7b" :: linesList (indent + 1) elseBody ++
        [indented indent "\x7d"]
  | whileLoop c body _ =>
    indented indent ("while " ++ c.source ++ " \x7b") :: linesList (indent + 1) body ++
      [indented indent "\x7d"]
  | jump j _ => [indented indent (j.word.spelling ++ ";")]
  | expr e _ => [indented indent (e.source ++ ";")]

/-- The lines of the statements, one statement after the other. -/
def linesList (indent : Nat) : List Stmt → List String
  | [] => []
  | s :: rest => s.lines indent ++ linesList indent rest

end

end Stmt

/-! ## Programs -/

namespace Program

/-- The program's text: its lines, or an empty line if it has none. -/
def source (p : Program) : String :=
  match Stmt.linesList 0 p.body with
  | [] => "\n"
  | lines => String.join (lines.map (· ++ "\n"))

theorem source_eq_join {p : Program} (h : Stmt.linesList 0 p.body ≠ []) :
    p.source = String.join ((Stmt.linesList 0 p.body).map (· ++ "\n")) := by
  unfold source
  split
  · next empty => exact absurd empty h
  · rfl

end Program

end ImpSyntax
