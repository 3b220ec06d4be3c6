import ImpSyntax.Parser.Statement

/-!
# Parsing

A text is parsed by feeding its items to a parser, from the first one to the end. All faults are
reported in one go; a program comes out only where there are none.

Main results:

* `Parsed.program?_eq_none_iff` — a text is rejected exactly when something was reported.
-/

namespace ImpSyntax

/-- What comes of a text: its statements, the position of its first token, and the reports in the
order in which they were made. -/
structure Parsed where
  program : Program
  reports : List Report
deriving DecidableEq, Repr

namespace Parsed

/-- The program, if nothing was reported. -/
def program? (p : Parsed) : Option Program := if p.reports.isEmpty then some p.program else none

theorem program?_eq_none_iff {p : Parsed} : p.program? = none ↔ p.reports ≠ [] := by
  simp [program?]

theorem program?_eq_some_iff {p : Parsed} {program : Program} :
    p.program? = some program ↔ p.reports = [] ∧ p.program = program := by
  simp [program?]

end Parsed

/-- The position of the first item. -/
def Item.firstPos (items : List Item) : Position := (items.head?.map Item.pos).getD .unknown

/-- The program that the items make up. -/
def Parser.run (items : List Item) : Parsed :=
  let parser := items.foldl feed start
  ⟨⟨parser.body.reverse, Item.firstPos items⟩, parser.reports.reverse⟩

/-- The program that the text makes up. -/
def parse (source : String) : Parsed := Parser.run (tokenize source)

end ImpSyntax
