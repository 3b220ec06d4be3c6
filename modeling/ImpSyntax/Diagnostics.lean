import ImpSyntax.Parser.Program

/-!
# Diagnostics

The reports of any number of texts, in the order in which they were made.

Main results:

* `Diagnostics.length_eq` — every report is either a lexical or a syntactic one.
-/

namespace ImpSyntax

/-- Reports, the first one first. -/
structure Diagnostics where
  reports : List Report
deriving DecidableEq, Repr, Inhabited

namespace Diagnostics

/-- No reports. -/
def empty : Diagnostics := ⟨[]⟩

/-- The diagnostics with one report more. -/
def add (d : Diagnostics) (r : Report) : Diagnostics := ⟨d.reports ++ [r]⟩

/-- How many reports there are. -/
def length (d : Diagnostics) : Nat := d.reports.length

/-- Whether there are none. -/
def isEmpty (d : Diagnostics) : Bool := d.reports.isEmpty

/-- The reports of lexical faults. -/
def lexical (d : Diagnostics) : List Report := d.reports.filter (·.isLexical)

/-- The reports of syntactic faults. -/
def syntactic (d : Diagnostics) : List Report := d.reports.filter (!·.isLexical)

/-- The reports as sentences, one on a line. -/
def toString (d : Diagnostics) : String := "\n".intercalate (d.reports.map Report.toString)

instance : ToString Diagnostics := ⟨Diagnostics.toString⟩

/-- The text is parsed and its reports are added. -/
def parse (d : Diagnostics) (source : String) : Option Program × Diagnostics :=
  let parsed := ImpSyntax.parse source
  (parsed.program?, ⟨d.reports ++ parsed.reports⟩)

theorem length_eq (d : Diagnostics) : d.length = d.lexical.length + d.syntactic.length := by
  unfold length lexical syntactic
  induction d.reports with
  | nil => rfl
  | cons r rest ih => cases h : r.isLexical <;> simp [h, ih] <;> omega

end Diagnostics

end ImpSyntax
