import ImpSyntax.Fault
import ImpSyntax.Lexical.Cut

/-!
# The pieces of a text

What one step of the scanner takes from a text, and what it makes of it: trivia that is passed over,
a token, or a fault. A fault takes away what cannot be read in a sensible way any more: the rest of
the text behind an open comment, the rest of the line behind a lone quote, one character where no
class has a piece.

Main results:

* `Piece.text_append_rest` — the piece and what is left are together the text.
* `Piece.rest_length_lt` — every step makes the text shorter.
* `Piece.induction` — so texts can be treated piece by piece.
-/

namespace ImpSyntax

/-- What a piece of text is taken for. -/
inductive Verdict
  | trivia
  | token (kind : Kind)
  | fault (fault : LexicalFault)
deriving DecidableEq, Repr

/-- A first piece of a text, what it is taken for, and the rest. -/
structure Piece where
  verdict : Verdict
  text : List Char
  rest : List Char
deriving DecidableEq, Repr

/-- The kind of a word: the keyword it spells, or else a name. -/
def Kind.ofWord (text : List Char) : Kind :=
  match Keyword.ofSpelling? (String.ofList text) with
  | some word => .keyword word
  | none => .ident

namespace Piece

/-- What becomes of a cut: the two openings without an end take more than themselves. -/
def ofCut (cut : Cut) : Piece :=
  match cut.cls with
  | .blanks | .newlines | .lineComment | .blockComment => ⟨.trivia, cut.text, cut.rest⟩
  | .openComment => ⟨.fault .unclosedComment, cut.text ++ cut.rest, []⟩
  | .float => ⟨.token .float, cut.text, cut.rest⟩
  | .int => ⟨.token .int, cut.text, cut.rest⟩
  | .char => ⟨.token .char, cut.text, cut.rest⟩
  | .malformed => ⟨.fault (.malformedChar (String.ofList cut.text)), cut.text, cut.rest⟩
  | .openQuote =>
    ⟨.fault .unclosedChar, cut.text ++ cut.rest.takeWhile (· != '\n'),
      cut.rest.dropWhile (· != '\n')⟩
  | .word => ⟨.token (.ofWord cut.text), cut.text, cut.rest⟩
  | .mark m => ⟨.token (.mark m), cut.text, cut.rest⟩

/-- The first piece of the text that begins with `c` and goes on with `cs`. -/
def first (c : Char) (cs : List Char) : Piece :=
  match Cut.longest? (c :: cs) with
  | some cut => ofCut cut
  | none => ⟨.fault (.illegal c), [c], cs⟩

theorem ofCut_append (cut : Cut) : (ofCut cut).text ++ (ofCut cut).rest = cut.text ++ cut.rest := by
  unfold ofCut
  split <;> simp [List.takeWhile_append_dropWhile]

theorem ofCut_ne_nil {cut : Cut} (h : cut.text ≠ []) : (ofCut cut).text ≠ [] := by
  unfold ofCut
  split <;> simp [h]

theorem text_append_rest (c : Char) (cs : List Char) :
    (first c cs).text ++ (first c cs).rest = c :: cs := by
  unfold first
  split
  · next cut h => rw [ofCut_append, Cut.text_append_rest h]
  · rfl

theorem text_ne_nil (c : Char) (cs : List Char) : (first c cs).text ≠ [] := by
  unfold first
  split
  · next cut h => exact ofCut_ne_nil (Cut.text_ne_nil h)
  · simp

theorem rest_length_lt (c : Char) (cs : List Char) :
    (first c cs).rest.length < (c :: cs).length := by
  have whole := congrArg List.length (text_append_rest c cs)
  have nonempty := List.length_pos_iff.2 (text_ne_nil c cs)
  simp only [List.length_append] at whole
  omega

/-- Induction piece by piece: what holds of the rest behind the first piece holds of the text. -/
@[elab_as_elim]
theorem induction {motive : List Char → Prop} (nil : motive [])
    (piece : ∀ c cs, motive (first c cs).rest → motive (c :: cs)) (text : List Char) :
    motive text := by
  induction len : text.length using Nat.strongRecOn generalizing text with
  | ind n ih =>
    subst len
    cases text with
    | nil => exact nil
    | cons c cs => exact piece c cs (ih _ (rest_length_lt c cs) _ rfl)

end Piece

end ImpSyntax
