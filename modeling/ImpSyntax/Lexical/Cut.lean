import ImpSyntax.Token

/-!
# Cutting a text by lexical classes

The beginning of a text is cut off as the longest piece that lies in one of the lexical classes. A
class is recognised by its first character or two, so that the cut is a look at these and a run over
the characters that go on.

Main results:

* `Cut.text_append_rest` — the piece and what is left are together the text.
* `Cut.text_ne_nil` — a piece is never empty.
-/

namespace ImpSyntax

/-! ## Characters -/

/-- Blanks stand within a line. -/
def isBlank (c : Char) : Bool := c == ' ' || c == '\t' || c == '\r'

/-- What a word begins with: an ASCII letter or an underscore. -/
def isWordStart (c : Char) : Bool := c.isAlpha || c == '_'

/-- What a word goes on with: an ASCII letter, a digit or an underscore. -/
def isWordRest (c : Char) : Bool := c.isAlphanum || c == '_'

/-- What may stand between two quotes on one line. -/
def isQuotable (c : Char) : Bool := c != '\'' && c != '\n'

/-- The mark that a text begins with; two characters go before one. -/
def Mark.first? (cs : List Char) : Option Mark := all.find? (·.chars.isPrefixOf cs)

/-! ## Classes -/

/-- The lexical classes, earlier ones first when two of them hold the same piece. -/
inductive LexClass
  | blanks | newlines | lineComment | blockComment | openComment
  | float | int | char | malformed | openQuote | word
  | mark (m : Mark)
deriving DecidableEq, Repr, Inhabited

/-- A text in two: a first piece of some class, and the rest. -/
structure Cut where
  cls : LexClass
  text : List Char
  rest : List Char
deriving DecidableEq, Repr

namespace Cut

/-- The piece is the longest run of characters that pass the test. -/
def run (cls : LexClass) (p : Char → Bool) (cs : List Char) : Cut :=
  ⟨cls, cs.takeWhile p, cs.dropWhile p⟩

/-- Digits, and where a point and another digit follow, these digits too. -/
def number (cs : List Char) : Cut :=
  match cs.dropWhile Char.isDigit with
  | '.' :: d :: ds =>
    if d.isDigit then
      ⟨.float, cs.takeWhile Char.isDigit ++ '.' :: (d :: ds).takeWhile Char.isDigit,
        (d :: ds).dropWhile Char.isDigit⟩
    else ⟨.int, cs.takeWhile Char.isDigit, '.' :: d :: ds⟩
  | rest => ⟨.int, cs.takeWhile Char.isDigit, rest⟩

/-- Everything up to the next quote on the line, or the quote alone where the line has no other.
The text goes on with `cs` behind the opening quote. -/
def quotedSpan (cs : List Char) : Cut :=
  match cs.dropWhile isQuotable with
  | '\'' :: rest => ⟨.malformed, '\'' :: (cs.takeWhile isQuotable ++ ['\'']), rest⟩
  | _ => ⟨.openQuote, ['\''], cs⟩

/-- One character or one escape between quotes, or else a quoted span. The text goes on with `cs`
behind the opening quote. -/
def character (cs : List Char) : Cut :=
  match cs with
  | '\\' :: c :: '\'' :: rest =>
    if c = '\n' then quotedSpan cs else ⟨.char, ['\'', '\\', c, '\''], rest⟩
  | c :: '\'' :: rest =>
    if isQuotable c && c != '\\' then ⟨.char, ['\'', c, '\''], rest⟩ else quotedSpan cs
  | _ => quotedSpan cs

/-- The text up to and with the first `*/`, and the rest; `seen` holds, last one first, the
characters before. -/
def throughClose (seen : List Char) : List Char → Option (List Char × List Char)
  | '*' :: '/' :: rest => some (seen.reverse ++ ['*', '/'], rest)
  | c :: rest => throughClose (c :: seen) rest
  | [] => none

/-- A comment with its end, or the two opening characters where there is none. The text goes on
with `cs` behind these. -/
def comment (cs : List Char) : Cut :=
  match throughClose [] cs with
  | some (body, rest) => ⟨.blockComment, '/' :: '*' :: body, rest⟩
  | none => ⟨.openComment, ['/', '*'], cs⟩

/-- The longest piece of a class at the beginning of the text, if any class has one. -/
def longest? : List Char → Option Cut
  | [] => none
  | c :: cs =>
    if isBlank c then some (run .blanks isBlank (c :: cs))
    else if c = '\n' then some (run .newlines (· == '\n') (c :: cs))
    else if c.isDigit then some (number (c :: cs))
    else if isWordStart c then some (run .word isWordRest (c :: cs))
    else if c = '\'' then some (character cs)
    else match c, cs with
      | '/', '/' :: _ => some (run .lineComment (· != '\n') (c :: cs))
      | '/', '*' :: inside => some (comment inside)
      | _, _ => (Mark.first? (c :: cs)).map fun m =>
          ⟨.mark m, m.chars, (c :: cs).drop m.chars.length⟩

/-! ## The pieces make up the text -/

theorem run_append (cls : LexClass) (p : Char → Bool) (cs : List Char) :
    (run cls p cs).text ++ (run cls p cs).rest = cs := List.takeWhile_append_dropWhile

theorem run_ne_nil {cls : LexClass} {p : Char → Bool} {c : Char} {cs : List Char}
    (h : p c = true) : (run cls p (c :: cs)).text ≠ [] := by
  simp [run, h]

theorem number_append (cs : List Char) : (number cs).text ++ (number cs).rest = cs := by
  have whole := List.takeWhile_append_dropWhile (p := Char.isDigit) (l := cs)
  unfold number
  split
  · next d ds h =>
    rw [h] at whole
    split
    · simpa [List.takeWhile_append_dropWhile] using whole
    · exact whole
  · exact whole

theorem number_ne_nil {c : Char} {cs : List Char} (h : c.isDigit = true) :
    (number (c :: cs)).text ≠ [] := by
  unfold number
  split
  · split <;> simp [h]
  · simp [h]

theorem quotedSpan_append (cs : List Char) :
    (quotedSpan cs).text ++ (quotedSpan cs).rest = '\'' :: cs := by
  have whole := List.takeWhile_append_dropWhile (p := isQuotable) (l := cs)
  unfold quotedSpan
  split
  · next rest h => rw [h] at whole; simpa using whole
  · rfl

theorem quotedSpan_ne_nil (cs : List Char) : (quotedSpan cs).text ≠ [] := by
  unfold quotedSpan
  split <;> simp

theorem character_append (cs : List Char) :
    (character cs).text ++ (character cs).rest = '\'' :: cs := by
  unfold character
  split
  · split
    · exact quotedSpan_append _
    · rfl
  · split
    · rfl
    · exact quotedSpan_append _
  · exact quotedSpan_append _

theorem character_ne_nil (cs : List Char) : (character cs).text ≠ [] := by
  unfold character
  split
  · split
    · exact quotedSpan_ne_nil _
    · simp
  · split
    · simp
    · exact quotedSpan_ne_nil _
  · exact quotedSpan_ne_nil _

theorem throughClose_append {seen cs body rest : List Char}
    (h : throughClose seen cs = some (body, rest)) : body ++ rest = seen.reverse ++ cs := by
  fun_induction throughClose seen cs with
  | case1 seen rest => cases h; simp
  | case2 seen c rest _ ih => simpa using ih h
  | case3 => cases h

theorem comment_append (cs : List Char) :
    (comment cs).text ++ (comment cs).rest = '/' :: '*' :: cs := by
  unfold comment
  split
  · next body rest h => simpa using throughClose_append h
  · rfl

theorem comment_ne_nil (cs : List Char) : (comment cs).text ≠ [] := by
  unfold comment
  split <;> simp

theorem mark_isPrefixOf {cs : List Char} {m : Mark} (h : Mark.first? cs = some m) :
    m.chars <+: cs := by
  simpa using List.find?_some h

theorem text_append_rest {cs : List Char} {cut : Cut} (h : longest? cs = some cut) :
    cut.text ++ cut.rest = cs := by
  unfold longest? at h
  split at h
  · cases h
  · next c cs =>
    repeat' split at h
    all_goals try (simp only [Option.some.injEq] at h; subst h)
    · exact run_append ..
    · exact run_append ..
    · exact number_append _
    · exact run_append ..
    · next hc => rw [hc]; exact character_append _
    · exact run_append ..
    · exact comment_append _
    · simp only [Option.map_eq_some_iff] at h
      obtain ⟨m, hm, rfl⟩ := h
      obtain ⟨tail, htail⟩ := mark_isPrefixOf hm
      simp [← htail]

theorem text_ne_nil {cs : List Char} {cut : Cut} (h : longest? cs = some cut) :
    cut.text ≠ [] := by
  unfold longest? at h
  split at h
  · cases h
  · next c cs =>
    repeat' split at h
    all_goals try (simp only [Option.some.injEq] at h; subst h)
    · next hc => exact run_ne_nil hc
    · next hc => exact run_ne_nil (by simp [hc])
    · next hc => exact number_ne_nil hc
    · next hc => exact run_ne_nil (by
        simp only [isWordStart, Bool.or_eq_true] at hc
        simp only [isWordRest, Char.isAlphanum, Bool.or_eq_true]
        exact hc.imp_left .inl)
    · exact character_ne_nil _
    · exact run_ne_nil (by decide)
    · exact comment_ne_nil _
    · simp only [Option.map_eq_some_iff] at h
      obtain ⟨m, _, rfl⟩ := h
      exact m.chars_ne_nil

end Cut

end ImpSyntax
