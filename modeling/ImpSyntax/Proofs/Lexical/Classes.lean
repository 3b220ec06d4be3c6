import Mathlib.Data.List.Basic
import ImpSyntax.Proofs.Lexical.Tiling

/-!
# The lexical classes

Each class as the set of the texts that lie in it, and the order in which the classes are declared.
The first character of a text tells apart six groups of classes, so that few of them compete at any
place of a text.

Main results:

* `LexClass.place_inj` — the order tells any two classes apart.
* `LexClass.Contains.opening` — the first character of a text in a class gives the group of the class.
-/

namespace ImpSyntax

/-! ## Classes as sets of texts -/

/-- A quote, characters that are neither quotes nor newlines, and a quote. -/
def IsQuotedSpan (text : List Char) : Prop :=
  ∃ body, text = '\'' :: (body ++ ['\'']) ∧ ∀ c ∈ body, isQuotable c = true

namespace LexClass

/-- The classes in the order in which they are declared. -/
def declared : List LexClass :=
  [blanks, newlines, lineComment, blockComment, openComment, float, int, char, malformed, openQuote,
    word] ++ Mark.all.map mark

/-- The place of the class among all classes. -/
def place (cls : LexClass) : Nat := declared.idxOf cls

/-- Whether the text lies in the class. -/
def Contains : LexClass → List Char → Prop
  | blanks, text => text ≠ [] ∧ ∀ c ∈ text, isBlank c = true
  | newlines, text => text ≠ [] ∧ ∀ c ∈ text, c = '\n'
  | lineComment, text => ∃ body, text = '/' :: '/' :: body ∧ '\n' ∉ body
  | blockComment, text => ∃ body, text = '/' :: '*' :: (body ++ ['*', '/']) ∧ NoClose body
  | openComment, text => text = ['/', '*']
  | float, text => IsFloat text
  | int, text => IsDigits text
  | char, text => IsCharConst text
  | malformed, text => IsQuotedSpan text
  | openQuote, text => text = ['\'']
  | word, text => IsName text
  | mark m, text => text = m.chars

theorem mem_declared (cls : LexClass) : cls ∈ declared := by
  cases cls with
  | mark m => exact List.mem_append_right _ (List.mem_map_of_mem m.mem_all)
  | _ => decide

theorem place_inj {a b : LexClass} (h : a.place = b.place) : a = b :=
  (List.idxOf_inj a.mem_declared).mp h

end LexClass

/-! ## Which characters begin which classes -/

/-- The ways in which a text can begin that tell the classes apart. -/
inductive Opening
  | blank | newline | digit | letter | quote | other
deriving DecidableEq, Repr

/-- The way in which a text begins with the character. -/
def Opening.of (c : Char) : Opening :=
  if isBlank c then blank else if c = '\n' then newline else if c.isDigit then digit
  else if isWordStart c then letter else if c = '\'' then quote else other

/-- The way in which the texts of the class begin. -/
def LexClass.opening : LexClass → Opening
  | blanks => .blank
  | newlines => .newline
  | float | int => .digit
  | word => .letter
  | char | malformed | openQuote => .quote
  | lineComment | blockComment | openComment | mark _ => .other

namespace Opening

theorem of_digit {c : Char} (h : c.isDigit = true) : of c = digit := by
  obtain ⟨notBlank, notNewline⟩ := isDigit_apart h
  simp [of, notBlank, notNewline, h]

theorem of_letter {c : Char} (h : isWordStart c = true) : of c = letter := by
  obtain ⟨notBlank, notNewline, notDigit⟩ := isWordStart_apart h
  simp [of, notBlank, notNewline, notDigit, h]

theorem of_mark (m : Mark) {c : Char} {rest : List Char} (h : m.chars = c :: rest) :
    of c = other := by
  cases m <;> cases h <;> rfl

end Opening

namespace LexClass

/-- No text of a class is empty, and the first character tells how the class begins. -/
theorem Contains.opening {cls : LexClass} {text : List Char} (h : cls.Contains text) :
    ∃ c rest, text = c :: rest ∧ Opening.of c = cls.opening := by
  have digits : ∀ {ds : List Char}, IsDigits ds → ∃ c rest, ds = c :: rest ∧ Opening.of c = .digit := by
    rintro ds ⟨nonempty, all⟩
    obtain ⟨c, rest, rfl⟩ := List.exists_cons_of_ne_nil nonempty
    exact ⟨c, rest, rfl, Opening.of_digit (all c List.mem_cons_self)⟩
  cases cls with
  | blanks =>
    obtain ⟨nonempty, all⟩ := h
    obtain ⟨c, rest, rfl⟩ := List.exists_cons_of_ne_nil nonempty
    exact ⟨c, rest, rfl, if_pos (all c List.mem_cons_self)⟩
  | newlines =>
    obtain ⟨nonempty, all⟩ := h
    obtain ⟨c, rest, rfl⟩ := List.exists_cons_of_ne_nil nonempty
    cases all c List.mem_cons_self
    exact ⟨'\n', rest, rfl, rfl⟩
  | lineComment | blockComment | malformed =>
    obtain ⟨body, rfl, -⟩ := h
    exact ⟨_, _, rfl, rfl⟩
  | openComment | openQuote =>
    cases h
    exact ⟨_, _, rfl, rfl⟩
  | int => exact digits h
  | float =>
    obtain ⟨whole, part, rfl, isWhole, -⟩ := h
    obtain ⟨c, rest, rfl, begins⟩ := digits isWhole
    exact ⟨c, _, rfl, begins⟩
  | char =>
    rcases h with ⟨c, rfl, -⟩ | ⟨c, rfl, -⟩
    · exact ⟨_, _, rfl, rfl⟩
    · exact ⟨_, _, rfl, rfl⟩
  | word =>
    cases text with
    | nil => exact h.elim
    | cons c rest => exact ⟨c, rest, rfl, Opening.of_letter h.1⟩
  | mark m =>
    obtain ⟨c, rest, chars⟩ := List.exists_cons_of_ne_nil m.chars_ne_nil
    exact ⟨c, rest, h.trans chars, Opening.of_mark m chars⟩

end LexClass

end ImpSyntax
