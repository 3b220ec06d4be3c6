import Mathlib.Tactic.ByContra
import Mathlib.Tactic.SplitIfs
import ImpSyntax.Lexical.Piece

/-!
# What tokens look like

Every kind of token has its spellings, and what stands behind a token has to keep apart from it: a
word ends where no letter, digit or underscore follows, a mark where no character follows that would
make a longer mark of it. A text that begins with a spelling and keeps apart from the rest is cut
behind that spelling, and what is cut off as a token is a spelling of its kind.

Main results:

* `Piece.first_of_spells` — a spelling that keeps apart is read as a token of its kind.
* `Piece.spells_of_first` — what is read as a token is a spelling of its kind.
-/

namespace ImpSyntax

/-! ## Spellings -/

/-- A letter or an underscore, and letters, digits and underscores behind it. -/
def IsName : List Char → Prop
  | c :: cs => isWordStart c = true ∧ ∀ d ∈ cs, isWordRest d = true
  | [] => False

/-- One digit or more. -/
def IsDigits (text : List Char) : Prop := text ≠ [] ∧ ∀ d ∈ text, d.isDigit = true

/-- Digits, a point, and digits. -/
def IsFloat (text : List Char) : Prop :=
  ∃ whole part, text = whole ++ '.' :: part ∧ IsDigits whole ∧ IsDigits part

/-- Between two quotes one character that is neither quote, backslash nor newline, or a backslash and
any character but the newline. -/
def IsCharConst (text : List Char) : Prop :=
  (∃ c, text = ['\'', c, '\''] ∧ isQuotable c = true ∧ c ≠ '\\') ∨
    ∃ c, text = ['\'', '\\', c, '\''] ∧ c ≠ '\n'

theorem isDigits_singleton {c : Char} (h : c.isDigit = true) : IsDigits [c] :=
  ⟨List.cons_ne_nil c [], fun _ hd => List.mem_singleton.mp hd ▸ h⟩

/-- Whether a token of the kind can be written so. -/
def Kind.Spells : Kind → List Char → Prop
  | ident, text => IsName text ∧ ∀ w : Keyword, text ≠ w.spelling.toList
  | int, text => IsDigits text
  | float, text => IsFloat text
  | char, text => IsCharConst text
  | keyword w, text => text = w.spelling.toList
  | mark m, text => text = m.chars
  | eof, _ => False

theorem Token.lexeme_keyword {t : Token} {w : Keyword} (h : t.kind = .keyword w)
    (spelled : t.kind.Spells t.lexeme.toList) : t.lexeme = w.spelling := by
  rw [h] at spelled
  exact String.toList_inj.mp spelled

theorem Token.lexeme_mark {t : Token} {m : Mark} (h : t.kind = .mark m)
    (spelled : t.kind.Spells t.lexeme.toList) : t.lexeme = m.spelling := by
  rw [h] at spelled
  rw [Mark.spelling, ← spelled, String.ofList_toList]

/-- Only a mark can begin with the sign of an assignment. -/
theorem Kind.Spells.begins {k : Kind} {text : List Char} (h : k.Spells text)
    (notMark : ∀ m, k ≠ .mark m) : ∃ c cs, text = c :: cs ∧ c ≠ '=' := by
  have digits : ∀ {text : List Char}, IsDigits text → ∃ c cs, text = c :: cs ∧ c ≠ '=' := by
    rintro text ⟨nonempty, all⟩
    obtain ⟨c, cs, rfl⟩ := List.exists_cons_of_ne_nil nonempty
    refine ⟨c, cs, rfl, ?_⟩
    rintro rfl
    exact absurd (all '=' List.mem_cons_self) (by decide)
  cases k with
  | ident =>
    cases text with
    | nil => exact h.1.elim
    | cons c cs =>
      refine ⟨c, cs, rfl, ?_⟩
      rintro rfl
      exact absurd h.1.1 (by decide)
  | int => exact digits h
  | float =>
    obtain ⟨whole, part, rfl, hw, -⟩ := h
    obtain ⟨c, cs, rfl, notEquals⟩ := digits hw
    exact ⟨c, _, rfl, notEquals⟩
  | char =>
    rcases h with ⟨c, rfl, -⟩ | ⟨c, rfl, -⟩
    · exact ⟨_, _, rfl, by decide⟩
    · exact ⟨_, _, rfl, by decide⟩
  | keyword w =>
    cases h
    cases w <;> exact ⟨_, _, rfl, by decide⟩
  | mark m => exact absurd rfl (notMark m)
  | eof => exact h.elim

/-! ## Keeping apart -/

/-- No character that passes the test follows. -/
def Stops (p : Char → Bool) (rest : List Char) : Prop := ∀ c ∈ rest.head?, p c = false

/-- Whether the mark is not over in front of the character. -/
def Mark.goesOn : Mark → Char → Bool
  | bang, c | equals, c | lt, c | gt, c => c == '='
  | divide, c => c == '/' || c == '*'
  | _, _ => false

/-- Whether the character cannot follow a token of the kind without changing it. -/
def Kind.goesOn : Kind → Char → Bool
  | ident, c | keyword _, c => isWordRest c
  | int, c => c.isDigit || c == '.'
  | float, c => c.isDigit
  | mark m, c => m.goesOn c
  | char, _ | eof, _ => false

/-! ## Runs of characters -/

theorem takeWhile_append_of_stops {p : Char → Bool} {text rest : List Char}
    (all : ∀ c ∈ text, p c = true) (stops : Stops p rest) :
    (text ++ rest).takeWhile p = text := by
  rw [List.takeWhile_append_of_pos all]
  cases rest with
  | nil => simp
  | cons c cs => simp [stops c rfl]

theorem dropWhile_append_of_stops {p : Char → Bool} {text rest : List Char}
    (all : ∀ c ∈ text, p c = true) (stops : Stops p rest) :
    (text ++ rest).dropWhile p = rest := by
  rw [List.dropWhile_append_of_pos all]
  cases rest with
  | nil => rfl
  | cons c cs => simp [stops c rfl]

/-! ## Which characters begin what -/

theorem isDigit_bounds {c : Char} (h : c.isDigit = true) : 48 ≤ c.toNat ∧ c.toNat ≤ 57 :=
  Char.isDigit_iff_toNat.mp h

theorem isWordStart_cases {c : Char} (h : isWordStart c = true) :
    (65 ≤ c.toNat ∧ c.toNat ≤ 90) ∨ (97 ≤ c.toNat ∧ c.toNat ≤ 122) ∨ c = '_' := by
  have letter : (decide (c.val ≥ 'A'.val ∧ c.val ≤ 'Z'.val) ||
      (decide (c.val ≥ 'a'.val) && decide (c.val ≤ 'z'.val)) || c == '_') = true := h
  simp only [Bool.or_eq_true, Bool.and_eq_true, decide_eq_true_eq, beq_iff_eq,
    UInt32.le_iff_toNat_le, ge_iff_le] at letter
  exact or_assoc.mp letter

theorem isBlank_eq_false {c : Char} (h : 32 < c.toNat) : isBlank c = false := by
  have space : c ≠ ' ' := by rintro rfl; exact absurd h (by decide)
  have tab : c ≠ '\t' := by rintro rfl; exact absurd h (by decide)
  have return_ : c ≠ '\r' := by rintro rfl; exact absurd h (by decide)
  simp [isBlank, space, tab, return_]

theorem isWordStart_apart {c : Char} (h : isWordStart c = true) :
    isBlank c = false ∧ c ≠ '\n' ∧ c.isDigit = false := by
  have ranges := isWordStart_cases h
  have large : 57 < c.toNat := by
    rcases ranges with _ | _ | rfl
    · omega
    · omega
    · decide
  refine ⟨isBlank_eq_false (by omega), ?_, ?_⟩
  · rintro rfl
    exact absurd large (by decide)
  · by_contra digit
    have bounds := isDigit_bounds (by simpa using digit)
    omega

theorem isWordRest_of_start {c : Char} (h : isWordStart c = true) : isWordRest c = true := by
  simp only [isWordStart, Bool.or_eq_true] at h
  simp only [isWordRest, Char.isAlphanum, Bool.or_eq_true]
  exact h.imp_left .inl

theorem isDigit_apart {c : Char} (h : c.isDigit = true) : isBlank c = false ∧ c ≠ '\n' := by
  have bounds := isDigit_bounds h
  refine ⟨isBlank_eq_false (by omega), ?_⟩
  rintro rfl
  exact absurd bounds (by decide)

theorem Keyword.isName_spelling (w : Keyword) : IsName w.spelling.toList := by
  cases w <;> exact And.intro rfl (List.all_eq_true.mp rfl)

/-! ## Spellings are cut off -/

theorem Mark.first?_append (m : Mark) {rest : List Char} (apart : Stops m.goesOn rest) :
    first? (m.chars ++ rest) = some m := by
  cases rest with
  | nil => cases m <;> rfl
  | cons c cs =>
    have next := apart c rfl
    cases m with
    | bang | equals | lt | gt =>
      have single : ('=' == c) = false := beq_false_of_ne (by rintro rfl; cases next)
      simp [first?, all, chars, List.find?, List.isPrefixOf, single]
    | _ => rfl

namespace Cut

variable {c : Char} {text cs rest : List Char}

theorem longest?_word (h : IsName text) (apart : Stops isWordRest rest) :
    longest? (text ++ rest) = some ⟨.word, text, rest⟩ := by
  cases text with
  | nil => exact h.elim
  | cons c cs =>
    obtain ⟨start, others⟩ := h
    obtain ⟨notBlank, notNewline, notDigit⟩ := isWordStart_apart start
    have all : ∀ d ∈ c :: cs, isWordRest d = true := by
      intro d hd
      rcases List.mem_cons.mp hd with rfl | hd
      · exact isWordRest_of_start start
      · exact others d hd
    have cut : run .word isWordRest (c :: cs ++ rest) = ⟨.word, c :: cs, rest⟩ := by
      rw [run, takeWhile_append_of_stops all apart, dropWhile_append_of_stops all apart]
    rw [← cut, List.cons_append]
    unfold longest?
    simp only [notBlank, notNewline, notDigit, start, Bool.false_eq_true, if_false, if_true]

theorem longest?_digits (h : IsDigits text) :
    longest? (text ++ rest) = some (number (text ++ rest)) := by
  obtain ⟨nonempty, digits⟩ := h
  obtain ⟨c, cs, rfl⟩ := List.exists_cons_of_ne_nil nonempty
  have digit := digits c List.mem_cons_self
  obtain ⟨notBlank, notNewline⟩ := isDigit_apart digit
  rw [List.cons_append]
  unfold longest?
  simp only [notBlank, notNewline, digit, Bool.false_eq_true, if_false, if_true]

theorem longest?_int (h : IsDigits text) (apart : Stops (fun c => c.isDigit || c == '.') rest) :
    longest? (text ++ rest) = some ⟨.int, text, rest⟩ := by
  have stops : Stops Char.isDigit rest := by
    intro c hc
    have both := apart c hc
    simp only [Bool.or_eq_false_iff] at both
    exact both.1
  have noPoint : ∀ cs, rest ≠ '.' :: cs := by
    rintro cs rfl
    exact absurd (apart '.' rfl) (by decide)
  rw [longest?_digits h, number, dropWhile_append_of_stops h.2 stops,
    takeWhile_append_of_stops h.2 stops]
  split
  · exact absurd rfl (noPoint _)
  · rfl

theorem longest?_float (h : IsFloat text) (apart : Stops Char.isDigit rest) :
    longest? (text ++ rest) = some ⟨.float, text, rest⟩ := by
  obtain ⟨whole, part, rfl, hw, hp⟩ := h
  obtain ⟨d, ds, rfl⟩ := List.exists_cons_of_ne_nil hp.1
  have digit := hp.2 d List.mem_cons_self
  have point : Stops Char.isDigit ('.' :: (d :: ds ++ rest)) := by
    intro c hc
    cases hc
    decide
  have first := dropWhile_append_of_stops hw.2 point
  have second := takeWhile_append_of_stops hp.2 apart
  have third := dropWhile_append_of_stops hp.2 apart
  rw [List.append_assoc, List.cons_append, longest?_digits hw, number, first]
  rw [List.cons_append] at second third point
  simp only [List.cons_append, digit, if_true]
  rw [second, third, takeWhile_append_of_stops hw.2 point]

theorem longest?_char (h : IsCharConst text) :
    longest? (text ++ rest) = some ⟨.char, text, rest⟩ := by
  have quote : ∀ cs, longest? ('\'' :: cs) = some (character cs) := fun _ => rfl
  rcases h with ⟨c, rfl, quotable, notEscape⟩ | ⟨c, rfl, notNewline⟩
  · have whole : character (c :: '\'' :: rest) = ⟨.char, ['\'', c, '\''], rest⟩ := by
      unfold character
      split
      · next same => cases same; exact absurd rfl notEscape
      · next _ same => cases same; simp [quotable, notEscape]
      · next _ other => exact absurd rfl (other c rest)
    rw [List.cons_append, List.cons_append, List.cons_append, quote]
    exact congrArg some whole
  · rw [List.cons_append, quote]
    simp [character, notNewline]

theorem longest?_mark (m : Mark) (apart : Stops m.goesOn rest) :
    longest? (m.chars ++ rest) = some ⟨.mark m, m.chars, rest⟩ := by
  have plain : longest? (m.chars ++ rest) = (Mark.first? (m.chars ++ rest)).map fun m' =>
      ⟨.mark m', m'.chars, (m.chars ++ rest).drop m'.chars.length⟩ := by
    cases m with
    | divide =>
      -- the one mark that a comment can begin with
      have outside : isBlank '/' = false ∧ Char.isDigit '/' = false ∧ isWordStart '/' = false :=
        ⟨rfl, rfl, rfl⟩
      cases rest with
      | nil => rfl
      | cons c cs =>
        have noLine : c ≠ '/' := by rintro rfl; cases apart '/' rfl
        have noBlock : c ≠ '*' := by rintro rfl; cases apart '*' rfl
        simp [longest?, Mark.chars, outside, noLine, noBlock]
    | _ => rfl
  rw [plain, Mark.first?_append m apart]
  simp

end Cut

/-! ## What is read as a token -/

theorem Keyword.toList_ne_of_none {text : List Char}
    (h : ofSpelling? (String.ofList text) = none) (w : Keyword) : text ≠ w.spelling.toList := by
  rintro rfl
  rw [String.ofList_toList, ofSpelling?_spelling] at h
  cases h

theorem Kind.ofWord_spelling (w : Keyword) : ofWord w.spelling.toList = .keyword w := by
  rw [ofWord, String.ofList_toList, Keyword.ofSpelling?_spelling]

theorem Kind.ofWord_ident {text : List Char} (h : ∀ w : Keyword, text ≠ w.spelling.toList) :
    ofWord text = .ident := by
  unfold ofWord
  split
  · next w spelled =>
    have same := Keyword.ofSpelling?_eq_some_iff.mp spelled
    exact absurd (by rw [← same, String.toList_ofList]) (h w)
  · rfl

theorem Kind.ofWord_spells {text : List Char} (h : IsName text) : (ofWord text).Spells text := by
  unfold ofWord
  split
  · next w spelled =>
    have same := Keyword.ofSpelling?_eq_some_iff.mp spelled
    show text = w.spelling.toList
    rw [← same, String.toList_ofList]
  · next none => exact ⟨h, Keyword.toList_ne_of_none none⟩

namespace Cut

/-- What a piece of the class looks like, where it becomes a token. -/
def Holds : LexClass → List Char → Prop
  | .int, text => IsDigits text
  | .float, text => IsFloat text
  | .char, text => IsCharConst text
  | .word, text => IsName text
  | .mark m, text => text = m.chars
  | _, _ => True

theorem number_holds {c : Char} {cs : List Char} (digit : c.isDigit = true) :
    Holds (number (c :: cs)).cls (number (c :: cs)).text := by
  have digits : ∀ ds : List Char, ∀ d ∈ ds.takeWhile Char.isDigit, d.isDigit = true :=
    fun _ => List.all_eq_true.mp List.all_takeWhile
  have whole : IsDigits ((c :: cs).takeWhile Char.isDigit) :=
    ⟨by simp [digit], digits _⟩
  unfold number
  split
  · next d ds _ =>
    split
    · next digit' =>
      have part : IsDigits ((d :: ds).takeWhile Char.isDigit) := ⟨by simp [digit'], digits _⟩
      exact ⟨_, _, rfl, whole, part⟩
    · exact whole
  · exact whole

theorem quotedSpan_holds (cs : List Char) : Holds (quotedSpan cs).cls (quotedSpan cs).text := by
  unfold quotedSpan
  split <;> trivial

theorem character_holds (cs : List Char) : Holds (character cs).cls (character cs).text := by
  unfold character
  split
  · split
    · exact quotedSpan_holds _
    · next c _ notNewline => exact .inr ⟨c, rfl, notNewline⟩
  · split
    · next c _ _ plain =>
      simp only [Bool.and_eq_true, bne_iff_ne] at plain
      exact .inl ⟨c, rfl, plain.1, plain.2⟩
    · exact quotedSpan_holds _
  · exact quotedSpan_holds _

theorem comment_holds (cs : List Char) : Holds (comment cs).cls (comment cs).text := by
  unfold comment
  split <;> trivial

theorem longest?_holds {cs : List Char} {cut : Cut} (h : longest? cs = some cut) :
    Holds cut.cls cut.text := by
  cases cs with
  | nil => cases h
  | cons c cs =>
    unfold longest? at h
    dsimp only at h
    split_ifs at h with blank newline digit start quote
    · cases h
      trivial
    · cases h
      trivial
    · cases h
      exact number_holds digit
    · cases h
      show IsName ((c :: cs).takeWhile isWordRest)
      rw [List.takeWhile_cons_of_pos (isWordRest_of_start start)]
      exact ⟨start, List.all_eq_true.mp List.all_takeWhile⟩
    · cases h
      exact character_holds cs
    · split at h
      · cases h
        trivial
      · cases h
        exact comment_holds _
      · rw [Option.map_eq_some_iff] at h
        obtain ⟨m, -, rfl⟩ := h
        rfl

end Cut

namespace Piece

variable {k : Kind}

theorem first_of_spells {text rest : List Char} (h : k.Spells text) (apart : Stops k.goesOn rest) :
    ∃ c cs, text ++ rest = c :: cs ∧ first c cs = ⟨.token k, text, rest⟩ := by
  have of : ∀ {cut : Cut}, Cut.longest? (text ++ rest) = some cut →
      ofCut cut = ⟨.token k, text, rest⟩ →
      ∃ c cs, text ++ rest = c :: cs ∧ first c cs = ⟨.token k, text, rest⟩ := by
    intro cut longest made
    cases whole : text ++ rest with
    | nil => rw [whole] at longest; cases longest
    | cons c cs =>
      rw [whole] at longest
      refine ⟨c, cs, rfl, ?_⟩
      rw [first, longest]
      exact made
  cases k with
  | ident =>
    refine of (Cut.longest?_word h.1 apart) ?_
    rw [ofCut, Kind.ofWord_ident h.2]
  | int => exact of (Cut.longest?_int h apart) rfl
  | float => exact of (Cut.longest?_float h apart) rfl
  | char => exact of (Cut.longest?_char h) rfl
  | keyword w =>
    cases h
    refine of (Cut.longest?_word w.isName_spelling apart) ?_
    rw [ofCut, Kind.ofWord_spelling]
  | mark m =>
    cases h
    exact of (Cut.longest?_mark m apart) rfl
  | eof => exact h.elim

theorem ofCut_spells {cut : Cut} (holds : Cut.Holds cut.cls cut.text)
    (h : (ofCut cut).verdict = .token k) : k.Spells (ofCut cut).text := by
  obtain ⟨cls, text, rest⟩ := cut
  cases cls with
  | word =>
    cases h
    exact Kind.ofWord_spells holds
  | int | float | char | mark =>
    cases h
    exact holds
  | _ => cases h

theorem spells_of_first {c : Char} {cs : List Char} (h : (first c cs).verdict = .token k) :
    k.Spells (first c cs).text := by
  unfold first at h ⊢
  split at h
  · next cut longest => exact ofCut_spells (Cut.longest?_holds longest) h
  · cases h

end Piece

end ImpSyntax
