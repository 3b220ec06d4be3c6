import Mathlib.Tactic.SplitIfs
import ImpSyntax.Proofs.Lexical.Tiling

/-!
# Scanning line by line

No piece but a comment goes on over the end of a line, so that a text may be cut at a newline that
lies in no open comment: the items of the two parts are those of the whole, in the lines where the
parts stand.

Main results:

* `Cut.longest?_append_newline` — a newline behind the text does not change its first cut.
* `Kind.Spells.newline_not_mem` — every token stands on one line.
* `Scanner.items_append_newline` — the items of two texts with a newline between them.
* `Scanner.items_below` — a text further down has the same items, further down.
* `Scanner.front_append_newline` — what is found in front of the end of two texts, one below the
  other.
* `tokenize_eq_front_append` — where the end of a text stands.
* `tokenize_append_newline` — what is found in two texts, one below the other.
-/

namespace ImpSyntax

/-! ## Runs of characters in front of a newline -/

section Runs

variable {p : Char → Bool} (newline : p '\n' = false) (cs rest : List Char)
include newline

theorem takeWhile_append_newline : (cs ++ '\n' :: rest).takeWhile p = cs.takeWhile p := by
  induction cs with
  | nil => simp [newline]
  | cons c cs ih => simp [List.takeWhile_cons, ih]

theorem dropWhile_append_newline :
    (cs ++ '\n' :: rest).dropWhile p = cs.dropWhile p ++ '\n' :: rest := by
  induction cs with
  | nil => simp [newline]
  | cons c cs ih =>
    rw [List.cons_append, List.dropWhile_cons, List.dropWhile_cons, ih]
    split <;> rfl

end Runs

/-- No newline in the text, no help from a newline behind. -/
theorem isPrefixOf_append_newline {text : List Char} (h : '\n' ∉ text) (cs rest : List Char) :
    text.isPrefixOf (cs ++ '\n' :: rest) = text.isPrefixOf cs := by
  induction text generalizing cs with
  | nil => cases cs <;> rfl
  | cons d text ih =>
    have other : d ≠ '\n' := by
      rintro rfl
      exact h List.mem_cons_self
    cases cs with
    | nil => simp [List.isPrefixOf, other]
    | cons c cs =>
      rw [List.cons_append, List.isPrefixOf, List.isPrefixOf,
        ih (fun mem => h (List.mem_cons_of_mem d mem))]

/-! ## Cuts in front of a newline -/

namespace Cut

/-- The same cut with a newline and more text behind what is left. -/
def followedBy (rest : List Char) (cut : Cut) : Cut := { cut with rest := cut.rest ++ '\n' :: rest }

theorem run_append_newline {cls : LexClass} {p : Char → Bool} (newline : p '\n' = false)
    (cs rest : List Char) : run cls p (cs ++ '\n' :: rest) = (run cls p cs).followedBy rest := by
  rw [run, takeWhile_append_newline newline, dropWhile_append_newline newline]
  rfl

theorem number_append_newline (cs rest : List Char) :
    number (cs ++ '\n' :: rest) = (number cs).followedBy rest := by
  have noDigit : Char.isDigit '\n' = false := rfl
  unfold number
  rw [takeWhile_append_newline noDigit, dropWhile_append_newline noDigit]
  cases h : cs.dropWhile Char.isDigit with
  | nil => rfl
  | cons c tail =>
    cases tail with
    | nil =>
      by_cases point : c = '.'
      · subst point
        rfl
      · simp [point, followedBy]
    | cons d ds =>
      by_cases point : c = '.'
      · subst point
        have digits := takeWhile_append_newline noDigit (d :: ds) rest
        have others := dropWhile_append_newline noDigit (d :: ds) rest
        simp only [List.cons_append] at digits others ⊢
        rw [digits, others]
        split <;> rfl
      · simp [point, followedBy]

theorem quotedSpan_append_newline (cs rest : List Char) :
    quotedSpan (cs ++ '\n' :: rest) = (quotedSpan cs).followedBy rest := by
  have noQuotable : isQuotable '\n' = false := rfl
  unfold quotedSpan
  rw [takeWhile_append_newline noQuotable, dropWhile_append_newline noQuotable]
  cases h : cs.dropWhile isQuotable with
  | nil => rfl
  | cons c tail =>
    by_cases quote : c = '\''
    · subst quote
      rfl
    · simp [quote, followedBy]

/-- A character constant stays on its line. -/
theorem newline_not_mem_charConst {text : List Char} (h : IsCharConst text) : '\n' ∉ text := by
  rcases h with ⟨c, rfl, quotable, -⟩ | ⟨c, rfl, notNewline⟩
  · have other : c ≠ '\n' := by
      rintro rfl
      cases quotable
    simp [other.symm]
  · simp [Ne.symm notNewline]

theorem character_append_newline (cs rest : List Char) :
    character (cs ++ '\n' :: rest) = (character cs).followedBy rest := by
  rcases character_cases cs with ⟨text, tail, whole, const, cut⟩ | ⟨noConst, span⟩
  · have longest : longest? (text ++ (tail ++ '\n' :: rest)) =
        some ⟨.char, text, tail ++ '\n' :: rest⟩ := longest?_char const
    rw [← List.append_assoc, ← whole] at longest
    rw [cut]
    exact Option.some.inj longest
  · have noConst' : ∀ text, IsCharConst text → ¬ text <+: '\'' :: (cs ++ '\n' :: rest) := by
      intro text const begins
      apply noConst text const
      rw [← List.isPrefixOf_iff_prefix] at begins ⊢
      rwa [← isPrefixOf_append_newline (newline_not_mem_charConst const) ('\'' :: cs) rest]
    rcases character_cases (cs ++ '\n' :: rest) with ⟨text, tail, whole, const, -⟩ | ⟨-, span'⟩
    · exact absurd ⟨tail, whole.symm⟩ (noConst' text const)
    · rw [span, span', quotedSpan_append_newline]

theorem throughClose_append_newline {seen cs body tail : List Char}
    (h : throughClose seen cs = some (body, tail)) (rest : List Char) :
    throughClose seen (cs ++ '\n' :: rest) = some (body, tail ++ '\n' :: rest) := by
  fun_induction throughClose seen cs with
  | case1 seen others =>
    cases h
    rfl
  | case2 seen c others noEnd ih =>
    rw [List.cons_append, throughClose, ih h]
    intro tail star slash
    cases others with
    | nil => cases slash
    | cons d others => exact noEnd others star (by rw [(List.cons.inj slash).1])
  | case3 => cases h

theorem comment_append_newline {cs : List Char} (closed : (comment cs).cls ≠ .openComment)
    (rest : List Char) : comment (cs ++ '\n' :: rest) = (comment cs).followedBy rest := by
  unfold comment at *
  cases h : throughClose [] cs with
  | none => simp [h] at closed
  | some found =>
    rw [throughClose_append_newline h]
    rfl

/-- The cut at the mark that the text begins with. -/
def atMark (cs : List Char) : Option Cut :=
  (Mark.first? cs).map fun m => ⟨.mark m, m.chars, cs.drop m.chars.length⟩

theorem atMark_append_newline (cs rest : List Char) :
    atMark (cs ++ '\n' :: rest) = (atMark cs).map (followedBy rest) := by
  have noNewline (m : Mark) : '\n' ∉ m.chars := by cases m <;> decide
  have same : Mark.first? (cs ++ '\n' :: rest) = Mark.first? cs := by
    unfold Mark.first?
    congr 1
    funext m
    exact isPrefixOf_append_newline (noNewline m) cs rest
  rw [atMark, atMark, same]
  cases h : Mark.first? cs with
  | none => rfl
  | some m =>
    have within : m.chars.length ≤ cs.length := (mark_isPrefixOf h).length_le
    simp [followedBy, List.drop_append_of_le_length within]

/-- A newline behind the text does not change its first cut, unless a comment is open there. -/
theorem longest?_append_newline {c : Char} {cs : List Char} (first : c ≠ '\n')
    (closed : ∀ cut ∈ longest? (c :: cs), cut.cls ≠ .openComment) (rest : List Char) :
    longest? (c :: cs ++ '\n' :: rest) = (longest? (c :: cs)).map (followedBy rest) := by
  rw [List.cons_append]
  unfold longest? at *
  dsimp only at *
  split_ifs with blank digit start quote
  · exact congrArg some (run_append_newline rfl (c :: cs) rest)
  · exact congrArg some (number_append_newline (c :: cs) rest)
  · exact congrArg some (run_append_newline rfl (c :: cs) rest)
  · exact congrArg some (character_append_newline cs rest)
  · rw [if_neg blank, if_neg first, if_neg digit, if_neg start, if_neg quote] at closed
    have marks : atMark (c :: (cs ++ '\n' :: rest)) = (atMark (c :: cs)).map (followedBy rest) :=
      atMark_append_newline (c :: cs) rest
    by_cases slash : c = '/'
    · subst slash
      cases cs with
      | nil => exact marks
      | cons d cs =>
        by_cases line : d = '/'
        · subst line
          exact congrArg some (run_append_newline rfl ('/' :: '/' :: cs) rest)
        by_cases star : d = '*'
        · subst star
          exact congrArg some (comment_append_newline (closed _ rfl) rest)
        · simpa [line, star, atMark] using marks
    · simpa [slash, atMark] using marks

end Cut

/-! ## Spellings and lines -/

theorem newline_not_mem_of_forall {p : Char → Bool} {text : List Char} (stops : p '\n' = false)
    (all : ∀ c ∈ text, p c = true) : '\n' ∉ text := by
  intro mem
  rw [all '\n' mem] at stops
  cases stops

theorem IsName.newline_not_mem {text : List Char} (h : IsName text) : '\n' ∉ text := by
  cases text with
  | nil => exact h.elim
  | cons c cs =>
    refine newline_not_mem_of_forall (p := isWordRest) rfl fun d mem => ?_
    rcases List.mem_cons.mp mem with rfl | mem
    · exact isWordRest_of_start h.1
    · exact h.2 d mem

theorem IsDigits.newline_not_mem {text : List Char} (h : IsDigits text) : '\n' ∉ text :=
  newline_not_mem_of_forall rfl h.2

/-- No token goes over the end of a line. -/
theorem Kind.Spells.newline_not_mem {k : Kind} {text : List Char} (h : k.Spells text) :
    '\n' ∉ text := by
  cases k with
  | ident => exact h.1.newline_not_mem
  | int => exact IsDigits.newline_not_mem h
  | float =>
    obtain ⟨whole, part, rfl, hw, hp⟩ := h
    simp [hw.newline_not_mem, hp.newline_not_mem]
  | char => exact Cut.newline_not_mem_charConst h
  | keyword w => rw [h]; exact w.isName_spelling.newline_not_mem
  | mark m => rw [h]; cases m <;> decide
  | eof => exact h.elim

/-! ## Pieces in front of a newline -/

namespace Piece

/-- The same piece with a newline and more text behind what is left. -/
def followedBy (rest : List Char) (piece : Piece) : Piece :=
  { piece with rest := piece.rest ++ '\n' :: rest }

theorem ofCut_followedBy {cut : Cut} (closed : cut.cls ≠ .openComment) (rest : List Char) :
    ofCut (cut.followedBy rest) = (ofCut cut).followedBy rest := by
  obtain ⟨cls, text, left⟩ := cut
  cases cls with
  | openComment => exact absurd rfl closed
  | openQuote =>
    have line := takeWhile_append_newline (p := (· != '\n')) rfl left rest
    have others := dropWhile_append_newline (p := (· != '\n')) rfl left rest
    simp only [ofCut, Cut.followedBy, followedBy, line, others]
  | _ => rfl

theorem openComment_of_ofCut {cut : Cut} (h : cut.cls = .openComment) :
    (ofCut cut).verdict = .fault .unclosedComment := by
  rw [ofCut, h]

/-- A newline behind the text does not change its first piece, unless a comment is open there. -/
theorem first_append_newline {c : Char} {cs : List Char} (notNewline : c ≠ '\n')
    (closed : (first c cs).verdict ≠ .fault .unclosedComment) (rest : List Char) :
    first c (cs ++ '\n' :: rest) = (first c cs).followedBy rest := by
  have cuts : ∀ cut ∈ Cut.longest? (c :: cs), cut.cls ≠ .openComment := by
    intro cut longest open_
    apply closed
    rw [first, show Cut.longest? (c :: cs) = some cut from longest]
    exact openComment_of_ofCut open_
  have longest := Cut.longest?_append_newline notNewline cuts rest
  rw [List.cons_append] at longest
  unfold first
  rw [longest]
  cases h : Cut.longest? (c :: cs) with
  | none => rfl
  | some cut => exact ofCut_followedBy (cuts cut h) rest

end Piece

/-! ## Items line by line -/

namespace Scanner

/-- A newline is passed over. -/
theorem items_newline (cs : List Char) (pos : Position) :
    (⟨'\n' :: cs, pos, false⟩ : Scanner).items = (⟨cs, pos.next '\n', false⟩ : Scanner).items := by
  have first (cs : List Char) : Piece.first '\n' cs =
      ⟨.trivia, ('\n' :: cs).takeWhile (· == '\n'), ('\n' :: cs).dropWhile (· == '\n')⟩ := rfl
  cases cs with
  | nil => rw [items_first, first]; rfl
  | cons c cs =>
    by_cases newline : c = '\n'
    · subst newline
      rw [items_first, items_first, first, first]
      rfl
    · rw [items_first, first]
      simp [newline, Piece.item?]

theorem items_ne_nil (cs : List Char) (pos : Position) :
    (⟨cs, pos, false⟩ : Scanner).items ≠ [] := by
  obtain ⟨items, last, found, -⟩ := items_shape cs pos
  rw [found]
  exact List.append_ne_nil_of_right_ne_nil _ (List.cons_ne_nil _ _)

/-- No comment without an end is found among the items. -/
def Closed (items : List Item) : Prop := ∀ pos, .fault .unclosedComment pos ∉ items

theorem items_append_newline {text : List Char} {pos : Position}
    (closed : Closed (⟨text, pos, false⟩ : Scanner).items) (rest : List Char) :
    (⟨text ++ '\n' :: rest, pos, false⟩ : Scanner).items =
      (⟨text, pos, false⟩ : Scanner).items.dropLast ++
        (⟨rest, ⟨(pos.after text).line + 1, 1⟩, false⟩ : Scanner).items := by
  induction len : text.length using Nat.strongRecOn generalizing text pos with
  | ind n ih =>
    subst len
    cases text with
    | nil =>
      rw [items_nil]
      exact items_newline rest pos
    | cons c cs =>
      by_cases newline : c = '\n'
      · subst newline
        rw [items_newline] at closed
        rw [List.cons_append, items_newline, items_newline]
        exact ih cs.length (Nat.lt_succ_self _) closed rfl
      · rw [items_first] at closed
        have piece : Piece.first c (cs ++ '\n' :: rest) = (Piece.first c cs).followedBy rest := by
          apply Piece.first_append_newline newline
          intro open_
          apply closed pos
          rw [Piece.item?, open_]
          exact List.mem_cons_self
        have behind := ih _ (Piece.rest_length_lt c cs)
          (fun p mem => closed p (List.mem_append_right _ mem)) rfl
        have whole : (pos.after (Piece.first c cs).text).after (Piece.first c cs).rest =
            pos.after (c :: cs) := by
          rw [← Position.after_append, Piece.text_append_rest]
        rw [whole] at behind
        have there := items_ne_nil (Piece.first c cs).rest (pos.after (Piece.first c cs).text)
        rw [List.cons_append, items_first, items_first, piece, List.dropLast_append_of_ne_nil there,
          List.append_assoc, ← behind]
        rfl

end Scanner

/-! ## Texts further down -/

/-- The position `n` lines below. -/
def Position.below (n : Nat) (p : Position) : Position := ⟨p.line + n, p.column⟩

namespace Position

theorem below_next (n : Nat) (p : Position) (c : Char) :
    (p.below n).next c = (p.next c).below n := by
  unfold next below
  split
  · simp only [Nat.add_right_comm]
  · rfl

theorem below_after (n : Nat) (p : Position) (text : List Char) :
    (p.below n).after text = (p.after text).below n := by
  induction text generalizing p with
  | nil => rfl
  | cons c text ih => rw [after_cons, after_cons, below_next, ih]

end Position

theorem Piece.item?_relocate (f : Position → Position) (piece : Piece) (pos : Position) :
    piece.item? (f pos) = (piece.item? pos).map (·.relocate f) := by
  unfold item?
  cases piece.verdict <;> rfl

/-- A text that begins `n` lines below has the same items, `n` lines below. -/
theorem Scanner.items_below (n : Nat) (text : List Char) (pos : Position) :
    (⟨text, pos.below n, false⟩ : Scanner).items =
      (⟨text, pos, false⟩ : Scanner).items.map (·.relocate (.below n)) := by
  induction text using Piece.induction generalizing pos with
  | nil =>
    rw [items_nil, items_nil]
    rfl
  | piece c cs ih =>
    rw [items_first, items_first, List.map_append, Position.below_after, ih, Piece.item?_relocate]
    cases (Piece.first c cs).item? pos <;> rfl

/-! ## In front of the end -/

namespace Scanner

/-- The items in front of the end of a text that begins at `pos`. -/
def front (text : List Char) (pos : Position) : List Item :=
  (⟨text, pos, false⟩ : Scanner).items.dropLast

theorem front_nil (pos : Position) : front [] pos = [] := by
  rw [front, items_nil]
  rfl

theorem front_below (n : Nat) (text : List Char) (pos : Position) :
    front text (pos.below n) = (front text pos).map (·.relocate (.below n)) := by
  rw [front, items_below, ← List.map_dropLast, front]

theorem front_append_newline {text : List Char} {n : Nat}
    (closed : Closed (⟨text, .start, false⟩ : Scanner).items) (rest : List Char) :
    front (text ++ '\n' :: rest) (Position.start.below n) =
      front text (Position.start.below n) ++
        front rest (Position.start.below (n + (text.count '\n' + 1))) := by
  have closed' : Closed (⟨text, Position.start.below n, false⟩ : Scanner).items := by
    intro pos mem
    rw [items_below] at mem
    obtain ⟨item, found, same⟩ := List.mem_map.mp mem
    cases item with
    | token t => cases same
    | fault reason p =>
      cases same
      exact closed p found
  have line : ((Position.start.below n).after text).line + 1 = 1 + (n + (text.count '\n' + 1)) := by
    rw [Position.below_after, Position.after_start, Position.behind, Position.below]
    dsimp only
    omega
  rw [front, items_append_newline closed', line,
    List.dropLast_append_of_ne_nil (items_ne_nil _ _)]
  rfl

theorem items_eq_front (text : List Char) (pos : Position) :
    (⟨text, pos, false⟩ : Scanner).items = front text pos ++ [.token (.eof (pos.after text))] := by
  induction text using Piece.induction generalizing pos with
  | nil => rw [front_nil, items_nil]; rfl
  | piece c cs ih =>
    have behind := ih (pos.after (Piece.first c cs).text)
    have there := items_ne_nil (Piece.first c cs).rest (pos.after (Piece.first c cs).text)
    rw [← Position.after_append, Piece.text_append_rest] at behind
    rw [front, items_first, List.dropLast_append_of_ne_nil there, behind,
      List.dropLast_concat, List.append_assoc]

theorem ne_eof_of_mem_front {text : List Char} {pos : Position} {t : Token}
    (h : .token t ∈ front text pos) : t.kind ≠ .eof := by
  obtain ⟨items, last, found, spelled⟩ := items_shape text pos
  rw [front, found, List.dropLast_concat] at h
  exact (spelled t h).ne_eof

end Scanner

/-- The position behind a text. -/
def endOf (source : String) : Position := Position.start.after (withoutByteOrderMark source.toList)

/-- The items of a text that stand in front of its end. -/
def frontOf (source : String) : List Item :=
  Scanner.front (withoutByteOrderMark source.toList) .start

theorem tokenize_eq_front_append (source : String) :
    tokenize source = frontOf source ++ [.token (.eof (endOf source))] :=
  Scanner.items_eq_front _ _

/-- How many lines the text fills. -/
def lineCount (s : String) : Nat := s.toList.count '\n' + 1

theorem withoutByteOrderMark_of_head? {cs : List Char} (h : cs.head? ≠ some '\ufeff') :
    withoutByteOrderMark cs = cs := by
  unfold withoutByteOrderMark
  split
  · exact absurd rfl h
  · rfl

theorem withoutByteOrderMark_append_newline (cs rest : List Char) :
    withoutByteOrderMark (cs ++ '\n' :: rest) = withoutByteOrderMark cs ++ '\n' :: rest := by
  by_cases marked : cs.head? = some '\ufeff'
  · obtain ⟨others, rfl⟩ := List.head?_eq_some_iff.mp marked
    rfl
  · have unmarked : (cs ++ '\n' :: rest).head? ≠ some '\ufeff' := by
      cases cs with
      | nil => simp
      | cons c cs => exact marked
    rw [withoutByteOrderMark_of_head? marked, withoutByteOrderMark_of_head? unmarked]

/-- The mark in front of a text is no line of it. -/
theorem count_newline_withoutByteOrderMark (cs : List Char) :
    (withoutByteOrderMark cs).count '\n' = cs.count '\n' := by
  unfold withoutByteOrderMark
  split
  · exact (List.count_cons_of_ne (by decide)).symm
  · rfl

/-- What is found in two texts, one below the other, if no comment is open at the end of the first. -/
theorem tokenize_append_newline {a b : String} (closed : Scanner.Closed (tokenize a))
    (unmarked : b.toList.head? ≠ some '\ufeff') :
    tokenize (a ++ "\n" ++ b) =
      frontOf a ++ (tokenize b).map (·.relocate (.below (lineCount a))) := by
  have line : (Position.start.after (withoutByteOrderMark a.toList)).line + 1 = 1 + lineCount a := by
    rw [Position.after_start, Position.behind, count_newline_withoutByteOrderMark, lineCount]
    dsimp only
    omega
  have text : (a ++ "\n" ++ b).toList = a.toList ++ '\n' :: b.toList := by simp
  have whole := Scanner.items_append_newline closed b.toList
  rw [← withoutByteOrderMark_append_newline, ← text, line] at whole
  have below := Scanner.items_below (lineCount a) b.toList .start
  rw [tokenize, Scanner.ofSource, whole, tokenize, Scanner.ofSource,
    withoutByteOrderMark_of_head? unmarked, ← below]
  rfl

theorem ne_eof_of_mem_frontOf {source : String} {t : Token} (h : .token t ∈ frontOf source) :
    t.kind ≠ .eof := Scanner.ne_eof_of_mem_front h

theorem FaultFree.closed {s : String} (clean : FaultFree s) : Scanner.Closed (tokenize s) := by
  intro pos mem
  cases clean _ mem

/-- In a text without lexical faults there are only tokens in front of the end. -/
theorem FaultFree.exists_tokens {source : String} (clean : FaultFree source) :
    ∃ ts : List Token, frontOf source = ts.map .token ∧ (∀ t ∈ ts, t.kind ≠ .eof) ∧
      words source = ts.map Token.erase := by
  have whole := tokenize_eq_front_append source
  have tokens := Item.eq_map_token_of_isSome fun item mem =>
    clean item (whole ▸ List.mem_append_left _ mem)
  refine ⟨_, tokens, fun t mem => ?_, words_eq whole fun _ => ne_eof_of_mem_frontOf⟩
  have mem' : Item.token t ∈ List.map .token ((frontOf source).filterMap Item.token?) :=
    List.mem_map_of_mem mem
  rw [← tokens] at mem'
  exact ne_eof_of_mem_frontOf mem'

end ImpSyntax
