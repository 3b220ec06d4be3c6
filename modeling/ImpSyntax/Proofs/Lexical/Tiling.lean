import Mathlib.Tactic.SplitIfs
import ImpSyntax.Proofs.Lexical.Words

/-!
# A text is tiled by its pieces

The pieces that the scanner takes from a text lie side by side and leave nothing out: tokens, trivia
between them, and the spans that are at fault. The position of an item is that of the first
character of its piece, counted from the beginning of the text.

Main results:

* `Piece.first_looks` — every piece looks like what it is taken for.
* `Position.after_start` — a position counts the newlines in front of it and the characters behind
  the last of them.
* `Scanner.nth_eq` — asking for one item after the other gives the items, and then nothing.
* `tokenize_tiles` — the pieces of a text and the items that they give.
-/

namespace ImpSyntax

/-! ## Positions -/

/-- The position behind a text: its line counts the newlines, its column the characters behind the
last newline, both from one. -/
def Position.behind (text : List Char) : Position :=
  ⟨1 + text.count '\n', 1 + (text.reverse.takeWhile (· != '\n')).length⟩

namespace Position

theorem after_start (text : List Char) : start.after text = behind text := by
  induction h : text.reverse generalizing text with
  | nil =>
    rw [List.reverse_eq_nil_iff.mp h]
    rfl
  | cons c rest ih =>
    have split : text = rest.reverse ++ [c] := by
      rw [← List.reverse_cons, ← h, List.reverse_reverse]
    rw [split, after_append, ih rest.reverse (List.reverse_reverse rest)]
    simp only [after_cons, after_nil, next, behind, List.count_append, List.reverse_append,
      List.reverse_cons, List.reverse_nil, List.nil_append, List.cons_append, List.reverse_reverse]
    by_cases newline : c = '\n'
    · subst newline
      simp
      omega
    · simp [newline]
      omega

theorem lt_next (p : Position) (c : Char) : p < p.next c := by
  rw [lt_iff, next]
  split
  · exact .inl (Nat.lt_succ_self _)
  · exact .inr ⟨rfl, Nat.lt_succ_self _⟩

theorem lt_of_lt_of_le {p q r : Position} (h : p < q) (h' : q ≤ r) : p < r := by
  rw [lt_iff] at *
  rw [le_iff] at h'
  omega

theorem le_of_lt {p q : Position} (h : p < q) : p ≤ q := by
  rw [lt_iff] at h
  rw [le_iff]
  omega

theorem le_after (p : Position) (text : List Char) : p ≤ p.after text := by
  induction text generalizing p with
  | nil => exact le_iff.mpr (.inr ⟨rfl, Nat.le_refl _⟩)
  | cons c text ih => exact le_of_lt (lt_of_lt_of_le (p.lt_next c) (ih (p.next c)))

theorem lt_after (p : Position) {text : List Char} (h : text ≠ []) : p < p.after text := by
  obtain ⟨c, rest, rfl⟩ := List.exists_cons_of_ne_nil h
  exact lt_of_lt_of_le (p.lt_next c) ((p.next c).le_after rest)

end Position

/-! ## What pieces look like -/

/-- The text has no end of a comment in it. -/
def NoClose (text : List Char) : Prop := ¬ ['*', '/'] <:+: text

/-- The text is passed over: blanks, newlines, a comment to the end of its line, or a comment up to
its first end. -/
def IsTrivia (text : List Char) : Prop :=
  (text ≠ [] ∧ ∀ c ∈ text, isBlank c = true) ∨
    (text ≠ [] ∧ ∀ c ∈ text, c = '\n') ∨
    (∃ body, text = '/' :: '/' :: body ∧ '\n' ∉ body) ∨
    ∃ body, text = '/' :: '*' :: (body ++ ['*', '/']) ∧ NoClose body

/-- Nothing but a fault can begin with the character where the rest of the text follows. -/
def BeginsNothing (c : Char) (rest : List Char) : Prop :=
  isBlank c = false ∧ c ≠ '\n' ∧ c.isDigit = false ∧ isWordStart c = false ∧ c ≠ '\'' ∧
    ∀ m : Mark, ¬ m.chars <+: c :: rest

/-- Whether the fault is found in the text in front of the rest: a character that begins nothing, a
comment without an end and so all that is left, a quote without another on its line and so the rest
of the line, or what stands between two quotes and is no character constant. -/
def LexicalFault.Spans : LexicalFault → List Char → List Char → Prop
  | illegal c, text, rest => text = [c] ∧ BeginsNothing c rest
  | unclosedComment, text, rest =>
    rest = [] ∧ ∃ body, text = '/' :: '*' :: body ∧ NoClose body
  | unclosedChar, text, rest =>
    (∃ body, text = '\'' :: body ∧ ∀ c ∈ body, isQuotable c = true) ∧
      ∀ c ∈ rest.head?, c = '\n'
  | malformedChar quoted, text, _ =>
    quoted = String.ofList text ∧ ¬ IsCharConst text ∧
      ∃ body, text = '\'' :: (body ++ ['\'']) ∧ ∀ c ∈ body, isQuotable c = true

/-- The piece looks like what it is taken for. -/
def Piece.Looks (p : Piece) : Prop :=
  match p.verdict with
  | .trivia => IsTrivia p.text
  | .token k => k.Spells p.text
  | .fault reason => reason.Spans p.text p.rest

namespace Cut

/-- What a cut looks like, where it becomes no token. -/
def Looks (cut : Cut) : Prop :=
  match cut.cls with
  | .blanks | .newlines | .lineComment | .blockComment => IsTrivia cut.text
  | .openComment => cut.text = ['/', '*'] ∧ NoClose cut.rest
  | .openQuote => cut.text = ['\''] ∧ ∀ c ∈ cut.rest.takeWhile (· != '\n'), isQuotable c = true
  | .malformed =>
    ¬ IsCharConst cut.text ∧
      ∃ body, cut.text = '\'' :: (body ++ ['\'']) ∧ ∀ c ∈ body, isQuotable c = true
  | _ => True

theorem noClose_nil : NoClose [] := by
  intro h
  cases List.infix_nil.mp h

theorem noClose_cons {c : Char} {text : List Char} (h : NoClose text)
    (first : ∀ rest, c = '*' → text = '/' :: rest → False) : NoClose (c :: text) := by
  intro inside
  rcases List.infix_cons_iff.mp inside with ⟨rest, begins⟩ | inside
  · obtain ⟨same, behind⟩ := List.cons.inj begins
    exact first rest same.symm behind.symm
  · exact h inside

theorem throughClose_eq_none {seen cs : List Char} (h : throughClose seen cs = none) :
    NoClose cs := by
  fun_induction throughClose seen cs with
  | case1 => cases h
  | case2 seen c rest noEnd ih => exact noClose_cons (ih h) noEnd
  | case3 => exact noClose_nil

/-- The first end of a comment is found. -/
theorem throughClose_eq_some {seen cs body rest : List Char}
    (h : throughClose seen cs = some (body, rest)) :
    ∃ inside, body = seen.reverse ++ (inside ++ ['*', '/']) ∧ NoClose inside := by
  fun_induction throughClose seen cs with
  | case1 seen rest =>
    cases h
    exact ⟨[], rfl, noClose_nil⟩
  | case2 seen c others noEnd ih =>
    obtain ⟨inside, rfl, clean⟩ := ih h
    refine ⟨c :: inside, by simp, noClose_cons clean fun tail star slash => ?_⟩
    have whole := throughClose_append h
    rw [List.append_assoc] at whole
    have behind : others = inside ++ ['*', '/'] ++ rest := (List.append_cancel_left whole).symm
    exact noEnd _ star (by rw [behind, slash]; rfl)
  | case3 => cases h

/-- Behind a quote stands a character constant, or else a quoted span. -/
theorem character_cases (cs : List Char) :
    (∃ text rest, '\'' :: cs = text ++ rest ∧ IsCharConst text ∧
      character cs = ⟨.char, text, rest⟩) ∨
    (∀ text, IsCharConst text → ¬ text <+: '\'' :: cs) ∧ character cs = quotedSpan cs := by
  unfold character
  split
  · next c rest =>
    split_ifs with newline
    · refine .inr ⟨?_, rfl⟩
      rintro text (⟨d, rfl, -, notEscape⟩ | ⟨d, rfl, notNewline⟩) ⟨tail, same⟩
      · cases same
        exact notEscape rfl
      · cases same
        exact notNewline newline
    · exact .inl ⟨_, rest, rfl, .inr ⟨c, rfl, newline⟩, rfl⟩
  · next c rest noEscape =>
    split_ifs with plain
    · simp only [Bool.and_eq_true, bne_iff_ne] at plain
      exact .inl ⟨_, rest, rfl, .inl ⟨c, rfl, plain.1, plain.2⟩, rfl⟩
    · refine .inr ⟨?_, rfl⟩
      rintro text (⟨d, rfl, quotable, notEscape⟩ | ⟨d, rfl, -⟩) ⟨tail, same⟩
      · cases same
        simp [quotable, notEscape] at plain
      · cases same
        exact noEscape tail rfl rfl
  · next noEscape noPlain =>
    refine .inr ⟨?_, rfl⟩
    rintro text (⟨d, rfl, -, -⟩ | ⟨d, rfl, -⟩) ⟨tail, same⟩
    · exact noPlain d tail (List.cons.inj same).2.symm
    · exact noEscape d tail (List.cons.inj same).2.symm

theorem quotedSpan_looks {cs : List Char}
    (noConst : ∀ text, IsCharConst text → ¬ text <+: '\'' :: cs) : (quotedSpan cs).Looks := by
  have body : ∀ c ∈ cs.takeWhile isQuotable, isQuotable c = true :=
    List.all_eq_true.mp List.all_takeWhile
  have whole := List.takeWhile_append_dropWhile (p := isQuotable) (l := cs)
  unfold quotedSpan
  split
  · next rest close =>
    refine ⟨fun const => noConst _ const ⟨rest, ?_⟩, _, rfl, body⟩
    rw [close] at whole
    simpa using whole
  · next open_ =>
    refine ⟨rfl, fun c hc => ?_⟩
    -- the span has no quote at its end, so it ends with the line
    have stops : Stops (· != '\n') (cs.dropWhile isQuotable) := by
      intro d hd
      obtain ⟨tail, split⟩ := List.head?_eq_some_iff.mp hd
      have notQuotable : isQuotable d = false := by
        have first := List.head?_dropWhile_not isQuotable cs
        rw [hd] at first
        simpa using first
      have notQuote : d ≠ '\'' := by
        rintro rfl
        exact open_ tail split
      simpa [isQuotable, notQuote] using notQuotable
    have plain : ∀ d ∈ cs.takeWhile isQuotable, (d != '\n') = true := by
      intro d hd
      have quotable := body d hd
      simp only [isQuotable, Bool.and_eq_true] at quotable
      exact quotable.2
    have line := takeWhile_append_of_stops plain stops
    rw [whole] at line
    exact body c (line ▸ hc)

theorem character_looks (cs : List Char) : (character cs).Looks := by
  rcases character_cases cs with ⟨text, rest, -, -, const⟩ | ⟨noConst, span⟩
  · rw [const]
    trivial
  · rw [span]
    exact quotedSpan_looks noConst

theorem comment_looks (cs : List Char) : (comment cs).Looks := by
  unfold comment
  split
  · next body rest closed =>
    obtain ⟨inside, rfl, clean⟩ := throughClose_eq_some closed
    exact .inr (.inr (.inr ⟨inside, rfl, clean⟩))
  · next open_ => exact ⟨rfl, throughClose_eq_none open_⟩

theorem number_looks (cs : List Char) : (number cs).Looks := by
  unfold number
  split
  · split <;> trivial
  · trivial

theorem longest?_looks {cs : List Char} {cut : Cut} (h : longest? cs = some cut) : cut.Looks := by
  cases cs with
  | nil => cases h
  | cons c cs =>
    have run_all (cls : LexClass) (p : Char → Bool) :
        ∀ d ∈ (run cls p (c :: cs)).text, p d = true := List.all_eq_true.mp List.all_takeWhile
    unfold longest? at h
    dsimp only at h
    split_ifs at h with blank newline digit start quote
    · cases h
      exact .inl ⟨run_ne_nil blank, run_all .blanks isBlank⟩
    · cases h
      refine .inr (.inl ⟨run_ne_nil (by simp [newline]), fun d hd => ?_⟩)
      simpa using run_all .newlines (· == '\n') d hd
    · cases h
      exact number_looks _
    · cases h
      trivial
    · cases h
      exact character_looks cs
    · split at h
      · next rest =>
        cases h
        refine .inr (.inr (.inl ⟨rest.takeWhile (· != '\n'), rfl, fun mem => ?_⟩))
        have passed := List.all_eq_true.mp List.all_takeWhile '\n' mem
        cases passed
      · cases h
        exact comment_looks _
      · rw [Option.map_eq_some_iff] at h
        obtain ⟨m, -, rfl⟩ := h
        trivial

theorem longest?_eq_none {c : Char} {cs : List Char} (h : longest? (c :: cs) = none) :
    BeginsNothing c cs := by
  unfold longest? at h
  dsimp only at h
  split_ifs at h with blank newline digit start quote
  split at h
  · cases h
  · cases h
  · rw [Option.map_eq_none_iff] at h
    refine ⟨by simpa using blank, newline, by simpa using digit, by simpa using start, quote, ?_⟩
    intro m begins
    have none := List.find?_eq_none.mp h m m.mem_all
    exact none (by simpa using begins)

end Cut

namespace Piece

theorem looks_ofCut {cut : Cut} (h : cut.Looks) (holds : Cut.Holds cut.cls cut.text) :
    (ofCut cut).Looks := by
  obtain ⟨cls, text, rest⟩ := cut
  cases cls with
  | blanks | newlines | lineComment | blockComment => exact h
  | openComment =>
    obtain ⟨rfl, clean⟩ : text = ['/', '*'] ∧ NoClose rest := h
    exact ⟨rfl, rest, rfl, clean⟩
  | openQuote =>
    obtain ⟨rfl, plain⟩ := h
    refine ⟨⟨_, rfl, plain⟩, fun c hc => ?_⟩
    have first := List.head?_dropWhile_not (· != '\n') rest
    rw [show (rest.dropWhile (· != '\n')).head? = some c from hc] at first
    simpa using first
  | malformed => exact ⟨rfl, h⟩
  | int | float | char => exact holds
  | word => exact Kind.ofWord_spells holds
  | mark m => exact holds

theorem first_looks (c : Char) (cs : List Char) : (first c cs).Looks := by
  unfold first
  split
  · next cut longest => exact looks_ofCut (Cut.longest?_looks longest) (Cut.longest?_holds longest)
  · next none => exact ⟨rfl, Cut.longest?_eq_none none⟩

end Piece

/-! ## What pieces give -/

/-- The item that the piece gives at the position, if it gives one. -/
def Piece.item? (piece : Piece) (pos : Position) : Option Item :=
  match piece.verdict with
  | .trivia => none
  | .token k => some (.token ⟨k, String.ofList piece.text, pos⟩)
  | .fault reason => some (.fault reason pos)

theorem Piece.pos_of_mem_item? {piece : Piece} {pos : Position} {item : Item}
    (h : item ∈ (piece.item? pos).toList) : item.pos = pos := by
  unfold item? at h
  split at h
  · cases h
  · rw [List.mem_singleton.mp h]
    rfl
  · rw [List.mem_singleton.mp h]
    rfl

/-- The items of a text are that of its first piece and those of the rest. -/
theorem Scanner.items_first (c : Char) (cs : List Char) (pos : Position) :
    (⟨c :: cs, pos, false⟩ : Scanner).items =
      ((Piece.first c cs).item? pos).toList ++
        (⟨(Piece.first c cs).rest, pos.after (Piece.first c cs).text, false⟩ : Scanner).items := by
  rw [items_cons, Piece.item?]
  dsimp only
  cases (Piece.first c cs).verdict <;> rfl

/-! ## Tilings -/

/-- `Tiles text pieces`: the pieces lie side by side and make up the text, and each looks like what
it is taken for. -/
inductive Tiles : List Char → List Piece → Prop
  | nil : Tiles [] []
  | cons {piece : Piece} {pieces : List Piece} : piece.text ≠ [] → piece.Looks →
      Tiles piece.rest pieces → Tiles (piece.text ++ piece.rest) (piece :: pieces)

theorem Tiles.flatMap_text {text : List Char} {pieces : List Piece} (h : Tiles text pieces) :
    pieces.flatMap Piece.text = text := by
  induction h with
  | nil => rfl
  | cons _ _ _ ih => rw [List.flatMap_cons, ih]

/-- The items that the pieces give behind the text `before`, and the end. -/
def itemsAt (before : List Char) : List Piece → List Item
  | [] => [.token (.eof (.behind before))]
  | piece :: pieces =>
    (piece.item? (.behind before)).toList ++ itemsAt (before ++ piece.text) pieces

namespace Scanner

/-- The items are those of pieces that are taken one after the other. What holds of a text and its
pieces if it holds of the rest and the others holds of these. -/
theorem exists_pieces {motive : List Char → List Piece → Prop} (nil : motive [] [])
    (cons : ∀ c cs pieces, motive (Piece.first c cs).rest pieces →
      motive (c :: cs) (Piece.first c cs :: pieces)) (before text : List Char) :
    ∃ pieces, motive text pieces ∧
      (⟨text, .behind before, false⟩ : Scanner).items = itemsAt before pieces := by
  induction text using Piece.induction generalizing before with
  | nil => exact ⟨[], nil, items_nil _⟩
  | piece c cs ih =>
    obtain ⟨pieces, holds, found⟩ := ih (before ++ (Piece.first c cs).text)
    have behind : (Position.behind before).after (Piece.first c cs).text =
        .behind (before ++ (Piece.first c cs).text) := by
      rw [← Position.after_start, ← Position.after_append, Position.after_start]
    exact ⟨_, cons c cs pieces holds, by rw [items_first, behind, found, itemsAt]⟩

/-! ## Asking for one item after the other -/

/-- What the scanner gives when it is asked after `n` earlier questions. -/
def nth (s : Scanner) : Nat → Option Item
  | 0 => s.next?.map Prod.fst
  | n + 1 => (s.next?.elim s Prod.snd).nth n

theorem nth_eq (s : Scanner) (n : Nat) : s.nth n = s.items[n]? := by
  induction n generalizing s with
  | zero =>
    rw [nth, items_eq]
    cases s.next? <;> rfl
  | succ n ih =>
    rw [nth, ih]
    cases h : s.next? with
    | none =>
      have none : s.items = [] := by rw [items_eq, h]
      simp [none]
    | some found =>
      rw [items_eq s, h]
      rfl

/-! ## The order of the items -/

theorem le_pos_of_mem {text : List Char} {pos : Position} {item : Item}
    (h : item ∈ (⟨text, pos, false⟩ : Scanner).items) : pos ≤ item.pos := by
  induction text using Piece.induction generalizing pos with
  | nil =>
    rw [items_nil, List.mem_singleton] at h
    subst h
    exact pos.le_after []
  | piece c cs ih =>
    rw [items_first, List.mem_append] at h
    rcases h with h | h
    · rw [Piece.pos_of_mem_item? h]
      exact pos.le_after []
    · exact Position.le_of_lt
        (Position.lt_of_lt_of_le (pos.lt_after (Piece.text_ne_nil c cs)) (ih h))

theorem pairwise_pos (text : List Char) (pos : Position) :
    (⟨text, pos, false⟩ : Scanner).items.Pairwise fun a b => a.pos < b.pos := by
  induction text using Piece.induction generalizing pos with
  | nil =>
    rw [items_nil]
    exact List.pairwise_singleton _ _
  | piece c cs ih =>
    rw [items_first, List.pairwise_append]
    refine ⟨?_, ih _, ?_⟩
    · cases (Piece.first c cs).item? pos with
      | none => exact .nil
      | some item => exact List.pairwise_singleton _ _
    · intro item first later behind
      rw [Piece.pos_of_mem_item? first]
      exact Position.lt_of_lt_of_le (pos.lt_after (Piece.text_ne_nil c cs)) (le_pos_of_mem behind)

end Scanner

/-! ## The items of a text -/

theorem pairwise_pos_tokenize (source : String) :
    (tokenize source).Pairwise fun a b => a.pos < b.pos :=
  Scanner.pairwise_pos _ _

/-- The text is cut into pieces that make it up without gaps, and every item is at the position to
which the text in front of it leads. The end comes once, behind all other items, and nothing is
found behind it. Every item is behind the one before. -/
theorem tokenize_tiles (source : String) :
    (∃ pieces, Tiles (withoutByteOrderMark source.toList) pieces ∧
        pieces.flatMap Piece.text = withoutByteOrderMark source.toList ∧
        tokenize source = itemsAt [] pieces) ∧
      (∃ items last, tokenize source = items ++ [.token (.eof last)] ∧
        ∀ t, .token t ∈ items → t.kind ≠ .eof) ∧
      (∀ n, (Scanner.ofSource source).nth n = (tokenize source)[n]?) ∧
      (tokenize source).Pairwise fun a b => a.pos < b.pos := by
  have step : ∀ c cs pieces, Tiles (Piece.first c cs).rest pieces →
      Tiles (c :: cs) (Piece.first c cs :: pieces) := by
    intro c cs pieces tiled
    have whole := Tiles.cons (Piece.text_ne_nil c cs) (Piece.first_looks c cs) tiled
    rwa [Piece.text_append_rest] at whole
  obtain ⟨pieces, tiled, found⟩ :=
    Scanner.exists_pieces .nil step [] (withoutByteOrderMark source.toList)
  obtain ⟨items, last, ended, spelled⟩ :=
    Scanner.items_shape (withoutByteOrderMark source.toList) .start
  exact ⟨⟨pieces, tiled, tiled.flatMap_text, found⟩,
    ⟨items, last, ended, fun t mem => (spelled t mem).ne_eof⟩,
    (Scanner.ofSource source).nth_eq, Scanner.pairwise_pos _ _⟩

end ImpSyntax
