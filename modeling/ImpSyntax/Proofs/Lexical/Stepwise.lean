import ImpSyntax.Proofs.Lexical.Rules

/-!
# Scanning step by step

What the scanner takes from a text at each step is laid down by the lexical classes alone: the longest
match, of the class declared first, or one character where no class has a match. So is the whole run
of pieces, and with it every item of the text.

Main results:

* `Piece.first_cases` — what one step takes.
* `Stepwise.unique` — the classes leave no choice at any step.
* `tokenize_stepwise` — the items of a text are those of its longest matches.
-/

namespace ImpSyntax

/-! ## Words -/

/-- The words that are no names. -/
def reservedWords : List String :=
  ["print", "if", "else", "var", "while", "true", "false", "let", "break", "continue"]

theorem mem_reservedWords_iff {s : String} : s ∈ reservedWords ↔ ∃ w : Keyword, s = w.spelling := by
  have all : reservedWords = Keyword.all.map Keyword.spelling := rfl
  rw [all, List.mem_map]
  constructor
  · rintro ⟨w, -, rfl⟩
    exact ⟨w, rfl⟩
  · rintro ⟨w, rfl⟩
    exact ⟨w, w.mem_all, rfl⟩

theorem Kind.ofWord_eq_keyword_iff {text : List Char} {w : Keyword} :
    ofWord text = .keyword w ↔ String.ofList text = w.spelling := by
  unfold ofWord
  constructor
  · intro h
    split at h
    · next w' spelled =>
      cases h
      exact Keyword.ofSpelling?_eq_some_iff.mp spelled
    · cases h
  · intro h
    rw [Keyword.ofSpelling?_eq_some_iff.mpr h]

/-- A word is the keyword that it spells, and a name if it spells none. -/
theorem Piece.verdict_word (text rest : List Char) :
    ((∃ w, (ofCut ⟨.word, text, rest⟩).verdict = .token (.keyword w)) ↔
        String.ofList text ∈ reservedWords) ∧
      ((ofCut ⟨.word, text, rest⟩).verdict = .token .ident ↔
        String.ofList text ∉ reservedWords) := by
  have made : (ofCut ⟨.word, text, rest⟩).verdict = .token (.ofWord text) := rfl
  rw [made, mem_reservedWords_iff]
  constructor
  · simp only [Verdict.token.injEq, Kind.ofWord_eq_keyword_iff]
  · rw [Verdict.token.injEq]
    constructor
    · rintro name ⟨w, spelled⟩
      rw [Kind.ofWord_eq_keyword_iff.mpr spelled] at name
      cases name
    · intro free
      refine Kind.ofWord_ident fun w spelled => free ⟨w, ?_⟩
      rw [spelled, String.ofList_toList]

/-! ## One step -/

/-- No beginning of the text lies in a class. -/
def NoMatch (cs : List Char) : Prop := ∀ cls text, LexClass.Contains cls text → ¬ text <+: cs

/-- The piece of a character that is at fault alone. -/
def Piece.illegal (c : Char) (cs : List Char) : Piece := ⟨.fault (.illegal c), [c], cs⟩

/-- A step takes the longest match, or one character where there is no match. -/
theorem Piece.first_cases (c : Char) (cs : List Char) :
    (∃ cut, Cut.IsLongest (c :: cs) cut ∧ first c cs = ofCut cut) ∨
      NoMatch (c :: cs) ∧ first c cs = illegal c cs := by
  unfold first
  cases h : Cut.longest? (c :: cs) with
  | some cut => exact .inl ⟨cut, Cut.longest?_eq_some_iff.mp h, rfl⟩
  | none => exact .inr ⟨Cut.longest?_eq_none_iff.mp h, rfl⟩

/-! ## All steps -/

/-- `Stepwise cs pieces`: the pieces are taken from the text one after the other, each by the longest
match, or as one character where there is no match. -/
inductive Stepwise : List Char → List Piece → Prop
  | nil : Stepwise [] []
  | cut {cs : List Char} {cut : Cut} {pieces : List Piece} : cut.IsLongest cs →
      Stepwise (Piece.ofCut cut).rest pieces → Stepwise cs (Piece.ofCut cut :: pieces)
  | illegal {c : Char} {cs : List Char} {pieces : List Piece} : NoMatch (c :: cs) →
      Stepwise cs pieces → Stepwise (c :: cs) (Piece.illegal c cs :: pieces)

theorem Cut.IsLongest.not_noMatch {cs : List Char} {cut : Cut} (h : cut.IsLongest cs) :
    ¬ NoMatch cs := fun none => none _ _ h.contains ⟨_, h.whole⟩

theorem Cut.not_isLongest_nil (cut : Cut) : ¬ cut.IsLongest [] := by
  intro h
  obtain ⟨c, rest, nonempty, -⟩ := h.contains.opening
  have whole := h.whole
  rw [nonempty] at whole
  cases whole

theorem Stepwise.unique {cs : List Char} {pieces others : List Piece} (h : Stepwise cs pieces)
    (h' : Stepwise cs others) : pieces = others := by
  induction h generalizing others with
  | nil =>
    cases h' with
    | nil => rfl
    | cut longest => exact absurd longest (Cut.not_isLongest_nil _)
  | cut longest _ ih =>
    cases h' with
    | nil => exact absurd longest (Cut.not_isLongest_nil _)
    | cut longest' behind =>
      cases longest.unique longest'
      rw [ih behind]
    | illegal none => exact absurd none longest.not_noMatch
  | illegal none _ ih =>
    cases h' with
    | cut longest' => exact absurd none longest'.not_noMatch
    | illegal _ behind => rw [ih behind]

theorem Stepwise.cons {c : Char} {cs : List Char} {pieces : List Piece}
    (h : Stepwise (Piece.first c cs).rest pieces) :
    Stepwise (c :: cs) (Piece.first c cs :: pieces) := by
  rcases Piece.first_cases c cs with ⟨cut, longest, made⟩ | ⟨none, made⟩
  · rw [made] at h ⊢
    exact .cut longest h
  · rw [made] at h ⊢
    exact .illegal none h

/-! ## The items of a text -/

/-- There is one way to cut the text into longest matches, with one character alone where nothing
matches, and the items are those of its pieces. The rules, tried one after the other, find the same
matches. A word is a keyword exactly if it is a reserved one, and a name otherwise. -/
theorem tokenize_stepwise (source : String) :
    (∃ pieces, Stepwise (withoutByteOrderMark source.toList) pieces ∧
        tokenize source = itemsAt [] pieces ∧
        ∀ others, Stepwise (withoutByteOrderMark source.toList) others → others = pieces) ∧
      (∀ c cs, (∃ cut, Cut.IsLongest (c :: cs) cut ∧ Piece.first c cs = Piece.ofCut cut) ∨
        NoMatch (c :: cs) ∧ Piece.first c cs = Piece.illegal c cs) ∧
      (∀ cs, Cut.longest? cs = Cut.byRules cs) ∧
      ∀ text rest,
        ((∃ w, (Piece.ofCut ⟨.word, text, rest⟩).verdict = .token (.keyword w)) ↔
          String.ofList text ∈ reservedWords) ∧
        ((Piece.ofCut ⟨.word, text, rest⟩).verdict = .token .ident ↔
          String.ofList text ∉ reservedWords) := by
  obtain ⟨pieces, stepwise, found⟩ :=
    Scanner.exists_pieces .nil (fun _ _ _ => Stepwise.cons) []
      (withoutByteOrderMark source.toList)
  exact ⟨⟨pieces, stepwise, found, fun _ other => other.unique stepwise⟩, Piece.first_cases,
    fun cs => (Cut.byRules_eq_longest? cs).symm, Piece.verdict_word⟩

end ImpSyntax
