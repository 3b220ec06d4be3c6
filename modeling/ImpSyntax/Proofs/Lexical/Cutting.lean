import ImpSyntax.Proofs.Lexical.Lines
import ImpSyntax.Proofs.Lexical.LongestMatch

/-!
# Texts that are cut off

A text without lexical faults may be cut off behind any of its tokens: the tokens up to there are
found again, and nothing else. What is taken at a step is the longest match, and that is found again
wherever the text ends behind it, as a shorter text has fewer beginnings.

Main results:

* `Cut.IsLongest.shorten` — a match stays the longest one where the text ends earlier.
* `Piece.first_shorten` — so does the piece that is taken, unless it is at fault.
* `Scanner.exists_isCutOff` — a text can be cut off behind each of its tokens.
* `tokenize_cutBehind` — the items of a text that is cut off behind a token.
-/

namespace ImpSyntax

/-! ## Matches in shorter texts -/

theorem Cut.IsLongest.shorten {cls : LexClass} {text kept lost : List Char}
    (h : IsLongest (text ++ (kept ++ lost)) ⟨cls, text, kept ++ lost⟩) :
    IsLongest (text ++ kept) ⟨cls, text, kept⟩ where
  whole := rfl
  contains := h.contains
  longest cls' text' lies begins := by
    refine h.longest cls' text' lies (begins.trans ?_)
    rw [← List.append_assoc]
    exact List.prefix_append _ _
  earliest := h.earliest

namespace Piece

variable {cut : Cut}

/-- A cut that is at no fault is a piece as it stands. -/
theorem ofCut_eq (sound : ∀ reason, (ofCut cut).verdict ≠ .fault reason) :
    ofCut cut = ⟨(ofCut cut).verdict, cut.text, cut.rest⟩ ∧
      ∀ rest, (ofCut ⟨cut.cls, cut.text, rest⟩) = ⟨(ofCut cut).verdict, cut.text, rest⟩ := by
  obtain ⟨cls, text, rest⟩ := cut
  cases cls with
  | openComment | malformed | openQuote => exact absurd rfl (sound _)
  | _ => exact ⟨rfl, fun _ => rfl⟩

/-- The first piece of a text, if it is at no fault, is that of any beginning that holds it. -/
theorem first_shorten {c : Char} {cs kept lost : List Char}
    (sound : ∀ reason, (first c cs).verdict ≠ .fault reason)
    (rest : (first c cs).rest = kept ++ lost) :
    ∃ cs', (first c cs).text ++ kept = c :: cs' ∧
      first c cs' = ⟨(first c cs).verdict, (first c cs).text, kept⟩ := by
  cases found : Cut.longest? (c :: cs) with
  | none =>
    have made : first c cs = ⟨.fault (.illegal c), [c], cs⟩ := by rw [first, found]
    exact absurd (by rw [made]) (sound (.illegal c))
  | some cut =>
    have made : first c cs = ofCut cut := by rw [first, found]
    rw [made] at sound rest ⊢
    obtain ⟨same, shorter⟩ := ofCut_eq sound
    have longest := Cut.longest?_eq_some_iff.mp found
    rw [same] at rest ⊢
    have whole : c :: cs = cut.text ++ (kept ++ lost) := by rw [← rest, longest.whole]
    obtain ⟨cls, text, left⟩ := cut
    cases rest
    rw [whole] at longest
    have longest' := longest.shorten
    obtain ⟨d, tail, nonempty⟩ := List.exists_cons_of_ne_nil (Cut.text_ne_nil found)
    dsimp only at nonempty whole longest' ⊢
    rw [nonempty] at whole
    obtain ⟨rfl, -⟩ := List.cons.inj whole
    refine ⟨tail ++ kept, by rw [nonempty]; rfl, ?_⟩
    rw [nonempty, List.cons_append, ← Cut.longest?_eq_some_iff] at longest'
    rw [first, longest', ← nonempty]
    exact shorter kept

end Piece

/-! ## Items in front of a cut -/

namespace Scanner

/-- Cut off behind `kept`, the text that begins at `pos` has the first `n` of its items and no other
but the end. -/
structure IsCutOff (pos : Position) (n : Nat) (text kept lost : List Char) : Prop where
  whole : text = kept ++ lost
  items : (⟨kept, pos, false⟩ : Scanner).items =
    (⟨text, pos, false⟩ : Scanner).items.take n ++ [.token (.eof (pos.after kept))]

theorem isCutOff_nil (pos : Position) (text : List Char) : IsCutOff pos 0 text [] text :=
  ⟨rfl, items_nil pos⟩

/-- Cut off behind its first piece or later, a text has the item of that piece in front of those that
the rest has. -/
theorem IsCutOff.cons {c : Char} {cs kept lost : List Char} {pos : Position} {n : Nat}
    (sound : ∀ reason, (Piece.first c cs).verdict ≠ .fault reason)
    (h : IsCutOff (pos.after (Piece.first c cs).text) n (Piece.first c cs).rest kept lost) :
    IsCutOff pos (((Piece.first c cs).item? pos).toList.length + n) (c :: cs)
      ((Piece.first c cs).text ++ kept) lost where
  whole := by rw [List.append_assoc, ← h.whole, Piece.text_append_rest]
  items := by
    obtain ⟨cs', whole, first⟩ := Piece.first_shorten sound h.whole
    have again : (⟨(Piece.first c cs).text ++ kept, pos, false⟩ : Scanner).items =
        ((Piece.first c cs).item? pos).toList ++
          (⟨kept, pos.after (Piece.first c cs).text, false⟩ : Scanner).items := by
      rw [whole, items_first, first]
      rfl
    rw [again, h.items, items_first, List.take_length_add_append, Position.after_append,
      List.append_assoc]

/-- Behind each of its tokens a text without faults can be cut off. -/
theorem exists_isCutOff {text : List Char} {pos : Position}
    (clean : ∀ item ∈ (⟨text, pos, false⟩ : Scanner).items, item.token?.isSome = true) {k : Nat}
    {t : Token} (found : (⟨text, pos, false⟩ : Scanner).items[k]? = some (.token t))
    (goesOn : t.kind ≠ .eof) :
    ∃ kept lost, IsCutOff pos (k + 1) text kept lost ∧
      pos.after kept = t.pos.after t.lexeme.toList := by
  induction text using Piece.induction generalizing pos k with
  | nil =>
    rw [items_nil] at found
    cases k with
    | zero => cases found; exact absurd rfl goesOn
    | succ k => cases found
  | piece c cs ih =>
    rw [items_first] at clean found
    have sound : ∀ reason, (Piece.first c cs).verdict ≠ .fault reason := by
      intro reason verdict
      have there := clean (.fault reason pos) (by simp [Piece.item?, verdict])
      cases there
    have cleanRest : ∀ item ∈ (⟨(Piece.first c cs).rest, pos.after (Piece.first c cs).text,
        false⟩ : Scanner).items, item.token?.isSome = true :=
      fun item mem => clean item (List.mem_append_right _ mem)
    have behind : ∀ j, (⟨(Piece.first c cs).rest, pos.after (Piece.first c cs).text,
        false⟩ : Scanner).items[j]? = some (.token t) → ∃ kept lost,
        IsCutOff pos (((Piece.first c cs).item? pos).toList.length + (j + 1)) (c :: cs) kept lost ∧
          pos.after kept = t.pos.after t.lexeme.toList := by
      intro j there
      obtain ⟨kept, lost, cut, place⟩ := ih cleanRest there
      exact ⟨_, lost, cut.cons sound, by rw [Position.after_append, place]⟩
    -- the token is that of the first piece, or lies behind it
    cases verdict : (Piece.first c cs).verdict with
    | fault reason => exact absurd verdict (sound reason)
    | trivia =>
      have none : (Piece.first c cs).item? pos = none := by rw [Piece.item?, verdict]
      rw [none] at found behind
      simpa using behind k found
    | token kind =>
      have some : (Piece.first c cs).item? pos =
          some (.token ⟨kind, String.ofList (Piece.first c cs).text, pos⟩) := by
        rw [Piece.item?, verdict]
      cases k with
      | zero =>
        rw [some] at found
        cases found
        have cut := (isCutOff_nil (pos.after _) (Piece.first c cs).rest).cons sound
        rw [some] at cut
        exact ⟨_, _, cut, by rw [List.append_nil, String.toList_ofList]⟩
      | succ k =>
        rw [some] at found behind
        have later := behind k found
        rwa [Option.toList_some, List.length_singleton, Nat.add_comm] at later

end Scanner

/-! ## The text behind a token cut off -/

/-- The characters of a text that begins at `pos` which stand in front of `last`. -/
def inFront (last : Position) : Position → List Char → List Char
  | _, [] => []
  | pos, c :: cs => if pos < last then c :: inFront last (pos.next c) cs else []

/-- The beginning of the text up to `last`; a byte-order mark in front of the text has no position
and stays. -/
def upTo (last : Position) : List Char → List Char
  | '\ufeff' :: cs => '\ufeff' :: inFront last .start cs
  | cs => inFront last .start cs

/-- The text cut off right behind the last of its first `k` items; without items nothing is left. -/
def cutBehind (source : String) : Nat → String
  | 0 => ""
  | k + 1 =>
    match (tokenize source)[k]? with
    | some (.token t) => String.ofList (upTo (t.pos.after t.lexeme.toList) source.toList)
    | _ => source

theorem inFront_append (pos : Position) (kept lost : List Char) :
    inFront (pos.after kept) pos (kept ++ lost) = kept := by
  induction kept generalizing pos with
  | nil =>
    cases lost with
    | nil => rfl
    | cons c cs => exact if_neg (by simp [Position.lt_iff])
  | cons c kept ih =>
    have before : pos < pos.after (c :: kept) := pos.lt_after (List.cons_ne_nil c kept)
    rw [List.cons_append, inFront, if_pos before, Position.after_cons, ih]

theorem isPrefix_inFront (last pos : Position) (cs : List Char) : inFront last pos cs <+: cs := by
  induction cs generalizing pos with
  | nil => exact List.prefix_refl _
  | cons c cs ih =>
    rw [inFront]
    split
    · exact List.cons_prefix_cons.mpr ⟨rfl, ih _⟩
    · exact List.nil_prefix

theorem isPrefix_upTo (last : Position) (cs : List Char) : upTo last cs <+: cs := by
  unfold upTo
  split
  · exact List.cons_prefix_cons.mpr ⟨rfl, isPrefix_inFront _ _ _⟩
  · exact isPrefix_inFront _ _ _

theorem withoutByteOrderMark_upTo {cs kept lost : List Char}
    (whole : withoutByteOrderMark cs = kept ++ lost) :
    withoutByteOrderMark (upTo (Position.start.after kept) cs) = kept := by
  unfold upTo
  split
  · next rest =>
    have whole' : rest = kept ++ lost := whole
    rw [whole', inFront_append]
    rfl
  · next plain =>
    have whole' : cs = kept ++ lost := by
      rw [← whole]
      unfold withoutByteOrderMark
      split
      · next rest => exact absurd rfl (plain rest)
      · rfl
    rw [whole', inFront_append]
    unfold withoutByteOrderMark
    split
    · next rest => exact absurd whole' (plain (rest ++ lost))
    · rfl

theorem isPrefix_cutBehind (source : String) (k : Nat) :
    (cutBehind source k).toList <+: source.toList := by
  cases k with
  | zero => exact List.nil_prefix
  | succ k =>
    rw [cutBehind]
    split
    · rw [String.toList_ofList]
      exact isPrefix_upTo _ _
    · exact List.prefix_refl _

/-- The text ends right behind the token behind which it is cut off, and has the items up to it. -/
theorem tokenize_cutBehind_succ {source : String} (clean : FaultFree source) {k : Nat} {t : Token}
    (found : (tokenize source)[k]? = some (.token t)) (goesOn : t.kind ≠ .eof) :
    endOf (cutBehind source (k + 1)) = t.pos.after t.lexeme.toList ∧
      tokenize (cutBehind source (k + 1)) =
        (tokenize source).take (k + 1) ++ [.token (.eof (endOf (cutBehind source (k + 1))))] := by
  obtain ⟨kept, lost, ⟨whole, items⟩, place⟩ := Scanner.exists_isCutOff clean found goesOn
  have left : withoutByteOrderMark (cutBehind source (k + 1)).toList = kept := by
    rw [cutBehind, found]
    dsimp only
    rw [String.toList_ofList, ← place, withoutByteOrderMark_upTo whole]
  rw [endOf, left]
  refine ⟨place, ?_⟩
  show (⟨withoutByteOrderMark _, .start, false⟩ : Scanner).items = _
  rw [left]
  exact items

theorem tokenize_cutBehind {source : String} (clean : FaultFree source) {k : Nat}
    (within : k ≤ (words source).length) :
    tokenize (cutBehind source k) =
      (tokenize source).take k ++ [.token (.eof (endOf (cutBehind source k)))] := by
  obtain ⟨ts, front, goesOn, tokens⟩ := clean.exists_tokens
  cases k with
  | zero => exact Scanner.items_nil .start
  | succ k =>
    have more : k < ts.length := by rw [tokens, List.length_map] at within; exact within
    have found : (tokenize source)[k]? = some (.token ts[k]) := by
      rw [tokenize_eq_front_append, front, List.getElem?_append_left (by simpa using more)]
      simp [more]
    exact (tokenize_cutBehind_succ clean found (goesOn _ (List.getElem_mem more))).2

end ImpSyntax
