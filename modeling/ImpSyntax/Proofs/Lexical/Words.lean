import ImpSyntax.Proofs.Lexical.Spelling
import ImpSyntax.Proofs.Relocation

/-!
# The words of a text

What the scanner finds does not hang on where a text begins, so a text has one run of items once
positions are left out. Blanks and line ends vanish from it, and a spelling that keeps apart from
what follows gives its token. The words of a text are its tokens in front of the end.

Main results:

* `stream_append`, `stream_cons_of_blank` — the items of a text are found from left to right.
* `words_spelled` — every word is spelled as its kind says.
* `tokenize_eq_words` — a text without lexical faults is its words and the end.
* `words_of_text` — the words of a text whose items are known.
* `words_spaced` — every run of words is that of some text.
-/

namespace ImpSyntax

/-! ## Words -/

/-- The token without its position. -/
def Token.erase (t : Token) : Token := t.relocate fun _ => .unknown

/-- The item without its position. -/
def Item.erase (item : Item) : Item := item.relocate fun _ => .unknown

/-- The token that was found, if one was. -/
def Item.token? : Item → Option Token
  | token t => some t
  | fault .. => none

/-- The words of a text: its tokens in front of the end, without their positions. -/
def words (source : String) : List Token :=
  (((tokenize source).filterMap Item.token?).takeWhile (·.kind != .eof)).map Token.erase

/-- Nothing in the text is found at fault when it is scanned. -/
def FaultFree (source : String) : Prop := ∀ item ∈ tokenize source, item.token?.isSome = true

theorem Kind.Spells.ne_eof {k : Kind} {text : List Char} (h : k.Spells text) : k ≠ .eof := by
  rintro rfl
  exact h

theorem Item.eq_token_of_isSome {item : Item} (h : item.token?.isSome = true) :
    ∃ t, item = .token t := by
  cases item with
  | token t => exact ⟨t, rfl⟩
  | fault => cases h

/-! ## What the scanner finds -/

namespace Scanner

/-- In front of the end there are faults and tokens that are spelled as their kinds say. -/
theorem items_shape (cs : List Char) (pos : Position) :
    ∃ items last, (⟨cs, pos, false⟩ : Scanner).items = items ++ [.token (.eof last)] ∧
      ∀ t, .token t ∈ items → t.kind.Spells t.lexeme.toList := by
  induction cs using Piece.induction generalizing pos with
  | nil => exact ⟨[], pos, items_nil pos, by simp⟩
  | piece c cs ih =>
    obtain ⟨items, last, found, spelled⟩ := ih (pos.after (Piece.first c cs).text)
    rw [items_cons]
    dsimp only
    rw [found]
    cases verdict : (Piece.first c cs).verdict with
    | trivia => exact ⟨items, last, rfl, spelled⟩
    | token k =>
      refine ⟨_ :: items, last, rfl, fun t ht => ?_⟩
      rcases List.mem_cons.mp ht with same | ht
      · cases same
        rw [String.toList_ofList]
        exact Piece.spells_of_first verdict
      · exact spelled t ht
    | fault reason =>
      refine ⟨_ :: items, last, rfl, fun t ht => ?_⟩
      rcases List.mem_cons.mp ht with same | ht
      · cases same
      · exact spelled t ht

/-- Where the text begins makes no difference but to the positions. -/
theorem items_erase (cs : List Char) (pos pos' : Position) :
    (⟨cs, pos, false⟩ : Scanner).items.map Item.erase =
      (⟨cs, pos', false⟩ : Scanner).items.map Item.erase := by
  induction cs using Piece.induction generalizing pos pos' with
  | nil => rw [items_nil, items_nil]; rfl
  | piece c cs ih =>
    have behind := ih (pos.after (Piece.first c cs).text) (pos'.after (Piece.first c cs).text)
    rw [items_cons, items_cons]
    dsimp only
    cases (Piece.first c cs).verdict with
    | trivia => exact behind
    | token k => exact congrArg (List.cons _) behind
    | fault reason => exact congrArg (List.cons _) behind

end Scanner

/-! ## Items without positions -/

/-- The items of a text that begins anywhere, without their positions. -/
def stream (cs : List Char) : List Item :=
  (⟨cs, .start, false⟩ : Scanner).items.map Item.erase

theorem stream_nil : stream [] = [.token (.eof .unknown)] := by
  rw [stream, Scanner.items_nil]
  rfl

theorem stream_cons (c : Char) (cs : List Char) :
    stream (c :: cs) = match (Piece.first c cs).verdict with
      | .trivia => stream (Piece.first c cs).rest
      | .token k =>
        .token ⟨k, String.ofList (Piece.first c cs).text, .unknown⟩ ::
          stream (Piece.first c cs).rest
      | .fault reason => .fault reason .unknown :: stream (Piece.first c cs).rest := by
  have behind := Scanner.items_erase (Piece.first c cs).rest
    (Position.start.after (Piece.first c cs).text) .start
  rw [stream, Scanner.items_cons]
  dsimp only
  cases (Piece.first c cs).verdict with
  | trivia => exact behind
  | token k => exact congrArg (List.cons _) behind
  | fault reason => exact congrArg (List.cons _) behind

theorem stream_append {k : Kind} {text rest : List Char} (h : k.Spells text)
    (apart : Stops k.goesOn rest) :
    stream (text ++ rest) = .token ⟨k, String.ofList text, .unknown⟩ :: stream rest := by
  obtain ⟨c, cs, whole, first⟩ := Piece.first_of_spells h apart
  rw [whole, stream_cons, first]

section Trivia

variable {p : Char → Bool}
  (trivia : ∀ c cs, p c = true →
    Piece.first c cs = ⟨.trivia, (c :: cs).takeWhile p, (c :: cs).dropWhile p⟩)
include trivia

/-- A run of characters that is passed over can be left out. -/
theorem stream_dropWhile (cs : List Char) : stream (cs.dropWhile p) = stream cs := by
  cases cs with
  | nil => rfl
  | cons c cs =>
    by_cases h : p c = true
    · rw [stream_cons, trivia c cs h]
    · rw [List.dropWhile_cons_of_neg h]

theorem stream_cons_of_trivia {c : Char} (h : p c = true) (cs : List Char) :
    stream (c :: cs) = stream cs := by
  rw [← stream_dropWhile trivia (c :: cs), List.dropWhile_cons_of_pos h, stream_dropWhile trivia]

end Trivia

theorem stream_cons_of_blank {c : Char} (h : isBlank c = true) (cs : List Char) :
    stream (c :: cs) = stream cs :=
  stream_cons_of_trivia (fun c cs hc => by simp [Piece.first, Cut.longest?, hc, Cut.run, Piece.ofCut])
    h cs

theorem stream_cons_newline (cs : List Char) : stream ('\n' :: cs) = stream cs := by
  refine stream_cons_of_trivia (p := (· == '\n')) (fun c cs hc => ?_) rfl cs
  cases beq_iff_eq.mp hc
  rfl

/-! ## The words of a text whose items are known -/

theorem words_eq {source : String} {items : List Item} {last : Position}
    (found : tokenize source = items ++ [.token (.eof last)])
    (before : ∀ t, .token t ∈ items → t.kind ≠ .eof) :
    words source = (items.filterMap Item.token?).map Token.erase := by
  have passed : ∀ t ∈ items.filterMap Item.token?, (t.kind != .eof) = true := by
    intro t ht
    obtain ⟨item, hitem, is⟩ := List.mem_filterMap.mp ht
    cases item with
    | token t' => cases is; simpa using before t hitem
    | fault => cases is
  rw [words, found, List.filterMap_append, List.takeWhile_append_of_pos passed]
  simp [Item.token?, Token.eof]

theorem words_spelled {source : String} {t : Token} (h : t ∈ words source) :
    t.kind.Spells t.lexeme.toList := by
  obtain ⟨items, last, found, spelled⟩ :=
    Scanner.items_shape (withoutByteOrderMark source.toList) .start
  rw [words_eq found fun t ht => (spelled t ht).ne_eof] at h
  obtain ⟨t', ht', rfl⟩ := List.mem_map.mp h
  obtain ⟨item, hitem, is⟩ := List.mem_filterMap.mp ht'
  cases item with
  | token t' => cases is; exact spelled t' hitem
  | fault => cases is

theorem Item.eq_map_token_of_isSome {items : List Item}
    (h : ∀ item ∈ items, item.token?.isSome = true) :
    items = (items.filterMap Item.token?).map .token := by
  induction items with
  | nil => rfl
  | cons item items ih =>
    obtain ⟨t, rfl⟩ := Item.eq_token_of_isSome (h item List.mem_cons_self)
    exact congrArg (List.cons _) (ih fun item hitem => h item (List.mem_cons_of_mem _ hitem))

theorem tokenize_eq_words {source : String} (h : FaultFree source) :
    (tokenize source).map Item.erase = (words source ++ [Token.eof .unknown]).map .token := by
  obtain ⟨items, last, found, spelled⟩ :=
    Scanner.items_shape (withoutByteOrderMark source.toList) .start
  have scanned : tokenize source = items ++ [.token (.eof last)] := found
  have clean : ∀ item ∈ items, item.token?.isSome = true :=
    fun item hitem => h item (scanned ▸ List.mem_append_left _ hitem)
  have erased : items.map Item.erase =
      ((items.filterMap Item.token?).map Token.erase).map Item.token := by
    conv_lhs => rw [Item.eq_map_token_of_isSome clean]
    rw [List.map_map, List.map_map]
    rfl
  rw [scanned, List.map_append, erased, ← words_eq found fun t ht => (spelled t ht).ne_eof,
    List.map_append]
  rfl

theorem words_of_stream {source : String} {ts : List Token}
    (h : stream (withoutByteOrderMark source.toList) = (ts ++ [Token.eof .unknown]).map .token) :
    FaultFree source ∧ words source = ts := by
  obtain ⟨items, last, found, spelled⟩ :=
    Scanner.items_shape (withoutByteOrderMark source.toList) .start
  have scanned : tokenize source = items ++ [.token (.eof last)] := found
  have same : items.map Item.erase = ts.map .token := by
    rw [stream, found, List.map_append, List.map_append] at h
    exact (List.append_inj' h rfl).1
  have kept : ∀ item : Item, item.erase.token? = item.token?.map Token.erase := by
    intro item
    cases item <;> rfl
  constructor
  · intro item hitem
    rw [scanned, List.mem_append, List.mem_singleton] at hitem
    rcases hitem with hitem | rfl
    · have erased : item.erase ∈ ts.map Item.token := same ▸ List.mem_map_of_mem hitem
      obtain ⟨t, -, is⟩ := List.mem_map.mp erased
      have is_token := kept item
      rw [← is] at is_token
      cases item with
      | token => rfl
      | fault => cases is_token
    · rfl
  · have read := congrArg (List.filterMap Item.token?) same
    rw [List.filterMap_map, List.filterMap_map] at read
    have left : (items.filterMap Item.token?).map Token.erase =
        items.filterMap (Item.token? ∘ Item.erase) := by
      rw [List.map_filterMap]
      congr 1
      funext item
      exact (kept item).symm
    have right : ts.filterMap (Item.token? ∘ Item.token) = ts := List.filterMap_some
    rw [words_eq found fun t ht => (spelled t ht).ne_eof, left, read, right]

/-! ## Texts without a byte-order mark -/

theorem stream_byteOrderMark (cs : List Char) :
    stream ('\ufeff' :: cs) = .fault (.illegal '\ufeff') .unknown :: stream cs := by
  have first : Piece.first '\ufeff' cs = ⟨.fault (.illegal '\ufeff'), ['\ufeff'], cs⟩ := by
    cases cs <;> rfl
  rw [stream_cons, first]

/-- A text in which only tokens are found begins with no byte-order mark. -/
theorem withoutByteOrderMark_eq {cs : List Char} {ts : List Token}
    (h : stream cs = ts.map .token) : withoutByteOrderMark cs = cs := by
  unfold withoutByteOrderMark
  split
  · rw [stream_byteOrderMark] at h
    cases ts with
    | nil => cases h
    | cons t ts => cases h
  · rfl

theorem words_of_text {source : String} {ts : List Token}
    (h : stream source.toList = (ts ++ [Token.eof .unknown]).map .token) :
    FaultFree source ∧ words source = ts :=
  words_of_stream (by rw [withoutByteOrderMark_eq h, h])

/-! ## Words in a row -/

/-- The words one after the other, with a space behind each. -/
def spaced (ts : List Token) : String := String.join (ts.map fun t => t.lexeme ++ " ")

/-- The token is spelled as its kind says, and has no position. -/
def Token.IsWord (t : Token) : Prop := t.kind.Spells t.lexeme.toList ∧ t.pos = .unknown

/-- The reserved word as a token without position. -/
def Keyword.token (w : Keyword) : Token := ⟨.keyword w, w.spelling, .unknown⟩

/-- The mark as a token without position. -/
def Mark.token (m : Mark) : Token := ⟨.mark m, m.spelling, .unknown⟩

theorem Mark.isWord_token (m : Mark) : m.token.IsWord :=
  ⟨String.toList_ofList, rfl⟩

theorem Kind.goesOn_space (k : Kind) : k.goesOn ' ' = false := by
  cases k with
  | mark m => cases m <;> rfl
  | _ => rfl

theorem stream_spaced {ts : List Token} (h : ∀ t ∈ ts, t.IsWord) :
    stream (spaced ts).toList = (ts ++ [Token.eof .unknown]).map .token := by
  induction ts with
  | nil => exact stream_nil
  | cons t ts ih =>
    obtain ⟨spelled, noPos⟩ := h t List.mem_cons_self
    have text : (spaced (t :: ts)).toList = t.lexeme.toList ++ ' ' :: (spaced ts).toList := by
      simp [spaced, String.join_cons]
    have apart : Stops t.kind.goesOn (' ' :: (spaced ts).toList) := by
      intro c hc
      cases hc
      exact t.kind.goesOn_space
    have same : (⟨t.kind, String.ofList t.lexeme.toList, .unknown⟩ : Token) = t := by
      rw [String.ofList_toList, ← noPos]
    rw [text, stream_append spelled apart, stream_cons_of_blank rfl,
      ih fun u hu => h u (List.mem_cons_of_mem _ hu), same]
    rfl

theorem words_spaced {ts : List Token} (h : ∀ t ∈ ts, t.IsWord) :
    FaultFree (spaced ts) ∧ words (spaced ts) = ts :=
  words_of_text (stream_spaced h)

end ImpSyntax
