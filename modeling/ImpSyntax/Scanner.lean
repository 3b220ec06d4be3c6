import ImpSyntax.Lexical.Piece

/-!
# Scanning

A scanner stands somewhere in a text and gives its items one at a time: tokens and lexical faults,
each with its position, and behind the text once the token that marks the end. A byte-order mark in
front of the text is no part of it.

Main results:

* `Scanner.items_eq` — the items are the next one and those of the scanner behind it.
* `Scanner.items_nil`, `Scanner.items_cons` — the items of a text are read off its pieces, and the
  end comes last.
* `scan` — a listing with one line per item.
-/

namespace ImpSyntax

/-- What scanning finds. -/
inductive Item
  | token (token : Token)
  | fault (fault : LexicalFault) (pos : Position)
deriving DecidableEq, Repr

namespace Item

/-- Where the item begins. -/
def pos : Item → Position
  | token t => t.pos
  | fault _ p => p

/-- The item's line in a listing. -/
def toString : Item → String
  | token t => t.toString
  | fault f p => s!"error: {f.message} @ {p}"

instance : ToString Item := ⟨Item.toString⟩

end Item

/-- A place in a text: what is still to be read, where that begins, and whether the end has been
given. -/
structure Scanner where
  rest : List Char
  pos : Position
  ended : Bool
deriving DecidableEq, Repr

/-- The text without the byte-order mark in front of it, if there is one. -/
def withoutByteOrderMark : List Char → List Char
  | '\ufeff' :: cs => cs
  | cs => cs

namespace Scanner

/-- The scanner at the beginning of the text. -/
def ofSource (source : String) : Scanner :=
  ⟨withoutByteOrderMark source.toList, .start, false⟩

/-- The first item of a text that begins at `pos`, and the scanner behind it. -/
def read (pos : Position) : List Char → Item × Scanner
  | [] => (.token (.eof pos), ⟨[], pos, true⟩)
  | c :: cs =>
    let piece := Piece.first c cs
    let behind := pos.after piece.text
    match piece.verdict with
    | .trivia => read behind piece.rest
    | .token kind => (.token ⟨kind, String.ofList piece.text, pos⟩, ⟨piece.rest, behind, false⟩)
    | .fault fault => (.fault fault pos, ⟨piece.rest, behind, false⟩)
termination_by cs => cs.length
decreasing_by exact Piece.rest_length_lt c cs

/-- The next item and the scanner behind it; nothing follows the end. -/
def next? (s : Scanner) : Option (Item × Scanner) :=
  if s.ended then none else some (read s.pos s.rest)

/-- How many items there can still be at most. -/
def remaining (s : Scanner) : Nat := if s.ended then 0 else s.rest.length + 1

theorem remaining_read (pos : Position) (cs : List Char) :
    (read pos cs).2.remaining < cs.length + 1 := by
  fun_induction read pos cs with
  | case1 => simp [remaining]
  | case2 pos c cs piece behind hv ih =>
    have := Piece.rest_length_lt c cs
    exact Nat.lt_trans ih (Nat.succ_lt_succ this)
  | case3 pos c cs piece behind kind hv =>
    have := Piece.rest_length_lt c cs
    simpa [remaining] using this
  | case4 pos c cs piece behind fault hv =>
    have := Piece.rest_length_lt c cs
    simpa [remaining] using this

theorem remaining_next? {s s' : Scanner} {item : Item} (h : s.next? = some (item, s')) :
    s'.remaining < s.remaining := by
  unfold next? at h
  split at h
  · cases h
  · next open_ =>
    have := remaining_read s.pos s.rest
    simp only [Option.some.injEq] at h
    simpa [h, remaining, open_] using this

/-- The items that are still to come, behind those already `seen`, last one first. -/
def itemsFrom (seen : List Item) (s : Scanner) : List Item :=
  match _h : s.next? with
  | none => seen.reverse
  | some (item, s') => itemsFrom (item :: seen) s'
termination_by s.remaining
decreasing_by exact remaining_next? (by assumption)

/-- The items that are still to come. -/
def items (s : Scanner) : List Item := s.itemsFrom []

theorem itemsFrom_eq (seen : List Item) (s : Scanner) :
    s.itemsFrom seen = seen.reverse ++ s.items := by
  unfold items
  induction h : s.remaining using Nat.strongRecOn generalizing seen s with
  | ind n ih =>
    rw [itemsFrom.eq_1 seen s, itemsFrom.eq_1 [] s]
    split
    · simp
    · next item s' hs =>
      have lt := h ▸ remaining_next? hs
      rw [ih _ lt (item :: seen) s' rfl, ih _ lt [item] s' rfl]
      simp

theorem items_eq (s : Scanner) :
    s.items = match s.next? with
      | none => []
      | some (item, s') => item :: s'.items := by
  rw [items, itemsFrom.eq_1]
  split
  · next h => simp [h]
  · next item s' h => simp [h, itemsFrom_eq]

theorem items_of_ended (cs : List Char) (pos : Position) :
    (⟨cs, pos, true⟩ : Scanner).items = [] := by
  rw [items_eq]
  rfl

theorem items_nil (pos : Position) :
    (⟨[], pos, false⟩ : Scanner).items = [.token (.eof pos)] := by
  rw [items_eq]
  simp only [next?, read, Bool.false_eq_true, if_false]
  rw [items_of_ended]

theorem items_cons (c : Char) (cs : List Char) (pos : Position) :
    (⟨c :: cs, pos, false⟩ : Scanner).items =
      let piece := Piece.first c cs
      let behind := pos.after piece.text
      let others := (⟨piece.rest, behind, false⟩ : Scanner).items
      match piece.verdict with
      | .trivia => others
      | .token kind => .token ⟨kind, String.ofList piece.text, pos⟩ :: others
      | .fault fault => .fault fault pos :: others := by
  rw [items_eq]
  simp only [next?, Bool.false_eq_true, if_false]
  rw [read]
  cases (Piece.first c cs).verdict with
  | trivia => exact (items_eq ⟨_, _, false⟩).symm
  | token kind => rfl
  | fault fault => rfl

end Scanner

/-- Every item of the text, the end included. -/
def tokenize (source : String) : List Item := (Scanner.ofSource source).items

/-- A listing of the text's items, one line for each. -/
def scan (source : String) : String :=
  String.join ((tokenize source).map fun item => item.toString ++ "\n")

end ImpSyntax
