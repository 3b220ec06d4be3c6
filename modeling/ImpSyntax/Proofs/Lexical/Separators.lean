import Mathlib
import ImpSyntax.Proofs.Lexical.Lines
import ImpSyntax.Proofs.Lexical.LongestMatch

/-!
# Tokens and texts put together

Tokens are written down with layout between them: blanks, line ends and comments, the first of these a
blank or a line end, since a comment directly behind a token could change it. Whatever the layout is,
the tokens are found again, and nothing else. Texts are put together with a line end between them:
what is found in each of them is found again, and nothing else, as long as no comment is left open in
front of the line end.

Main results:

* `stream_layout` — layout is passed over as a whole.
* `tokenize_interleaved` — what is found in tokens with layout between them.
* `tokenize_below_line` — what is found in a text below another.
-/

namespace ImpSyntax

/-! ## Layout -/

instance (text : List Char) : Decidable (NoClose text) :=
  inferInstanceAs (Decidable (¬ ['*', '/'] <:+: text))

/-- Whether the character ends a token and is passed over: a blank or a newline. -/
def isSpace (c : Char) : Bool := isBlank c || c == '\n'

/-- The text consists of blanks, newlines, comments between `/*` and the next `*/`, and comments
between `//` and the end of the line, the newline included. -/
inductive IsLayout : List Char → Prop
  | nil : IsLayout []
  | space {c : Char} {rest : List Char} : isSpace c = true → IsLayout rest → IsLayout (c :: rest)
  | block {body rest : List Char} : NoClose body → IsLayout rest →
      IsLayout ('/' :: '*' :: (body ++ '*' :: '/' :: rest))
  | line {body rest : List Char} : '\n' ∉ body → IsLayout rest →
      IsLayout ('/' :: '/' :: (body ++ '\n' :: rest))

/-- The text can stand between any two tokens: it is layout and begins with a blank or a newline. -/
def Separates (text : List Char) : Prop :=
  IsLayout text ∧ ∃ c rest, text = c :: rest ∧ isSpace c = true

theorem Kind.goesOn_isSpace (k : Kind) {c : Char} (h : isSpace c = true) : k.goesOn c = false := by
  simp only [isSpace, isBlank, Bool.or_eq_true, beq_iff_eq] at h
  rcases h with ((rfl | rfl) | rfl) | rfl <;>
    cases k with
    | mark m => cases m <;> rfl
    | _ => rfl

theorem Separates.stops {text : List Char} (h : Separates text) (k : Kind) (rest : List Char) :
    Stops k.goesOn (text ++ rest) := by
  obtain ⟨-, c, others, rfl, space⟩ := h
  intro d hd
  cases hd
  exact k.goesOn_isSpace space

theorem stream_cons_of_isSpace {c : Char} (h : isSpace c = true) (cs : List Char) :
    stream (c :: cs) = stream cs := by
  simp only [isSpace, Bool.or_eq_true, beq_iff_eq] at h
  rcases h with blank | rfl
  · exact stream_cons_of_blank blank cs
  · exact stream_cons_newline cs

/-- A comment between `/*` and the next `*/` is passed over. -/
theorem stream_blockComment {body : List Char} (h : NoClose body) (rest : List Char) :
    stream ('/' :: '*' :: (body ++ '*' :: '/' :: rest)) = stream rest := by
  have cut : Cut.longest? ('/' :: '*' :: (body ++ '*' :: '/' :: rest)) =
      some ⟨.blockComment, '/' :: '*' :: (body ++ ['*', '/']), rest⟩ := by
    have whole : Cut.comment (body ++ '*' :: '/' :: rest) =
        ⟨.blockComment, '/' :: '*' :: (body ++ ['*', '/']), rest⟩ := by
      rw [Cut.comment, Cut.throughClose_of_noClose h]
      rfl
    rw [← whole]
    rfl
  rw [stream_cons, Piece.first, cut]
  rfl

/-- A comment between `//` and the end of the line is passed over. -/
theorem stream_lineComment {body : List Char} (h : '\n' ∉ body) (rest : List Char) :
    stream ('/' :: '/' :: (body ++ '\n' :: rest)) = stream rest := by
  have inLine : ∀ c ∈ '/' :: '/' :: body, (c != '\n') = true := by
    intro c mem
    simp only [List.mem_cons] at mem
    rcases mem with rfl | rfl | mem
    · rfl
    · rfl
    · exact bne_iff_ne.mpr fun same => h (same ▸ mem)
  have stops : Stops (· != '\n') ('\n' :: rest) := by
    intro c hc
    cases hc
    rfl
  have cut : Cut.longest? ('/' :: '/' :: (body ++ '\n' :: rest)) =
      some ⟨.lineComment, '/' :: '/' :: body, '\n' :: rest⟩ := by
    have text := takeWhile_append_of_stops inLine stops
    have behind := dropWhile_append_of_stops inLine stops
    show some (Cut.run .lineComment (· != '\n') ('/' :: '/' :: body ++ '\n' :: rest)) = _
    rw [Cut.run, text, behind]
  rw [stream_cons, Piece.first, cut]
  exact stream_cons_newline rest

/-- Layout is passed over as a whole. -/
theorem stream_layout {text : List Char} (h : IsLayout text) (rest : List Char) :
    stream (text ++ rest) = stream rest := by
  induction h with
  | nil => rfl
  | space space _ ih => rw [List.cons_append, stream_cons_of_isSpace space, ih]
  | block noClose _ ih =>
    rw [List.cons_append, List.cons_append, List.append_assoc, List.cons_append, List.cons_append,
      stream_blockComment noClose, ih]
  | line inLine _ ih =>
    rw [List.cons_append, List.cons_append, List.append_assoc, List.cons_append,
      stream_lineComment inLine, ih]

/-! ## Tokens with layout between them -/

/-- The texts one after the other, each with the next separator behind it. -/
def interleaved : List String → List String → String
  | [], _ => ""
  | text :: texts, [] => text ++ interleaved texts []
  | text :: texts, separator :: separators => text ++ separator ++ interleaved texts separators

theorem Token.erase_eq (t : Token) : t.erase = ⟨t.kind, String.ofList t.lexeme.toList, .unknown⟩ := by
  rw [String.ofList_toList]
  rfl

theorem stream_interleaved {ts : List Token} {separators : List String}
    (spelled : ∀ t ∈ ts, t.kind.Spells t.lexeme.toList)
    (between : separators.length = ts.length - 1)
    (separate : ∀ s ∈ separators, Separates s.toList) :
    stream (interleaved (ts.map Token.lexeme) separators).toList =
      (ts.map Token.erase ++ [Token.eof .unknown]).map .token := by
  induction ts generalizing separators with
  | nil => exact stream_nil
  | cons t ts ih =>
    rw [List.forall_mem_cons] at spelled
    cases ts with
    | nil =>
      obtain rfl := List.length_eq_zero_iff.mp between
      have last := @stream_append t.kind t.lexeme.toList [] spelled.1 (fun c hc => by cases hc)
      have text : (interleaved ([t].map Token.lexeme) []).toList = t.lexeme.toList ++ [] := by
        simp [interleaved]
      rw [text, last, stream_nil, ← Token.erase_eq]
      rfl
    | cons u ts =>
      obtain ⟨s, separators, rfl⟩ :=
        List.exists_cons_of_ne_nil (List.ne_nil_of_length_eq_add_one between)
      rw [List.forall_mem_cons] at separate
      have others := ih spelled.2 (Nat.succ.inj between) separate.2
      have text : (interleaved ((t :: u :: ts).map Token.lexeme) (s :: separators)).toList =
          t.lexeme.toList ++ (s.toList ++
            (interleaved ((u :: ts).map Token.lexeme) separators).toList) := by
        simp [interleaved]
      rw [text, stream_append spelled.1 (separate.1.stops _ _), stream_layout separate.1.1, others,
        ← Token.erase_eq]
      rfl

/-- Tokens with layout between them are found again, each with its kind and its text, and nothing
else is. -/
theorem tokenize_interleaved {ts : List Token} {separators : List String}
    (spelled : ∀ t ∈ ts, t.kind.Spells t.lexeme.toList)
    (between : separators.length = ts.length - 1)
    (separate : ∀ s ∈ separators, Separates s.toList) :
    (tokenize (interleaved (ts.map Token.lexeme) separators)).map Item.erase =
      (ts.map Token.erase ++ [Token.eof .unknown]).map .token := by
  have found := stream_interleaved spelled between separate
  obtain ⟨clean, read⟩ := words_of_text found
  rw [tokenize_eq_words clean, read]

/-- Comments with quotes, stars and openings of comments in them, between tokens that could go on. -/
theorem tokenize_interleaved_division :
    let ts : List Token := [⟨.ident, "x", ⟨0, 0⟩⟩, ⟨.mark .divide, "/", ⟨0, 0⟩⟩,
      ⟨.char, "'\\''", ⟨0, 0⟩⟩, ⟨.mark .bang, "!", ⟨0, 0⟩⟩, ⟨.mark .equals, "=", ⟨0, 0⟩⟩,
      ⟨.keyword .whileWord, "while", ⟨0, 0⟩⟩, ⟨.float, "0.5", ⟨0, 0⟩⟩]
    let separators := ["\t", " /***/", "\n// '/*\n", "\r", " /*/*/ ", " /* ' // */\n"]
    (∀ t ∈ ts, t.kind.Spells t.lexeme.toList) ∧ separators.length = ts.length - 1 ∧
      (∀ s ∈ separators, Separates s.toList) ∧
      interleaved (ts.map Token.lexeme) separators =
        "x\t/ /***/'\\''\n// '/*\n!\r= /*/*/ while /* ' // */\n0.5" ∧
      (tokenize "x\t/ /***/'\\''\n// '/*\n!\r= /*/*/ while /* ' // */\n0.5").map Item.erase =
        (ts ++ [Token.eof .unknown]).map .token := by
  intro ts separators
  have spelled : ∀ t ∈ ts, t.kind.Spells t.lexeme.toList := by
    have name : Kind.ident.Spells "x".toList :=
      ⟨⟨by decide, by simp⟩, fun w => by cases w <;> decide⟩
    have quote : Kind.char.Spells "'\\''".toList := .inr ⟨'\'', rfl, by decide⟩
    have half : Kind.float.Spells "0.5".toList :=
      ⟨['0'], ['5'], rfl, isDigits_singleton rfl, isDigits_singleton rfl⟩
    simp only [ts, List.forall_mem_cons, List.not_mem_nil, false_imp_iff, implies_true, and_true]
    exact ⟨name, rfl, quote, rfl, rfl, rfl, half⟩
  have separate : ∀ s ∈ separators, Separates s.toList := by
    have line : IsLayout "\n// '/*\n".toList :=
      .space rfl (@IsLayout.line [' ', '\'', '/', '*'] [] (by decide) .nil)
    have star : IsLayout " /***/".toList := .space rfl (@IsLayout.block ['*'] [] (by decide) .nil)
    have slash : IsLayout " /*/*/ ".toList :=
      .space rfl (@IsLayout.block ['/'] [' '] (by decide) (.space rfl .nil))
    have quote : IsLayout " /* ' // */\n".toList :=
      .space rfl (@IsLayout.block [' ', '\'', ' ', '/', '/', ' '] ['\n'] (by decide)
        (.space rfl .nil))
    simp only [separators, List.forall_mem_cons, List.not_mem_nil, false_imp_iff, implies_true,
      and_true]
    exact ⟨⟨.space rfl .nil, _, _, rfl, rfl⟩, ⟨star, _, _, rfl, rfl⟩, ⟨line, _, _, rfl, rfl⟩,
      ⟨.space rfl .nil, _, _, rfl, rfl⟩, ⟨slash, _, _, rfl, rfl⟩, ⟨quote, _, _, rfl, rfl⟩⟩
  have text : interleaved (ts.map Token.lexeme) separators =
      "x\t/ /***/'\\''\n// '/*\n!\r= /*/*/ while /* ' // */\n0.5" := by cbv
  refine ⟨spelled, rfl, separate, text, ?_⟩
  rw [← text, tokenize_interleaved spelled rfl separate]
  rfl

/-! ## Texts with a newline between them -/

/-- What is found in a text below another is what is found in both, the second one further down. -/
theorem tokenize_below_line {a b : String} (closed : ∀ pos, .fault .unclosedComment pos ∉ tokenize a)
    (unmarked : b.toList.head? ≠ some '\ufeff') :
    ∃ front last, tokenize a = front ++ [.token (.eof last)] ∧
      (∀ t, .token t ∈ front → t.kind ≠ .eof) ∧
      tokenize (a ++ "\n" ++ b) = front ++ (tokenize b).map fun item =>
        item.relocate fun p => ⟨p.line + (1 + a.toList.count '\n'), p.column⟩ := by
  refine ⟨frontOf a, endOf a, tokenize_eq_front_append a, fun t => ne_eof_of_mem_frontOf, ?_⟩
  have lines : 1 + a.toList.count '\n' = lineCount a := Nat.add_comm 1 _
  rw [lines]
  exact tokenize_append_newline closed unmarked

/-- A quote that is alone on its line in front of the newline, and faults on both sides of it. -/
theorem tokenize_below_open_quote :
    let a := "x /*\n*/ @ 'b;"
    let b := "// y */\n\t# ''"
    let found : List Item := [.token ⟨.ident, "x", ⟨1, 1⟩⟩, .fault (.illegal '@') ⟨2, 4⟩,
      .fault .unclosedChar ⟨2, 6⟩]
    (∀ pos, .fault .unclosedComment pos ∉ tokenize a) ∧ b.toList.head? ≠ some '\ufeff' ∧
      tokenize a = found ++ [.token (.eof ⟨2, 9⟩)] ∧
      tokenize b = [.fault (.illegal '#') ⟨2, 2⟩, .fault (.malformedChar "''") ⟨2, 4⟩,
        .token (.eof ⟨2, 6⟩)] ∧
      tokenize (a ++ "\n" ++ b) = found ++ [.fault (.illegal '#') ⟨4, 2⟩,
        .fault (.malformedChar "''") ⟨4, 4⟩, .token (.eof ⟨4, 6⟩)] := by
  intro a b found
  have above : tokenize a = found ++ [.token (.eof ⟨2, 9⟩)] := by cbv
  have below : tokenize b = [.fault (.illegal '#') ⟨2, 2⟩, .fault (.malformedChar "''") ⟨2, 4⟩,
      .token (.eof ⟨2, 6⟩)] := by cbv
  have closed : ∀ pos, .fault .unclosedComment pos ∉ tokenize a := by
    intro pos mem
    simp [above, found, Token.eof] at mem
  have unmarked : b.toList.head? ≠ some '\ufeff' := by decide
  obtain ⟨front, last, same, -, whole⟩ := tokenize_below_line closed unmarked
  have lines : a.toList.count '\n' = 1 := by decide
  rw [(List.append_inj' (same.symm.trans above) rfl).1, below, lines] at whole
  exact ⟨closed, unmarked, above, below, whole⟩

end ImpSyntax
