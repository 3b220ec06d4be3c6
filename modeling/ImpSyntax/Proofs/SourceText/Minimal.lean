import ImpSyntax.Proofs.SourceText.Parentheses

/-!
# Parentheses that are needed

No pair of parentheses in the canonical text of an expression can be left out. A text that is parsed
to some tree has at least the words of the canonical text of that tree, since it only has more
parentheses; a text without one of the canonical pairs has fewer words, so that what it is parsed to,
if anything, is a different tree.

Main results:

* `Expr.pairs` — the operands that are written in parentheses, with the text on both sides.
* `Expr.source_of_mem_pairs`, `Expr.length_pairs` — these are the pairs that the text has.
* `Program.length_words_le` — no text of a program has fewer words than the canonical one.
* `parse_unpaired` — what comes of the text of an expression without one of its pairs.
-/

namespace ImpSyntax

open Precedence Grammar Reading

/-! ## Pairs of parentheses -/

/-- A pair of parentheses in a text: what stands in front of it, the operand inside, and what stands
behind it. -/
structure Pair where
  before : String
  operand : Expr
  behind : String
deriving DecidableEq, Repr

namespace Pair

/-- The text with the pair. -/
def text (x : Pair) : String := x.before ++ "(" ++ x.operand.source ++ ")" ++ x.behind

/-- The text without the pair. -/
def unpaired (x : Pair) : String := x.before ++ x.operand.source ++ x.behind

/-- The pair in a text that goes on to both sides. -/
def within (before behind : String) (x : Pair) : Pair :=
  ⟨before ++ x.before, x.operand, x.behind ++ behind⟩

theorem text_within (before behind : String) (x : Pair) :
    (x.within before behind).text = before ++ x.text ++ behind := by
  simp only [text, within, String.append_assoc]

theorem unpaired_within (before behind : String) (x : Pair) :
    (x.within before behind).unpaired = before ++ x.unpaired ++ behind := by
  simp only [unpaired, within, String.append_assoc]

end Pair

namespace Expr

/-- The pairs in the text of an operand: those `inner` to it, and the one around it if it is written
in parentheses. -/
def operandPairs (inParens : Bool) (e : Expr) (inner : List Pair) : List Pair :=
  if inParens then ⟨"", e, ""⟩ :: inner.map (.within "(" ")") else inner

/-- The pairs of parentheses in the text of the expression. -/
def pairs : Expr → List Pair
  | literal .. | location .. => []
  | unary op e _ => (operandPairs (e.isLooserThan unaryLevel) e e.pairs).map (.within op "")
  | binary op l r _ =>
    let left := l.isLooserThan (leftBound (binaryLevel op))
    let right := r.isLooserThan (rightBound (binaryLevel op))
    (operandPairs left l l.pairs).map (.within "" (" " ++ op ++ " " ++ enclosed right r.source)) ++
      (operandPairs right r r.pairs).map (.within (enclosed left l.source ++ " " ++ op ++ " ") "")

theorem enclosed_of_mem_operandPairs {e : Expr} (source : ∀ x ∈ e.pairs, e.source = x.text)
    (inParens : Bool) :
    ∀ x ∈ operandPairs inParens e e.pairs, enclosed inParens e.source = x.text := by
  intro x mem
  cases inParens with
  | false => exact source x mem
  | true =>
    rcases List.mem_cons.mp mem with rfl | mem
    · simp [Pair.text, enclosed]
    · obtain ⟨y, inner, rfl⟩ := List.mem_map.mp mem
      rw [Pair.text_within, ← source y inner]
      rfl

/-- Each of the pairs stands in the text. -/
theorem source_of_mem_pairs {e : Expr} : ∀ x ∈ e.pairs, e.source = x.text := by
  induction e with
  | literal | location => simp [pairs]
  | unary op e pos ih =>
    intro x mem
    obtain ⟨y, inner, rfl⟩ := List.mem_map.mp mem
    rw [Pair.text_within, ← enclosed_of_mem_operandPairs ih _ y inner]
    simp [source]
  | binary op l r pos ihl ihr =>
    intro x mem
    rcases List.mem_append.mp mem with mem | mem
    · obtain ⟨y, inner, rfl⟩ := List.mem_map.mp mem
      rw [Pair.text_within, ← enclosed_of_mem_operandPairs ihl _ y inner]
      simp [source, String.append_assoc]
    · obtain ⟨y, inner, rfl⟩ := List.mem_map.mp mem
      rw [Pair.text_within, ← enclosed_of_mem_operandPairs ihr _ y inner]
      simp [source, String.append_assoc]

/-! ### Order -/

/-- The pairs are given in the order of their opening parentheses. -/
def Ordered (xs : List Pair) : Prop := xs.Pairwise fun x y => x.before.length < y.before.length

theorem Ordered.within {xs : List Pair} (h : Ordered xs) (before behind : String) :
    Ordered (xs.map (.within before behind)) := by
  refine List.pairwise_map.mpr (List.Pairwise.imp (fun less => ?_) h)
  simpa [Pair.within] using less

theorem ordered_operandPairs {e : Expr} (h : Ordered e.pairs) (inParens : Bool) :
    Ordered (operandPairs inParens e e.pairs) := by
  cases inParens with
  | false => exact h
  | true =>
    refine List.pairwise_cons.mpr ⟨fun x mem => ?_, h.within "(" ")"⟩
    obtain ⟨y, -, rfl⟩ := List.mem_map.mp mem
    have width : "(".length = 1 := rfl
    simp [Pair.within, width]

/-- No two of the pairs are the same. -/
theorem ordered_pairs (e : Expr) : Ordered e.pairs := by
  induction e with
  | literal | location => exact .nil
  | unary op e pos ih => exact (ordered_operandPairs ih _).within op ""
  | binary op l r pos ihl ihr =>
    refine List.pairwise_append.mpr ⟨(ordered_operandPairs ihl _).within _ _,
      (ordered_operandPairs ihr _).within _ _, fun x left y right => ?_⟩
    obtain ⟨x, inner, rfl⟩ := List.mem_map.mp left
    obtain ⟨y, -, rfl⟩ := List.mem_map.mp right
    have text := congrArg String.length
      (enclosed_of_mem_operandPairs (fun _ => source_of_mem_pairs _) _ x inner)
    have width : "(".length = 1 := rfl
    simp only [Pair.text, Pair.within, String.length_append, String.length_empty] at text ⊢
    omega

end Expr

/-! ## Pairs among the words -/

/-- How many opening parentheses there are among the words. -/
def openParens (ts : List Token) : Nat := ts.countP (·.kind == .mark .openParen)

theorem openParens_cons {t : Token} (other : t.kind ≠ .mark .openParen) (ts : List Token) :
    openParens (t :: ts) = openParens ts := by
  simp [openParens, other]

theorem openParens_append (ts us : List Token) :
    openParens (ts ++ us) = openParens ts + openParens us := List.countP_append

theorem operatorWord_ne_openParen (op : String) : (operatorWord op).kind ≠ .mark .openParen := by
  unfold operatorWord
  cases found : Mark.operator? op with
  | none => simp [nameWord]
  | some m =>
    have plain := (Mark.operator?_eq_some_iff.mp found).1
    simp only [Option.map_some, Option.getD_some, Mark.token, ne_eq, Kind.mark.injEq]
    rintro rfl
    cases plain

theorem LiteralKind.wordKind_ne_openParen (kind : LiteralKind) (value : String) :
    kind.wordKind value ≠ .mark .openParen := by
  cases kind with
  | bool => rw [wordKind, Kind.ofWord]; split <;> simp
  | _ => simp [wordKind]

namespace Expr

theorem length_operandPairs {e : Expr} (count : e.pairs.length = openParens e.words)
    (inParens : Bool) :
    (operandPairs inParens e e.pairs).length = openParens (enclosedWords inParens e.words) := by
  cases inParens with
  | false => exact count
  | true =>
    have words : openParens (enclosedWords true e.words) = openParens (e.words ++ _) + 1 :=
      List.countP_cons_of_pos (a := Mark.openParen.token) rfl
    rw [words, openParens_append, ← count]
    exact congrArg (· + 1) (List.length_map _)

/-- There are no other pairs: each opening parenthesis among the words belongs to one of them. -/
theorem length_pairs (e : Expr) : e.pairs.length = openParens e.words := by
  induction e with
  | location name pos => rfl
  | literal kind value pos =>
    rw [words, openParens_cons (kind.wordKind_ne_openParen value)]
    rfl
  | unary op e pos ih =>
    rw [pairs, List.length_map, length_operandPairs ih, words,
      openParens_cons (operatorWord_ne_openParen op)]
  | binary op l r pos ihl ihr =>
    rw [pairs, List.length_append, List.length_map, List.length_map, length_operandPairs ihl,
      length_operandPairs ihr, words, openParens_append,
      openParens_cons (operatorWord_ne_openParen op)]

end Expr

/-! ## Text without a pair -/

/-- The text begins an operand, and it is scanned to two words less than `ts`. -/
structure LacksPair (text : List Char) (ts : List Token) : Prop where
  begins : ∃ c cs, text = c :: cs ∧ c ≠ '='
  written : ∃ us, Written text us ∧ us.length + 2 = ts.length

namespace LacksPair

variable {text text' : List Char} {ts ts' : List Token}

/-- The pair is not the outermost one. -/
theorem enclosed (h : LacksPair text ts) :
    LacksPair ('(' :: (text ++ [')'])) (Expr.enclosedWords true ts) where
  begins := ⟨'(', _, rfl, by decide⟩
  written := by
    obtain ⟨us, written, fewer⟩ := h.written
    have closed : Written (text ++ [')']) (us ++ [Mark.closeParen.token]) := written.followed rfl rfl
    have whole : Written ('(' :: (text ++ [')'])) (Mark.openParen.token :: (us ++ [_])) :=
      closed.preceded (m := .openParen) (by simp) fun _ _ => rfl
    exact ⟨_, whole, by simp [Expr.enclosedWords, ← fewer]⟩

/-- The pair is behind an operator in front of its operand. -/
theorem signed {m : Mark} (sign : (Kind.mark m).isSign = true) (h : LacksPair text ts) :
    LacksPair (m.chars ++ text) (m.token :: ts) where
  begins := by
    cases m with
    | bang | minus | plus => exact ⟨_, _, rfl, by decide⟩
    | _ => cases sign
  written := by
    obtain ⟨us, written, fewer⟩ := h.written
    obtain ⟨c, cs, rfl, notEquals⟩ := h.begins
    have apart : Stops m.goesOn (c :: cs) := by
      intro d hd
      cases hd
      exact Mark.goesOn_sign sign notEquals
    exact ⟨_, written.preceded (List.cons_ne_nil c cs) apart, by simp [← fewer]⟩

/-- The pair is on the left of a space. -/
theorem spaced (h : LacksPair text ts) (h' : Written text' ts') :
    LacksPair (text ++ ' ' :: text') (ts ++ ts') where
  begins := by
    obtain ⟨c, cs, rfl, notEquals⟩ := h.begins
    exact ⟨c, _, rfl, notEquals⟩
  written := by
    obtain ⟨us, written, fewer⟩ := h.written
    refine ⟨_, written.spaced h', ?_⟩
    rw [List.length_append, List.length_append, ← fewer]
    omega

/-- The pair is on the right of a space. -/
theorem behind (h : LacksPair text ts) (h' : Written text' ts')
    (begins : ∃ c cs, text' = c :: cs ∧ c ≠ '=') : LacksPair (text' ++ ' ' :: text) (ts' ++ ts) where
  begins := by
    obtain ⟨c, cs, rfl, notEquals⟩ := begins
    exact ⟨c, _, rfl, notEquals⟩
  written := by
    obtain ⟨us, written, fewer⟩ := h.written
    refine ⟨_, h'.spaced written, ?_⟩
    rw [List.length_append, List.length_append, ← fewer]
    omega

end LacksPair

namespace Expr

theorem lacksPair_operandPairs {e : Expr} (read : e.Readable)
    (lacks : ∀ x ∈ e.pairs, LacksPair x.unpaired.toList e.words) (inParens : Bool) :
    ∀ x ∈ operandPairs inParens e e.pairs,
      LacksPair x.unpaired.toList (enclosedWords inParens e.words) := by
  intro x mem
  cases inParens with
  | false => exact lacks x mem
  | true =>
    rcases List.mem_cons.mp mem with rfl | mem
    · -- Without the pair around it the operand alone is left.
      have bare : (Pair.mk "" e "").unpaired.toList = e.source.toList := by simp [Pair.unpaired]
      rw [bare]
      exact ⟨read.begins, e.words, read.written, by simp [enclosedWords]⟩
    · obtain ⟨y, inner, rfl⟩ := List.mem_map.mp mem
      have text : (y.within "(" ")").unpaired.toList = '(' :: (y.unpaired.toList ++ [')']) := by
        simp [Pair.unpaired_within]
      rw [text]
      exact (lacks y inner).enclosed

/-- The text of a well-formed expression without one of its pairs. -/
theorem lacksPair {e : Expr} (h : e.WellFormed) :
    ∀ x ∈ e.pairs, LacksPair x.unpaired.toList e.words := by
  induction e with
  | literal | location => simp [pairs]
  | unary op e pos ih =>
    obtain ⟨sign, operand⟩ := h
    obtain ⟨m, isSign, rfl⟩ := mem_signSpellings_iff.mp sign
    intro x mem
    obtain ⟨y, inner, rfl⟩ := List.mem_map.mp mem
    have lacks := lacksPair_operandPairs (readable_of_wellFormed operand) (ih operand) _ y inner
    have text : (y.within m.spelling "").unpaired.toList = m.chars ++ y.unpaired.toList := by
      simp [Pair.unpaired_within, Mark.spelling]
    rw [text, words, operatorWord_sign isSign]
    exact lacks.signed isSign
  | binary op l r pos ihl ihr =>
    obtain ⟨operator, left, right⟩ := h
    obtain ⟨m, level, found, rfl⟩ := mem_operatorSpellings_iff.mp operator
    have row : (Kind.mark m).binaryLevel? = some (level, .left) := by
      rw [binaryLevel?_mark, found]
      rfl
    have bounds := Kind.binaryLevel?_bounds row
    have readl := readable_of_wellFormed left
    have readr := readable_of_wellFormed right
    intro x mem
    rw [pairs, binaryLevel_spelling found] at mem
    rw [words, operatorWord_level found, binaryLevel_spelling found]
    rcases List.mem_append.mp mem with mem | mem
    · obtain ⟨y, inner, rfl⟩ := List.mem_map.mp mem
      have lacks := lacksPair_operandPairs readl (ihl left) _ y inner
      have behind := (Written.mark m).spaced (readr.operand (Nat.succ_le_of_lt bounds.2)).1
      rw [Pair.unpaired_within]
      simpa [Mark.spelling, rightBound, leftBound] using lacks.spaced behind
    · obtain ⟨y, inner, rfl⟩ := List.mem_map.mp mem
      have lacks := lacksPair_operandPairs readr (ihr right) _ y inner
      obtain ⟨written, begins, -⟩ := readl.operand (Nat.le_of_lt bounds.2)
      rw [Pair.unpaired_within]
      have before := written.spaced (Written.mark m)
      have front := lacks.behind before (by
        obtain ⟨c, cs, text, notEquals⟩ := begins
        exact ⟨c, _, by rw [text]; rfl, notEquals⟩)
      simpa [Mark.spelling, rightBound, leftBound] using front

end Expr

/-! ## Fewest words -/

/-- Positions take no part in the words. -/
theorem Expr.words_relocate (f : Position → Position) (e : Expr) :
    (e.relocate f).words = e.words := by
  induction e with
  | binary op l r pos ihl ihr => simp only [relocate, words, isLooserThan_relocate, ihl, ihr]
  | unary op e pos ih => simp only [relocate, words, isLooserThan_relocate, ih]
  | literal | location => rfl

/-- A text that is parsed has all the words of the canonical text of its program. -/
theorem Program.length_words_le {source : String} {p : Program}
    (accepted : (parse source).program? = some p) :
    p.words.length ≤ (ImpSyntax.words source).length := by
  obtain ⟨ts, demand, -, spelled, read, derived, -⟩ := derives_of_parse accepted
  have shed : ShedsParens (ts.map Token.erase) p.words := derived.shedsParens spelled
  rw [read]
  exact shed.sublist.length_le

/-- The words of a text that stands as a statement. -/
theorem Written.words_semicolon {text : String} {ts : List Token} (h : Written text.toList ts) :
    words (text ++ ";") = ts ++ [Mark.semicolon.token] := by
  have whole := (h.followed (m := .semicolon) rfl rfl).scanned [] (by simp)
  have ended : (text ++ ";").toList = text.toList ++ [';'] := by simp
  rw [List.append_nil, stream_nil, ← ended] at whole
  exact (words_of_text (by rw [whole]; simp)).2

/-- What is parsed from the text of an expression without one of its pairs is no such expression. -/
theorem Expr.erase_ne_of_unpaired {e : Expr} (h : e.WellFormed) {x : Pair} (mem : x ∈ e.pairs)
    {p : Program} (accepted : (parse (x.unpaired ++ ";")).program? = some p) {e' : Expr}
    {pos : Position} (body : p.body = [.expr e' pos]) : e'.erase ≠ e.erase := by
  intro same
  obtain ⟨us, written, fewer⟩ := (lacksPair h x mem).written
  have known := written.words_semicolon
  have enough := Program.length_words_le accepted
  have equal : e'.words = e.words := by
    rw [← e'.words_relocate fun _ => .unknown, ← e.words_relocate fun _ => .unknown]
    exact congrArg words same
  have canonical : p.words = e.words ++ [Mark.semicolon.token] := by
    rw [Program.words, body, ← equal]
    exact List.append_nil _
  rw [known, canonical, List.length_append, List.length_append, ← fewer] at enough
  omega

/-- The pairs of an expression are all the parentheses of its text, and without any one of them the
text, if it is one expression at all, is another one. -/
theorem parse_unpaired {e : Expr} (h : e.WellFormed) :
    e.pairs.length = openParens e.words ∧
      e.pairs.Pairwise (fun x y => x.before.length < y.before.length) ∧
      ∀ x ∈ e.pairs, e.source = x.text ∧
        ∀ p, (parse (x.unpaired ++ ";")).program? = some p →
          ∀ e' pos, p.body = [.expr e' pos] → e'.erase ≠ e.erase :=
  ⟨e.length_pairs, e.ordered_pairs, fun _ mem => ⟨Expr.source_of_mem_pairs _ mem,
    fun _ accepted _ _ body => Expr.erase_ne_of_unpaired h mem accepted body⟩⟩

/-- A sum behind a sign and a difference behind a product sign are written in parentheses. Without the
second pair the difference is taken of the product. -/
theorem parse_unpaired_difference :
    let sum : Expr := .binary "+" (.location "a" .unknown) (.literal .int "1" .unknown) .unknown
    let difference : Expr := .binary "-" (.location "b" .unknown) (.location "c" .unknown) .unknown
    let e : Expr := .binary "*" (.unary "-" sum .unknown) difference .unknown
    let x : Pair := ⟨"-(a + 1) * ", difference, ""⟩
    let sum' : Expr := .binary "+" (.location "a" ⟨1, 3⟩) (.literal .int "1" ⟨1, 7⟩) ⟨1, 3⟩
    let e' : Expr := .binary "-" (.binary "*" (.unary "-" sum' ⟨1, 1⟩) (.location "b" ⟨1, 12⟩) ⟨1, 1⟩)
      (.location "c" ⟨1, 16⟩) ⟨1, 1⟩
    e.WellFormed ∧ e.source = "-(a + 1) * (b - c)" ∧ x ∈ e.pairs ∧ x.unpaired = "-(a + 1) * b - c" ∧
      (parse "-(a + 1) * b - c;").program? = some ⟨[.expr e' ⟨1, 1⟩], ⟨1, 1⟩⟩ ∧
        e'.erase ≠ e.erase := by
  intro sum difference e x sum' e'
  have name : ∀ n : String, n = "a" ∨ n = "b" ∨ n = "c" → IsIdentifier n := by
    rintro n (rfl | rfl | rfl) <;>
      exact ⟨⟨by decide, by simp⟩, fun w => by cases w <;> decide⟩
  have wellFormed : e.WellFormed :=
    ⟨by decide, ⟨by decide, by decide, name "a" (.inl rfl), isDigits_singleton rfl⟩,
      by decide, name "b" (.inr (.inl rfl)), name "c" (.inr (.inr rfl))⟩
  have mem : x ∈ e.pairs := by
    have pairs : e.pairs = [⟨"-", sum, " * (b - c)"⟩, x] := by cbv
    rw [pairs]
    exact List.mem_cons_of_mem _ List.mem_cons_self
  have text : x.unpaired = "-(a + 1) * b - c" := by cbv
  have accepted : (parse "-(a + 1) * b - c;").program? = some ⟨[.expr e' ⟨1, 1⟩], ⟨1, 1⟩⟩ := by cbv
  obtain ⟨written, others⟩ := (parse_unpaired wellFormed).2.2 x mem
  rw [text] at others
  exact ⟨wellFormed, by cbv, mem, text, accepted, others _ accepted e' ⟨1, 1⟩ rfl⟩

end ImpSyntax
