import Mathlib
import ImpSyntax.Proofs.Lexical.Lines
import ImpSyntax.Proofs.Parser.Boundary
import ImpSyntax.Proofs.Parser.Stacking

/-!
# Statements one below the other

Texts of one statement each are read one below the other. What is reported on each of them is what
is reported on it alone, further down by the lines in front of it: a failure is over at the
semicolon of its own text. There is one exception. A text that is a semicolon and nothing else is
left out without being taken for an end, so that the search for a place to go on runs over the next
text as well, unless that begins with a word that begins a statement.

Main results:

* `reports_foldl_texts` — the reports behind texts that are read one below the other.
* `parse_joined_reports` — the reports on the whole are those on the texts that are not passed over.
-/

namespace ImpSyntax

/-! ## Texts of one statement -/

/-- The kinds of the words of a text. -/
def kinds (source : String) : List Kind := (words source).map Token.kind

/-- A text of one statement without blocks, with nothing in it for the scanner to find fault with
and no byte-order mark in front. -/
structure IsStatementText (s : String) : Prop where
  clean : FaultFree s
  unmarked : s.toList.head? ≠ some '\ufeff'
  stmt : IsStatement (kinds s)

/-- Whether a semicolon is all that the text says. -/
def isLoneSemicolon (s : String) : Bool := kinds s = [.mark .semicolon]

/-- Whether the text begins with a word that begins a statement. -/
def beginsWithWord (s : String) : Bool := (kinds s).head?.any Kind.startsStatement

theorem frontOf_eq {s : String} (h : s.toList.head? ≠ some '\ufeff') :
    frontOf s = Scanner.front s.toList .start := by
  rw [frontOf, withoutByteOrderMark_of_head? h]

/-- What is found in a text without byte-order mark: the items in front of the end, and the end. -/
theorem tokenize_eq_front {s : String} (h : s.toList.head? ≠ some '\ufeff') :
    ∃ last, tokenize s = Scanner.front s.toList .start ++ [.token (.eof last)] :=
  ⟨endOf s, by rw [tokenize_eq_front_append, frontOf_eq h]⟩

theorem kinds_of_tokens {s : String} {ts : List Token} {last : Position}
    (found : tokenize s = ts.map .token ++ [.token (.eof last)])
    (goesOn : ∀ t ∈ ts, t.kind ≠ .eof) : FaultFree s ∧ kinds s = ts.map Token.kind := by
  constructor
  · intro item mem
    rw [found, List.mem_append, List.mem_map, List.mem_singleton] at mem
    rcases mem with ⟨t, -, rfl⟩ | rfl <;> rfl
  · have before : ∀ t, Item.token t ∈ ts.map Item.token → t.kind ≠ .eof := by
      intro t mem
      obtain ⟨u, hu, same⟩ := List.mem_map.mp mem
      rw [← Item.token.inj same]
      exact goesOn u hu
    have tokens : (ts.map Item.token).filterMap Item.token? = ts := by
      rw [List.filterMap_map]
      exact List.filterMap_some
    rw [kinds, words_eq found before, tokens, List.map_map]
    rfl

theorem IsStatementText.of_tokens {s : String} (ts : List Token) (last : Position)
    (found : tokenize s = ts.map .token ++ [.token (.eof last)])
    (goesOn : ∀ t ∈ ts, t.kind ≠ .eof) (unmarked : s.toList.head? ≠ some '\ufeff')
    (stmt : IsStatement (ts.map Token.kind)) : IsStatementText s := by
  obtain ⟨clean, same⟩ := kinds_of_tokens found goesOn
  exact ⟨clean, unmarked, same ▸ stmt⟩

/-- The items in front of the end are the text's words where they stand. -/
theorem IsStatementText.front_eq {s : String} (h : IsStatementText s) :
    ∃ ts : List Token, Scanner.front s.toList .start = ts.map .token ∧
      ts.map Token.kind = kinds s ∧ ∀ t ∈ ts, t.kind ≠ .eof := by
  obtain ⟨ts, front, goesOn, tokens⟩ := h.clean.exists_tokens
  rw [frontOf_eq h.unmarked] at front
  refine ⟨ts, front, ?_, goesOn⟩
  rw [kinds, tokens, List.map_map]
  rfl

/-! ## One text below others -/

theorem Token.map_kind_relocate (f : Position → Position) (ts : List Token) :
    (ts.map (·.relocate f)).map Token.kind = ts.map Token.kind := by
  rw [List.map_map]
  rfl

theorem Token.ne_eof_of_mem_relocate {ts : List Token} (goesOn : ∀ t ∈ ts, t.kind ≠ .eof)
    (f : Position → Position) : ∀ t ∈ ts.map (·.relocate f), t.kind ≠ .eof := by
  intro t ht
  obtain ⟨u, hu, rfl⟩ := List.mem_map.mp ht
  exact goesOn u hu

namespace Parser

variable {p : Parser} {seeking : Bool}

/-- The end of the text adds no report where nothing is open. -/
theorem Rests.reports_end (rests : p.Rests seeking) (last : Position) :
    (p.feed (.token (.eof last))).reports = p.reports := by
  have finished : (p.finish last).reports = p.reports := by
    rw [finish, rests.blocks]
    dsimp only
    split <;> rfl
  show (p.feedToken (.eof last)).reports = p.reports
  cases seeking with
  | false => rw [feedToken_ready rests.mode, between_eq_finish rfl]; exact finished
  | true =>
    rw [feedToken_recovering rests.mode, recover_eq_between (.inl rfl), between_eq_finish rfl]
    exact finished

/-- Nothing that was read before takes part in what follows. -/
theorem Rests.eq_atop (rests : p.Rests false) : p = start.atop p.body p.reports := by
  obtain ⟨blocks, body, mode, pending, reports⟩ := p
  obtain rfl : blocks = [] := rests.blocks
  obtain rfl : mode = .ready := rests.mode
  obtain rfl : pending = false := rests.pending
  rfl

theorem Rests.atop_relocate (rests : p.Rests seeking) (f : Position → Position) (body : List Stmt)
    (reports : List Report) : ((p.relocate f).atop body reports).Rests seeking := by
  obtain ⟨blocks, statements, mode, pending, earlier⟩ := p
  obtain rfl : blocks = [] := rests.blocks
  obtain rfl : mode = .between seeking := rests.mode
  refine ⟨rfl, rests.pending, ?_⟩
  cases seeking <;> rfl

/-- Tokens further down, behind others, are read as they are read alone. -/
theorem Rests.foldl_relocate (rests : p.Rests false) {ts : List Token}
    (goesOn : ∀ t ∈ ts, t.kind ≠ .eof) (f : Position → Position) :
    (ts.map (·.relocate f)).foldl feedToken p =
      ((ts.foldl feedToken start).relocate f).atop p.body p.reports := by
  have moved : (ts.map (·.relocate f)).foldl feedToken start =
      (ts.foldl feedToken start).relocate f := by
    have items := foldl_feed_relocate f start (ts.map .token)
    rw [List.map_map, List.foldl_map, List.foldl_map] at items
    rw [List.foldl_map]
    exact items
  rw [← moved, ← foldl_feedToken_atop (Token.ne_eof_of_mem_relocate goesOn f), ← rests.eq_atop]

end Parser

/-- The reports on a text alone, in the lines behind the given number of others. -/
def reportsAt (place : Nat × String) : List Report :=
  (parse place.2).reports.map (·.relocate (.below place.1))

namespace IsStatementText

variable {s : String} (h : IsStatementText s)
include h

/-- The reports on the text alone are those that are there in front of its end. -/
theorem reports_eq {ts : List Token} (found : Scanner.front s.toList .start = ts.map .token)
    {seeking : Bool} (rests : (ts.foldl Parser.feedToken .start).Rests seeking) :
    (parse s).reports = (ts.foldl Parser.feedToken .start).reports.reverse := by
  obtain ⟨last, whole⟩ := tokenize_eq_front h.unmarked
  show ((tokenize s).foldl Parser.feed .start).reports.reverse = _
  rw [whole, found, List.foldl_append, Parser.foldl_feed_tokens]
  exact congrArg List.reverse (rests.reports_end last)

/-- The words of the text where it stands. -/
theorem front_below (n : Nat) :
    ∃ ts : List Token, Scanner.front s.toList .start = ts.map .token ∧
      Scanner.front s.toList (Position.start.below n) =
        (ts.map (·.relocate (.below n))).map .token ∧
      ts.map Token.kind = kinds s ∧ ∀ t ∈ ts, t.kind ≠ .eof := by
  obtain ⟨ts, found, same, goesOn⟩ := h.front_eq
  refine ⟨ts, found, ?_, same, goesOn⟩
  rw [Scanner.front_below, found, List.map_map, List.map_map]
  rfl

section Below

variable {p : Parser} (n : Nat)

/-- Where a statement can begin, the text is read as it is read alone. -/
theorem foldl_heard (rests : p.Rests false) :
    let q := (Scanner.front s.toList (Position.start.below n)).foldl Parser.feed p
    q.Rests (isLoneSemicolon s) ∧ q.reports = (reportsAt (n, s)).reverse ++ p.reports := by
  obtain ⟨ts, found, moved, same, goesOn⟩ := h.front_below n
  have initial : Parser.start.Rests false := ⟨rfl, rfl, rfl⟩
  have alone := Parser.foldl_statement (same ▸ h.stmt) goesOn initial
  rw [same] at alone
  intro q
  have read :
      q = ((ts.foldl Parser.feedToken .start).relocate (.below n)).atop p.body p.reports := by
    rw [← rests.foldl_relocate goesOn, ← Parser.foldl_feed_tokens, ← moved]
  rw [read]
  refine ⟨alone.atop_relocate _ _ _, ?_⟩
  rw [reportsAt, h.reports_eq found alone, ← List.map_reverse, List.reverse_reverse]
  rfl

/-- Where a place to go on is looked for, a text that begins with a word is read all the same. -/
theorem foldl_resumed (rests : p.Rests true) (begins : beginsWithWord s = true) :
    (Scanner.front s.toList (Position.start.below n)).foldl Parser.feed p =
      (Scanner.front s.toList (Position.start.below n)).foldl Parser.feed (p.into .ready) := by
  obtain ⟨ts, -, moved, same, -⟩ := h.front_below n
  rw [moved, Parser.foldl_feed_tokens, Parser.foldl_feed_tokens]
  apply Parser.foldl_statement_resumed rests
  rw [beginsWithWord, ← same, ← Token.map_kind_relocate (.below n), List.head?_map, Option.any_map,
    Option.any_eq_true] at begins
  exact begins

/-- A text that is not passed over is read as it is read alone. -/
theorem foldl_unless_passed {seeking : Bool} (rests : p.Rests seeking)
    (read : ¬ (seeking && !beginsWithWord s) = true) :
    let q := (Scanner.front s.toList (Position.start.below n)).foldl Parser.feed p
    q.Rests (isLoneSemicolon s) ∧ q.reports = (reportsAt (n, s)).reverse ++ p.reports := by
  cases seeking with
  | false => exact h.foldl_heard n rests
  | true =>
    have begins : beginsWithWord s = true := by simpa using read
    rw [h.foldl_resumed n rests begins]
    exact h.foldl_heard n (p := p.into .ready) ⟨rests.blocks, rests.pending, rfl⟩

/-- Any other text is passed over. -/
theorem foldl_passed (rests : p.Rests true) (others : beginsWithWord s = false) :
    (Scanner.front s.toList (Position.start.below n)).foldl Parser.feed p = p.into .ready := by
  obtain ⟨ts, -, moved, same, goesOn⟩ := h.front_below n
  rw [← Token.map_kind_relocate (.below n)] at same
  rw [moved, Parser.foldl_feed_tokens]
  apply Parser.foldl_statement_passed (same ▸ h.stmt) (Token.ne_eof_of_mem_relocate goesOn _) rests
  intro t ht
  rw [beginsWithWord, ← same, List.head?_map, Option.any_map, Option.any_eq_false] at others
  simpa using others t ht

end Below

end IsStatementText

/-! ## Texts one below the other -/

/-- The texts, each with the number of lines above it. -/
def placed : Nat → List String → List (Nat × String)
  | _, [] => []
  | n, s :: texts => (n, s) :: placed (n + lineCount s) texts

/-- The texts that are not passed over. Behind a text that is only a semicolon, and is not passed
over itself, a place to go on is looked for; a text that does not begin with a word is passed over
there. -/
def heard : Bool → List (Nat × String) → List (Nat × String)
  | _, [] => []
  | seeking, place :: places =>
    if seeking && !beginsWithWord place.2 then heard false places
    else place :: heard (isLoneSemicolon place.2) places

/-- Nothing is passed over where no text is only a semicolon. -/
theorem heard_eq_self {places : List (Nat × String)}
    (h : ∀ place ∈ places, isLoneSemicolon place.2 = false) : heard false places = places := by
  induction places with
  | nil => rfl
  | cons place places ih =>
    rw [heard, h place List.mem_cons_self, Bool.false_and, if_neg Bool.false_ne_true]
    rw [ih fun other mem => h other (List.mem_cons_of_mem place mem)]

theorem mem_placed {n : Nat} {texts : List String} {place : Nat × String}
    (h : place ∈ placed n texts) : place.2 ∈ texts := by
  induction texts generalizing n with
  | nil => cases h
  | cons s texts ih =>
    rcases List.mem_cons.mp h with rfl | h
    · exact List.mem_cons_self
    · exact List.mem_cons_of_mem s (ih h)

/-- What is found in texts one below the other: what is found in the first, and below it in the
others. -/
theorem front_intercalate {s : String} (h : IsStatementText s) (n : Nat) (texts : List String) :
    Scanner.front ("\n".intercalate (s :: texts)).toList (Position.start.below n) =
      Scanner.front s.toList (Position.start.below n) ++
        Scanner.front ("\n".intercalate texts).toList (Position.start.below (n + lineCount s)) := by
  cases texts with
  | nil => simp [Scanner.front_nil]
  | cons s' texts =>
    have split : ("\n".intercalate (s :: s' :: texts)).toList =
        s.toList ++ '\n' :: ("\n".intercalate (s' :: texts)).toList := by
      simp [String.intercalate_cons_cons]
    have closed := h.clean.closed
    rw [tokenize, Scanner.ofSource, withoutByteOrderMark_of_head? h.unmarked] at closed
    rw [split, Scanner.front_append_newline closed]
    rfl

/-- The reports behind texts that are read one below the other, and that nothing is open there. -/
theorem reports_foldl_texts {texts : List String} (h : ∀ s ∈ texts, IsStatementText s) (n : Nat)
    {p : Parser} {seeking : Bool} (rests : p.Rests seeking) :
    let q := (Scanner.front ("\n".intercalate texts).toList
      (Position.start.below n)).foldl Parser.feed p
    (∃ seeking', q.Rests seeking') ∧
      q.reports = ((heard seeking (placed n texts)).flatMap reportsAt).reverse ++ p.reports := by
  induction texts generalizing n p seeking with
  | nil =>
    have none : Scanner.front ("\n".intercalate []).toList (Position.start.below n) = [] :=
      Scanner.front_nil _
    rw [none]
    exact ⟨⟨seeking, rests⟩, rfl⟩
  | cons s texts ih =>
    -- Nothing is open behind the first text either, whether it is heard or passed over.
    have text := h s List.mem_cons_self
    have others : ∀ s ∈ texts, IsStatementText s := fun t ht => h t (List.mem_cons_of_mem s ht)
    rw [front_intercalate text, List.foldl_append, placed, heard]
    split
    · next passed =>
      obtain ⟨rfl, word⟩ : seeking = true ∧ beginsWithWord s = false := by simpa using passed
      rw [text.foldl_passed n rests word]
      exact ih others (n + lineCount s) ⟨rests.blocks, rests.pending, rfl⟩
    · next read =>
      obtain ⟨behind, reported⟩ := text.foldl_unless_passed n rests read
      obtain ⟨last, below⟩ := ih others (n + lineCount s) behind
      refine ⟨last, ?_⟩
      dsimp only at below ⊢
      rw [below, reported, List.flatMap_cons, List.reverse_append, List.append_assoc]

/-- No byte-order mark stands in front of texts without one. -/
theorem unmarked_intercalate {texts : List String} (h : ∀ s ∈ texts, IsStatementText s) :
    ("\n".intercalate texts).toList.head? ≠ some '\ufeff' := by
  match texts with
  | [] => simp
  | [s] => simpa using (h s List.mem_cons_self).unmarked
  | s :: s' :: others =>
    have unmarked := (h s List.mem_cons_self).unmarked
    rw [String.intercalate_cons_cons, String.append_assoc, String.toList_append]
    cases first : s.toList with
    | nil => simp
    | cons c cs => simpa [first] using unmarked

/-- Texts of one statement each, one below the other: the reports are those on each of them alone,
further down, but for the texts that are passed over behind a lone semicolon. Where no text is a
lone semicolon, none is passed over. -/
theorem parse_joined_reports {texts : List String} (h : ∀ s ∈ texts, IsStatementText s) :
    (parse ("\n".intercalate texts)).reports = (heard false (placed 0 texts)).flatMap reportsAt ∧
      ((∀ s ∈ texts, isLoneSemicolon s = false) →
        (parse ("\n".intercalate texts)).reports = (placed 0 texts).flatMap reportsAt) := by
  have reported : (parse ("\n".intercalate texts)).reports =
      (heard false (placed 0 texts)).flatMap reportsAt := by
    obtain ⟨last, whole⟩ := tokenize_eq_front (unmarked_intercalate h)
    have initial : Parser.start.Rests false := ⟨rfl, rfl, rfl⟩
    obtain ⟨⟨seeking, rests⟩, found⟩ := reports_foldl_texts h 0 initial
    show ((tokenize _).foldl Parser.feed .start).reports.reverse = _
    rw [whole, List.foldl_append, List.foldl_cons, List.foldl_nil]
    have ended := (rests.reports_end last).trans (found.trans (List.append_nil _))
    exact (congrArg List.reverse ended).trans (List.reverse_reverse _)
  refine ⟨reported, fun none => ?_⟩
  rw [reported, heard_eq_self fun place mem => none _ (mem_placed mem)]

/-- Behind a text that is only a semicolon a failure is not heard; without it, it is. -/
theorem parse_behind_lone_semicolon :
    ((∀ s ∈ [";", "x y;", "z w;"], IsStatementText s) ∧
      (parse ";\nx y;\nz w;").reports = [(0, ";"), (2, "z w;")].flatMap reportsAt ∧
      reportsAt (1, "x y;") = [⟨.syntactic (.missing .semicolon "y"), ⟨2, 3⟩⟩]) ∧
    ((∀ s ∈ ["x y;", "z w;"], IsStatementText s) ∧
      (∀ s ∈ ["x y;", "z w;"], isLoneSemicolon s = false) ∧
      (parse "x y;\nz w;").reports = [(0, "x y;"), (1, "z w;")].flatMap reportsAt) := by
  have lone : IsStatementText ";" :=
    .of_tokens [⟨.mark .semicolon, ";", ⟨1, 1⟩⟩] ⟨1, 2⟩ (by cbv) (by decide) (by decide)
      ⟨⟨[], rfl, by decide⟩, by decide⟩
  have double : IsStatement [.ident, .ident, .mark .semicolon] :=
    ⟨⟨[.ident, .ident], rfl, by decide⟩, by decide⟩
  have second : IsStatementText "x y;" :=
    .of_tokens
      [⟨.ident, "x", ⟨1, 1⟩⟩, ⟨.ident, "y", ⟨1, 3⟩⟩, ⟨.mark .semicolon, ";", ⟨1, 4⟩⟩] ⟨1, 5⟩
      (by cbv) (by decide) (by decide) double
  have third : IsStatementText "z w;" :=
    .of_tokens
      [⟨.ident, "z", ⟨1, 1⟩⟩, ⟨.ident, "w", ⟨1, 3⟩⟩, ⟨.mark .semicolon, ";", ⟨1, 4⟩⟩] ⟨1, 5⟩
      (by cbv) (by decide) (by decide) double
  have others : ∀ s ∈ ["x y;", "z w;"], IsStatementText s := by simp [second, third]
  have all : ∀ s ∈ [";", "x y;", "z w;"], IsStatementText s := by simp [lone, second, third]
  constructor
  · have passed : heard false (placed 0 [";", "x y;", "z w;"]) = [(0, ";"), (2, "z w;")] := by cbv
    have joined : "\n".intercalate [";", "x y;", "z w;"] = ";\nx y;\nz w;" := by decide
    have reported := (parse_joined_reports all).1
    rw [passed, joined] at reported
    exact ⟨all, reported, by cbv⟩
  · have none : ∀ s ∈ ["x y;", "z w;"], isLoneSemicolon s = false := by
      have apart : isLoneSemicolon "x y;" = false ∧ isLoneSemicolon "z w;" = false := by
        constructor <;> cbv
      simp [apart]
    have places : placed 0 ["x y;", "z w;"] = [(0, "x y;"), (1, "z w;")] := by cbv
    have joined : "\n".intercalate ["x y;", "z w;"] = "x y;\nz w;" := by decide
    have reported := (parse_joined_reports others).2 none
    rw [places, joined] at reported
    exact ⟨others, none, reported⟩

end ImpSyntax
