import Mathlib.Tactic.SplitIfs
import ImpSyntax.Proofs.Lexical.Classes

/-!
# The longest match

The scanner's cut is described without the way in which it is found: it is the longest beginning of
the text that lies in any lexical class, and where several classes hold that beginning, it goes to
the one that is declared first. These demands leave no choice.

Main results:

* `Cut.IsLongest.unique` — a text has one longest match at most.
* `Cut.longest?_eq_some_iff` — the cut is the longest match.
* `Cut.longest?_eq_none_iff` — where there is no cut, no beginning of the text lies in a class.
-/

namespace ImpSyntax

/-! ## Runs and marks -/

theorem length_le_takeWhile {p : Char → Bool} {text cs : List Char} (begins : text <+: cs)
    (all : ∀ c ∈ text, p c = true) : text.length ≤ (cs.takeWhile p).length := by
  obtain ⟨rest, rfl⟩ := begins
  rw [List.takeWhile_append_of_pos all, List.length_append]
  exact Nat.le_add_right _ _

/-- Longer marks are tried before shorter ones. -/
theorem Mark.all_pairwise : all.Pairwise fun a b => b.chars.length ≤ a.chars.length := by decide

theorem Mark.length_le_of_first? {cs : List Char} {m : Mark} (h : first? cs = some m) {m' : Mark}
    (begins : m'.chars <+: cs) : m'.chars.length ≤ m.chars.length := by
  obtain ⟨-, before, behind, split, passed⟩ := List.find?_eq_some_iff_append.mp h
  have mem := m'.mem_all
  have ordered := all_pairwise
  rw [split] at mem ordered
  rcases List.mem_append.mp mem with mem | mem
  · have other : m'.chars.isPrefixOf cs = false := by simpa using passed m' mem
    rw [List.isPrefixOf_iff_prefix.mpr begins] at other
    cases other
  · rcases List.mem_cons.mp mem with rfl | mem
    · exact Nat.le_refl _
    · exact (List.pairwise_cons.mp (List.pairwise_append.mp ordered).2.1).1 m' mem

theorem Mark.chars_inj {a b : Mark} (h : a.chars = b.chars) : a = b := by
  cases a <;> cases b <;> first | rfl | cases h

/-! ## The longest match -/

namespace Cut

/-- The cut is the longest match: no longer beginning of the text lies in any class, and no class
that is declared earlier holds the same piece. -/
structure IsLongest (cs : List Char) (cut : Cut) : Prop where
  whole : cut.text ++ cut.rest = cs
  contains : cut.cls.Contains cut.text
  longest : ∀ cls text, LexClass.Contains cls text → text <+: cs →
    text.length ≤ cut.text.length
  earliest : ∀ cls, LexClass.Contains cls cut.text → cut.cls.place ≤ cls.place

/-- There is one longest match at most. -/
theorem IsLongest.unique {cs : List Char} {cut other : Cut} (h : cut.IsLongest cs)
    (h' : other.IsLongest cs) : cut = other := by
  have begins : cut.text <+: cs := ⟨_, h.whole⟩
  have begins' : other.text <+: cs := ⟨_, h'.whole⟩
  have length := Nat.le_antisymm (h'.longest _ _ h.contains begins)
    (h.longest _ _ h'.contains begins')
  have text : cut.text = other.text :=
    (List.prefix_of_prefix_length_le begins begins' (Nat.le_of_eq length)).eq_of_length length
  have cls : cut.cls = other.cls := LexClass.place_inj (Nat.le_antisymm
    (h.earliest _ (text ▸ h'.contains)) (h'.earliest _ (text ▸ h.contains)))
  have rest : cut.rest = other.rest := by
    have whole := h.whole.trans h'.whole.symm
    rw [text] at whole
    exact List.append_cancel_left whole
  cases cut
  cases other
  cases text
  cases cls
  cases rest
  rfl

/-- The cut goes before a text of some class: the text is shorter, or it is no longer and its class is
declared no earlier. -/
def GoesBefore (cut : Cut) (cls : LexClass) (text : List Char) : Prop :=
  text.length < cut.text.length ∨
    text.length = cut.text.length ∧ cut.cls.place ≤ cls.place

theorem goesBefore_of_le {cut : Cut} {cls : LexClass} {text : List Char}
    (length : text.length ≤ cut.text.length) (place : cut.cls.place ≤ cls.place) :
    cut.GoesBefore cls text := by
  rcases Nat.lt_or_eq_of_le length with less | same
  · exact .inl less
  · exact .inr ⟨same, place⟩

theorem isLongest_of_goesBefore {cs : List Char} {cut : Cut} (whole : cut.text ++ cut.rest = cs)
    (contains : cut.cls.Contains cut.text)
    (first : ∀ cls text, LexClass.Contains cls text → text <+: cs → cut.GoesBefore cls text) :
    cut.IsLongest cs where
  whole := whole
  contains := contains
  longest cls text lies begins := by
    rcases first cls text lies begins with less | ⟨same, -⟩
    · exact Nat.le_of_lt less
    · exact Nat.le_of_eq same
  earliest cls lies := by
    rcases first cls cut.text lies ⟨_, whole⟩ with less | ⟨-, place⟩
    · exact absurd less (Nat.lt_irrefl _)
    · exact place

/-! ## Which cut is made behind which opening -/

/-- The cut where a text begins with neither blank, newline, digit, letter nor quote. -/
def atOther (c : Char) (cs : List Char) : Option Cut :=
  match c, cs with
  | '/', '/' :: _ => some (run .lineComment (· != '\n') (c :: cs))
  | '/', '*' :: inside => some (comment inside)
  | _, _ => (Mark.first? (c :: cs)).map fun m => ⟨.mark m, m.chars, (c :: cs).drop m.chars.length⟩

theorem longest?_eq (c : Char) (cs : List Char) :
    longest? (c :: cs) = match Opening.of c with
      | .blank => some (run .blanks isBlank (c :: cs))
      | .newline => some (run .newlines (· == '\n') (c :: cs))
      | .digit => some (number (c :: cs))
      | .letter => some (run .word isWordRest (c :: cs))
      | .quote => some (character cs)
      | .other => atOther c cs := by
  unfold longest? Opening.of
  dsimp only
  split_ifs <;> rfl

/-! ## Behind every opening the cut goes first -/

theorem run_goesBefore {cls : LexClass} {p : Char → Bool} {cs text : List Char}
    (begins : text <+: cs) (all : ∀ c ∈ text, p c = true) : (run cls p cs).GoesBefore cls text :=
  goesBefore_of_le (length_le_takeWhile begins all) (Nat.le_refl _)

/-- A number has a point in it exactly where digits stand on both sides of one. -/
theorem number_cases (cs : List Char) :
    (∃ d ds, cs.dropWhile Char.isDigit = '.' :: d :: ds ∧ d.isDigit = true ∧
      number cs = ⟨.float, cs.takeWhile Char.isDigit ++ '.' :: (d :: ds).takeWhile Char.isDigit,
        (d :: ds).dropWhile Char.isDigit⟩) ∨
    (∀ d ds, cs.dropWhile Char.isDigit = '.' :: d :: ds → d.isDigit = false) ∧
      number cs = run .int Char.isDigit cs := by
  unfold number
  split
  · next d ds behind =>
    split_ifs with digit
    · exact .inl ⟨d, ds, behind, digit, rfl⟩
    · refine .inr ⟨fun d' ds' same => ?_, ?_⟩
      · cases behind.symm.trans same
        simpa using digit
      · rw [run, behind]
  · next other => exact .inr ⟨fun d ds same => absurd same (other d ds), rfl⟩

theorem number_goesBefore_int {cs text : List Char} (digits : IsDigits text)
    (begins : text <+: cs) : (number cs).GoesBefore .int text := by
  have length := length_le_takeWhile begins digits.2
  rcases number_cases cs with ⟨d, ds, -, -, cut⟩ | ⟨-, cut⟩
  · rw [cut]
    refine .inl ?_
    simp only [List.length_append, List.length_cons]
    omega
  · rw [cut]
    exact goesBefore_of_le length (Nat.le_refl _)

theorem number_goesBefore_float {cs text : List Char} (isFloat : IsFloat text)
    (begins : text <+: cs) : (number cs).GoesBefore .float text := by
  obtain ⟨whole, part, rfl, isWhole, isPart⟩ := isFloat
  obtain ⟨tail, rfl⟩ := begins
  obtain ⟨d, ds, rfl⟩ := List.exists_cons_of_ne_nil isPart.1
  have point : Stops Char.isDigit ('.' :: (d :: ds ++ tail)) := by
    intro c hc
    cases hc
    rfl
  have text : whole ++ '.' :: d :: ds ++ tail = whole ++ '.' :: (d :: ds ++ tail) := by simp
  have front := takeWhile_append_of_stops isWhole.2 point
  have behind := dropWhile_append_of_stops isWhole.2 point
  have length := length_le_takeWhile (List.prefix_append (d :: ds) tail) isPart.2
  rw [text]
  rcases number_cases (whole ++ '.' :: (d :: ds ++ tail)) with
    ⟨d', ds', behind', -, cut⟩ | ⟨noPart, -⟩
  · have same := behind.symm.trans behind'
    simp only [List.cons_append, List.cons.injEq, true_and] at same
    obtain ⟨rfl, rfl⟩ := same
    rw [cut, front]
    refine goesBefore_of_le ?_ (Nat.le_refl _)
    simp only [List.length_append, List.length_cons, List.cons_append] at length ⊢
    omega
  · have notDigit := noPart d (ds ++ tail) behind
    rw [isPart.2 d List.mem_cons_self] at notDigit
    cases notDigit

/-- At most one beginning of a text is a character constant. -/
theorem charConst_unique {text other cs : List Char} (h : IsCharConst text)
    (begins : text <+: cs) (h' : IsCharConst other) (begins' : other <+: cs) : text = other := by
  obtain ⟨rest, rfl⟩ := begins
  obtain ⟨rest', same⟩ := begins'
  rcases h with ⟨c, rfl, -, plain⟩ | ⟨c, rfl, -⟩ <;> rcases h' with ⟨c', rfl, -, plain'⟩ | ⟨c', rfl, -⟩
  · cases same
    rfl
  · cases same
    exact absurd rfl plain
  · cases same
    exact absurd rfl plain'
  · cases same
    rfl

/-- A quoted span ends at the first quote behind the one that opens it. -/
theorem quotedSpan_of_prefix {text cs : List Char} (h : IsQuotedSpan text)
    (begins : text <+: '\'' :: cs) :
    text = '\'' :: (cs.takeWhile isQuotable ++ ['\'']) ∧
      ∃ rest, cs.dropWhile isQuotable = '\'' :: rest := by
  obtain ⟨body, rfl, quotable⟩ := h
  obtain ⟨rest, same⟩ := begins
  have behind : cs = body ++ '\'' :: rest := by simpa using (List.cons.inj same).2.symm
  have close : Stops isQuotable ('\'' :: rest) := by
    intro c hc
    cases hc
    rfl
  rw [behind, takeWhile_append_of_stops quotable close, dropWhile_append_of_stops quotable close]
  exact ⟨rfl, rest, rfl⟩

/-- No quoted span goes on behind a character constant. -/
theorem length_quotedSpan_le {text span cs : List Char} (const : IsCharConst text)
    (begins : text <+: cs) (h : IsQuotedSpan span) (begins' : span <+: cs) :
    span.length ≤ text.length := by
  obtain ⟨rest, rfl⟩ := begins
  rcases const with ⟨c, rfl, quotable, -⟩ | ⟨c, rfl, -⟩
  · obtain ⟨same, -⟩ := quotedSpan_of_prefix h begins'
    have stop : isQuotable '\'' = false := rfl
    rw [same]
    simp [quotable, stop]
  · obtain ⟨same, -⟩ := quotedSpan_of_prefix h begins'
    have stop : isQuotable '\'' = false := rfl
    have backslash : isQuotable '\\' = true := rfl
    rw [same]
    by_cases quotable : isQuotable c = true
    · simp [quotable, stop, backslash]
    · simp [quotable, backslash]

theorem character_goesBefore {cs text : List Char} {cls : LexClass} (lies : cls.Contains text)
    (opening : cls.opening = .quote) (begins : text <+: '\'' :: cs) :
    (character cs).GoesBefore cls text := by
  rcases character_cases cs with ⟨const, rest, whole, isConst, cut⟩ | ⟨noConst, cut⟩
  · have constBegins : const <+: '\'' :: cs := ⟨rest, whole.symm⟩
    have long : 1 < const.length := by
      rcases isConst with ⟨c, rfl, -⟩ | ⟨c, rfl, -⟩ <;> simp
    have earlier : LexClass.char.place ≤ LexClass.malformed.place := by decide
    rw [cut]
    cases cls with
    | char =>
      rw [charConst_unique lies begins isConst constBegins]
      exact goesBefore_of_le (Nat.le_refl _) (Nat.le_refl _)
    | malformed =>
      exact goesBefore_of_le (length_quotedSpan_le isConst constBegins lies begins) earlier
    | openQuote =>
      cases lies
      exact .inl long
    | _ => cases opening
  · rw [cut]
    cases cls with
    | char => exact absurd begins (noConst text lies)
    | malformed =>
      obtain ⟨same, rest, close⟩ := quotedSpan_of_prefix lies begins
      rw [quotedSpan, close, same]
      exact goesBefore_of_le (Nat.le_refl _) (Nat.le_refl _)
    | openQuote =>
      cases lies
      unfold quotedSpan
      split
      · refine .inl ?_
        simp
      · exact goesBefore_of_le (Nat.le_refl _) (Nat.le_refl _)
    | _ => cases opening

/-- A comment is read up to its first end. -/
theorem throughClose_of_noClose {body : List Char} (h : NoClose body) (seen rest : List Char) :
    throughClose seen (body ++ '*' :: '/' :: rest) =
      some (seen.reverse ++ (body ++ ['*', '/']), rest) := by
  induction body generalizing seen with
  | nil => rfl
  | cons c body ih =>
    have goesOn : ∀ tail, c = '*' → body ++ '*' :: '/' :: rest = '/' :: tail → False := by
      intro tail star slash
      cases body with
      | nil => cases slash
      | cons d body =>
        obtain ⟨rfl, -⟩ := List.cons.inj slash
        exact h (List.infix_cons_iff.mpr (.inl (by rw [star]; exact ⟨body, rfl⟩)))
    have inner : NoClose body := fun inside => h (List.infix_cons inside)
    rw [List.cons_append, throughClose, ih inner]
    · simp
    · exact goesOn

theorem comment_goesBefore {cs text : List Char} {cls : LexClass} (lies : cls.Contains text)
    (opening : cls.opening = .other) (begins : text <+: '/' :: '*' :: cs) :
    (comment cs).GoesBefore cls text := by
  obtain ⟨rest, whole⟩ := begins
  have long : 1 < (comment cs).text.length := by
    unfold comment
    split <;> simp
  cases cls with
  | lineComment =>
    obtain ⟨body, rfl, -⟩ := lies
    cases whole
  | blockComment =>
    obtain ⟨body, rfl, noClose⟩ := lies
    have inside : cs = body ++ '*' :: '/' :: rest := by simpa using whole.symm
    rw [comment, inside, throughClose_of_noClose noClose]
    exact goesBefore_of_le (Nat.le_refl _) (Nat.le_refl _)
  | openComment =>
    cases lies
    unfold comment
    split
    · next body rest closed =>
      obtain ⟨inside, rfl, -⟩ := throughClose_eq_some closed
      refine .inl ?_
      simp
    · exact goesBefore_of_le (Nat.le_refl _) (Nat.le_refl _)
  | mark m =>
    cases lies
    refine .inl ?_
    cases m with
    | divide => exact long
    | _ => cases whole
  | _ => cases opening

theorem lineComment_goesBefore {cs text : List Char} {cls : LexClass} (lies : cls.Contains text)
    (opening : cls.opening = .other) (begins : text <+: '/' :: '/' :: cs) :
    (run .lineComment (· != '\n') ('/' :: '/' :: cs)).GoesBefore cls text := by
  cases cls with
  | lineComment =>
    obtain ⟨body, rfl, inLine⟩ := lies
    refine run_goesBefore begins fun c mem => ?_
    have other : c ≠ '\n' := by
      rintro rfl
      rcases List.mem_cons.mp mem with same | mem
      · cases same
      rcases List.mem_cons.mp mem with same | mem
      · cases same
      exact inLine mem
    simpa using other
  | blockComment =>
    obtain ⟨body, rfl, -⟩ := lies
    obtain ⟨rest, whole⟩ := begins
    cases whole
  | openComment =>
    cases lies
    obtain ⟨rest, whole⟩ := begins
    cases whole
  | mark m =>
    cases lies
    obtain ⟨rest, whole⟩ := begins
    refine .inl ?_
    cases m with
    | divide => simp [run, Mark.chars]
    | _ => cases whole
  | _ => cases opening

/-- The mark that a text begins with goes before all else, where the text begins with no comment. -/
theorem mark_goesBefore {cs text : List Char} {cls : LexClass} {m : Mark}
    (found : Mark.first? cs = some m) (noLine : ∀ rest, cs ≠ '/' :: '/' :: rest)
    (noBlock : ∀ rest, cs ≠ '/' :: '*' :: rest) (lies : cls.Contains text)
    (opening : cls.opening = .other) (begins : text <+: cs) :
    GoesBefore ⟨.mark m, m.chars, cs.drop m.chars.length⟩ cls text := by
  cases cls with
  | lineComment =>
    obtain ⟨body, rfl, -⟩ := lies
    obtain ⟨rest, rfl⟩ := begins
    exact absurd rfl (noLine _)
  | blockComment =>
    obtain ⟨body, rfl, -⟩ := lies
    obtain ⟨rest, rfl⟩ := begins
    exact absurd rfl (noBlock _)
  | openComment =>
    cases lies
    obtain ⟨rest, rfl⟩ := begins
    exact absurd rfl (noBlock _)
  | mark m' =>
    cases lies
    have length := Mark.length_le_of_first? found begins
    rcases Nat.lt_or_eq_of_le length with less | same
    · exact .inl less
    · have chars : m'.chars = m.chars := (List.prefix_of_prefix_length_le begins
        (mark_isPrefixOf found) length).eq_of_length same
      cases Mark.chars_inj chars
      exact goesBefore_of_le (Nat.le_refl _) (Nat.le_refl _)
  | _ => cases opening

/-- The cases of a text that begins with neither blank, newline, digit, letter nor quote. -/
theorem atOther_cases (c : Char) (cs : List Char) :
    (∃ rest, c :: cs = '/' :: '/' :: rest ∧
      atOther c cs = some (run .lineComment (· != '\n') (c :: cs))) ∨
    (∃ inside, c :: cs = '/' :: '*' :: inside ∧ atOther c cs = some (comment inside)) ∨
    (∀ rest, c :: cs ≠ '/' :: '/' :: rest) ∧ (∀ rest, c :: cs ≠ '/' :: '*' :: rest) ∧
      atOther c cs = (Mark.first? (c :: cs)).map fun m =>
        ⟨.mark m, m.chars, (c :: cs).drop m.chars.length⟩ := by
  unfold atOther
  split
  · exact .inl ⟨_, rfl, rfl⟩
  · exact .inr (.inl ⟨_, rfl, rfl⟩)
  · next noLine noBlock =>
    refine .inr (.inr ⟨fun rest same => ?_, fun rest same => ?_, rfl⟩)
    · obtain ⟨slash, behind⟩ := List.cons.inj same
      exact noLine rest slash behind
    · obtain ⟨slash, behind⟩ := List.cons.inj same
      exact noBlock rest slash behind

theorem goesBefore_of_longest? {cs text : List Char} {cut : Cut} {cls : LexClass}
    (h : longest? cs = some cut) (lies : cls.Contains text) (begins : text <+: cs) :
    cut.GoesBefore cls text := by
  obtain ⟨c, rest, rfl, opening⟩ := lies.opening
  obtain ⟨behind, rfl⟩ := begins
  have begins : c :: rest <+: c :: (rest ++ behind) := List.prefix_append _ _
  rw [List.cons_append, longest?_eq, opening] at h
  cases group : cls.opening with
  | blank =>
    rw [group] at h
    cases h
    cases cls with
    | blanks => exact run_goesBefore begins lies.2
    | _ => cases group
  | newline =>
    rw [group] at h
    cases h
    cases cls with
    | newlines => exact run_goesBefore begins fun d mem => beq_iff_eq.mpr (lies.2 d mem)
    | _ => cases group
  | digit =>
    rw [group] at h
    cases h
    cases cls with
    | int => exact number_goesBefore_int lies begins
    | float => exact number_goesBefore_float lies begins
    | _ => cases group
  | letter =>
    rw [group] at h
    cases h
    cases cls with
    | word =>
      refine run_goesBefore begins fun d mem => ?_
      rcases List.mem_cons.mp mem with rfl | mem
      · exact isWordRest_of_start lies.1
      · exact lies.2 d mem
    | _ => cases group
  | quote =>
    rw [group] at h opening
    cases h
    obtain rfl : c = '\'' := by
      unfold Opening.of at opening
      split_ifs at opening with _ _ _ _ quote
      exact quote
    exact character_goesBefore lies group begins
  | other =>
    rw [group] at h
    rcases atOther_cases c (rest ++ behind) with
      ⟨tail, whole, made⟩ | ⟨tail, whole, made⟩ | ⟨noLine, noBlock, made⟩
    · have same : atOther c (rest ++ behind) = some cut := h
      rw [made] at same
      cases same
      rw [whole] at begins ⊢
      exact lineComment_goesBefore lies group begins
    · have same : atOther c (rest ++ behind) = some cut := h
      rw [made] at same
      cases same
      rw [whole] at begins
      exact comment_goesBefore lies group begins
    · have same : atOther c (rest ++ behind) = some cut := h
      rw [made, Option.map_eq_some_iff] at same
      obtain ⟨m, found, rfl⟩ := same
      exact mark_goesBefore found noLine noBlock lies group begins

/-! ## The cut lies in its class -/

theorem number_contains {c : Char} {cs : List Char} (digit : c.isDigit = true) :
    (number (c :: cs)).cls.Contains (number (c :: cs)).text := by
  have holds := @number_holds c cs digit
  rcases number_cases (c :: cs) with ⟨d, ds, -, -, cut⟩ | ⟨-, cut⟩
  · rw [cut] at holds ⊢
    exact holds
  · rw [cut] at holds ⊢
    exact holds

theorem character_contains (cs : List Char) : (character cs).cls.Contains (character cs).text := by
  rcases character_cases cs with ⟨text, rest, -, const, cut⟩ | ⟨-, cut⟩
  · rw [cut]
    exact const
  · rw [cut]
    unfold quotedSpan
    split
    · exact ⟨_, rfl, List.all_eq_true.mp List.all_takeWhile⟩
    · rfl

theorem comment_contains (cs : List Char) : (comment cs).cls.Contains (comment cs).text := by
  unfold comment
  split
  · next body rest closed =>
    obtain ⟨inside, rfl, noClose⟩ := throughClose_eq_some closed
    exact ⟨inside, rfl, noClose⟩
  · rfl

theorem contains_of_longest? {cs : List Char} {cut : Cut} (h : longest? cs = some cut) :
    cut.cls.Contains cut.text := by
  cases cs with
  | nil => cases h
  | cons c cs =>
    have all (p : Char → Bool) : ∀ d ∈ (c :: cs).takeWhile p, p d = true :=
      List.all_eq_true.mp List.all_takeWhile
    unfold longest? at h
    dsimp only at h
    split_ifs at h with blank newline digit start quote
    · cases h
      exact ⟨run_ne_nil blank, all isBlank⟩
    · cases h
      refine ⟨run_ne_nil (by simp [newline]), fun d mem => ?_⟩
      exact beq_iff_eq.mp (all (· == '\n') d mem)
    · cases h
      exact number_contains digit
    · cases h
      show IsName ((c :: cs).takeWhile isWordRest)
      rw [List.takeWhile_cons_of_pos (isWordRest_of_start start)]
      exact ⟨start, List.all_eq_true.mp List.all_takeWhile⟩
    · cases h
      exact character_contains cs
    · split at h
      · next rest =>
        cases h
        refine ⟨rest.takeWhile (· != '\n'), rfl, fun mem => ?_⟩
        have passed := List.all_eq_true.mp List.all_takeWhile '\n' mem
        cases passed
      · cases h
        exact comment_contains _
      · rw [Option.map_eq_some_iff] at h
        obtain ⟨m, -, rfl⟩ := h
        rfl

/-! ## What the cut is -/

theorem isLongest_of_longest? {cs : List Char} {cut : Cut} (h : longest? cs = some cut) :
    cut.IsLongest cs :=
  isLongest_of_goesBefore (text_append_rest h) (contains_of_longest? h)
    fun _ _ lies begins => goesBefore_of_longest? h lies begins

/-- Where no cut is made no text of a class begins. -/
theorem not_contains_of_longest?_eq_none {cs text : List Char} {cls : LexClass}
    (h : longest? cs = none) (lies : cls.Contains text) : ¬ text <+: cs := by
  rintro ⟨behind, rfl⟩
  obtain ⟨c, rest, rfl, opening⟩ := lies.opening
  obtain ⟨noBlank, noNewline, noDigit, noStart, noQuote, noMark⟩ := longest?_eq_none h
  have other : cls.opening = .other := by
    rw [← opening]
    simp [Opening.of, noBlank, noNewline, noDigit, noStart, noQuote]
  have noSlash : c ≠ '/' := by
    rintro rfl
    exact noMark .divide ⟨rest ++ behind, rfl⟩
  cases cls with
  | lineComment | blockComment =>
    obtain ⟨body, same, -⟩ := lies
    exact noSlash (List.cons.inj same).1
  | openComment => exact noSlash (List.cons.inj lies).1
  | mark m => exact noMark m ⟨behind, by rw [← show c :: rest = m.chars from lies]; rfl⟩
  | _ => cases other

theorem longest?_eq_none_iff {cs : List Char} :
    longest? cs = none ↔ ∀ cls text, LexClass.Contains cls text → ¬ text <+: cs := by
  constructor
  · exact fun none _ _ lies => not_contains_of_longest?_eq_none none lies
  · intro noText
    cases h : longest? cs with
    | none => rfl
    | some cut =>
      exact absurd ⟨_, text_append_rest h⟩ (noText _ _ (contains_of_longest? h))

theorem longest?_eq_some_iff {cs : List Char} {cut : Cut} :
    longest? cs = some cut ↔ cut.IsLongest cs := by
  refine ⟨isLongest_of_longest?, fun h => ?_⟩
  cases found : longest? cs with
  | none => exact absurd ⟨_, h.whole⟩ (longest?_eq_none_iff.mp found _ _ h.contains)
  | some other => rw [(isLongest_of_longest? found).unique h]

end Cut

end ImpSyntax
