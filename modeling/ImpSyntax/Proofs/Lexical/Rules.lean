import ImpSyntax.Proofs.Lexical.LongestMatch
import ImpSyntax.Proofs.Lexical.Pattern

/-!
# The lexical rules

Every class has a pattern, and the patterns of all classes, in the order of the classes, are the rules
of the scanner. They are tried one after the other on the text in front, and a match takes the place
of an earlier one only if it is longer. The cut that the scanner makes by looking at a character or
two is the one that the rules give.

Main results:

* `LexClass.contains_of_first?`, `LexClass.length_le_of_first?` — a pattern finds the longest text of its
  class.
* `Cut.byRules_eq_longest?` — the rules give the scanner's cut.
-/

namespace ImpSyntax

open Pattern

/-! ## The rules -/

/-- The pattern of the class. -/
def LexClass.pattern : LexClass → Pattern
  | blanks => repeated isBlank
  | newlines => repeated (· == '\n')
  | lineComment => both (exactly ['/', '/']) (many (· != '\n'))
  | blockComment => both (exactly ['/', '*']) (both fewest (exactly ['*', '/']))
  | openComment => exactly ['/', '*']
  | float => both (repeated Char.isDigit) (both (exactly ['.']) (repeated Char.isDigit))
  | int => repeated Char.isDigit
  | char => both (exactly ['\''])
      (both (either (one fun c => isQuotable c && c != '\\') (both (exactly ['\\']) (one (· != '\n'))))
        (exactly ['\'']))
  | malformed => both (exactly ['\'']) (both (many isQuotable) (exactly ['\'']))
  | openQuote => exactly ['\'']
  | word => both (one isWordStart) (many isWordRest)
  | mark m => exactly m.chars

namespace Cut

/-- The better one of the match so far and what the class has: a match that is no longer leaves the
earlier one in its place. -/
def better (cs : List Char) (best : Option Cut) (cls : LexClass) : Option Cut :=
  match cls.pattern.first? cs with
  | some (text, rest) =>
    if text ≠ [] ∧ ∀ cut ∈ best, cut.text.length < text.length then some ⟨cls, text, rest⟩ else best
  | none => best

/-- The match that the rules give, tried in the order in which the classes are declared. -/
def byRules (cs : List Char) : Option Cut := LexClass.declared.foldl (better cs) none

end Cut

/-! ## What the patterns can read -/

namespace Pattern

theorem reads_repeated_iff {p : Char → Bool} {x : List Char} :
    (repeated p).Reads x ↔ x ≠ [] ∧ ∀ c ∈ x, p c = true := by
  constructor
  · rintro ⟨y, z, rfl, ⟨c, rfl, pass⟩, all⟩
    exact ⟨List.cons_ne_nil _ _, List.forall_mem_cons.mpr ⟨pass, all⟩⟩
  · rintro ⟨nonempty, all⟩
    obtain ⟨c, x, rfl⟩ := List.exists_cons_of_ne_nil nonempty
    obtain ⟨pass, others⟩ := List.forall_mem_cons.mp all
    exact ⟨[c], x, rfl, ⟨c, rfl, pass⟩, others⟩

end Pattern

namespace LexClass

theorem reads_pattern {cls : LexClass} {text : List Char} (h : cls.Contains text) :
    cls.pattern.Reads text := by
  cases cls with
  | blanks => exact reads_repeated_iff.mpr h
  | newlines => exact reads_repeated_iff.mpr ⟨h.1, fun c mem => beq_iff_eq.mpr (h.2 c mem)⟩
  | lineComment =>
    obtain ⟨body, rfl, inLine⟩ := h
    refine ⟨_, body, rfl, rfl, fun c mem => bne_iff_ne.mpr ?_⟩
    rintro rfl
    exact inLine mem
  | blockComment =>
    obtain ⟨body, rfl, -⟩ := h
    exact ⟨['/', '*'], body ++ ['*', '/'], rfl, rfl, body, _, rfl, trivial, rfl⟩
  | float =>
    obtain ⟨whole, part, rfl, isWhole, isPart⟩ := h
    exact ⟨whole, '.' :: part, rfl, reads_repeated_iff.mpr isWhole, ['.'], part, rfl, rfl,
      reads_repeated_iff.mpr isPart⟩
  | int => exact reads_repeated_iff.mpr h
  | char =>
    rcases h with ⟨c, rfl, quotable, plain⟩ | ⟨c, rfl, inLine⟩
    · refine ⟨['\''], [c, '\''], rfl, rfl, [c], ['\''], rfl, .inl ⟨c, rfl, ?_⟩, rfl⟩
      simp [quotable, plain]
    · exact ⟨['\''], ['\\', c, '\''], rfl, rfl, ['\\', c], ['\''], rfl,
        .inr ⟨['\\'], [c], rfl, rfl, c, rfl, bne_iff_ne.mpr inLine⟩, rfl⟩
  | malformed =>
    obtain ⟨body, rfl, quotable⟩ := h
    exact ⟨['\''], body ++ ['\''], rfl, rfl, body, ['\''], rfl, quotable, rfl⟩
  | word =>
    cases text with
    | nil => exact h.elim
    | cons c cs => exact ⟨[c], cs, rfl, ⟨c, rfl, h.1⟩, h.2⟩
  | openComment | openQuote | mark => exact h

/-- All classes but that of comments hold whatever their patterns can read. -/
theorem contains_of_reads {cls : LexClass} (noComment : cls ≠ blockComment) {text : List Char}
    (h : cls.pattern.Reads text) : cls.Contains text := by
  cases cls with
  | blanks => exact reads_repeated_iff.mp h
  | newlines =>
    obtain ⟨nonempty, all⟩ := reads_repeated_iff.mp h
    exact ⟨nonempty, fun c mem => beq_iff_eq.mp (all c mem)⟩
  | lineComment =>
    obtain ⟨x, body, rfl, rfl, all⟩ := h
    refine ⟨body, rfl, fun mem => ?_⟩
    have other := all '\n' mem
    cases other
  | blockComment => exact absurd rfl noComment
  | float =>
    obtain ⟨whole, x, rfl, isWhole, y, part, rfl, rfl, isPart⟩ := h
    exact ⟨whole, part, rfl, reads_repeated_iff.mp isWhole, reads_repeated_iff.mp isPart⟩
  | int => exact reads_repeated_iff.mp h
  | char =>
    obtain ⟨x, y, rfl, rfl, z, w, rfl, inside, rfl⟩ := h
    rcases inside with ⟨c, rfl, pass⟩ | ⟨v, u, rfl, rfl, c, rfl, pass⟩
    · simp only [Bool.and_eq_true, bne_iff_ne] at pass
      exact .inl ⟨c, rfl, pass⟩
    · exact .inr ⟨c, rfl, bne_iff_ne.mp pass⟩
  | malformed =>
    obtain ⟨x, y, rfl, rfl, body, z, rfl, quotable, rfl⟩ := h
    exact ⟨body, rfl, quotable⟩
  | word =>
    obtain ⟨x, cs, rfl, ⟨c, rfl, start⟩, all⟩ := h
    exact ⟨start, all⟩
  | openComment | openQuote | mark => exact h

end LexClass

/-! ## Patterns that leave no choice -/

namespace Pattern

theorem unambiguous_exactly (text : List Char) : (exactly text).Unambiguous := by
  rintro cs x y rfl rfl - -
  rfl

theorem unambiguous_one (p : Char → Bool) : (one p).Unambiguous := by
  rintro cs x y ⟨c, rfl, -⟩ ⟨d, rfl, -⟩ ⟨rest, rfl⟩ ⟨rest', same⟩
  rw [(List.cons.inj same).1]

theorem Unambiguous.both {a b : Pattern} (h : a.Unambiguous) (h' : b.Unambiguous) :
    (a.both b).Unambiguous := by
  rintro cs x y ⟨x₁, x₂, rfl, xa, xb⟩ ⟨y₁, y₂, rfl, ya, yb⟩ begins begins'
  have first := h _ _ _ xa ya ((List.prefix_append _ _).trans begins)
    ((List.prefix_append _ _).trans begins')
  subst first
  obtain ⟨rest, rfl⟩ := begins
  rw [List.append_assoc, List.prefix_append_right_inj] at begins'
  rw [h' _ _ _ xb yb (List.prefix_append _ _) begins']

/-- A run of characters is read up to the first other character, where that one must follow. -/
theorem unambiguous_run {a : Pattern} {p : Char → Bool} {c : Char} {text : List Char}
    (run : ∀ {x}, a.Reads x → ∀ d ∈ x, p d = true) (stop : p c = false) :
    (a.both (exactly (c :: text))).Unambiguous := by
  have front : ∀ {x : List Char}, a.Reads x → ∀ rest,
      (x ++ c :: text ++ rest).takeWhile p = x := by
    intro x reads rest
    rw [List.append_assoc]
    refine takeWhile_append_of_stops (run reads) ?_
    intro d hd
    cases hd
    exact stop
  rintro cs x y ⟨x₁, x₂, rfl, xa, rfl⟩ ⟨y₁, y₂, rfl, ya, rfl⟩ ⟨rest, whole⟩ ⟨rest', rfl⟩
  rw [← front xa rest, whole, front ya]

end Pattern

/-! ## Comments -/

namespace Pattern

/-- Characters up to the first end of a comment. -/
def throughEnd : Pattern := both fewest (exactly ['*', '/'])

theorem first?_throughEnd_cons (c : Char) (cs : List Char) :
    throughEnd.first? (c :: cs) =
      if ['*', '/'].isPrefixOf (c :: cs) then some (['*', '/'], (c :: cs).drop 2)
      else (throughEnd.first? cs).map (consFront c) := by
  have inner : ((beginnings cs).map (consFront c)).flatMap (fun x =>
        ((exactly ['*', '/']).splits x.2).map fun y => (x.1 ++ y.1, y.2)) =
      (throughEnd.splits cs).map (consFront c) := by
    show _ = ((beginnings cs).flatMap fun x =>
      ((exactly ['*', '/']).splits x.2).map fun y => (x.1 ++ y.1, y.2)).map (consFront c)
    rw [List.flatMap_map, List.map_flatMap]
    simp only [List.map_map]
    rfl
  show List.head? (List.flatMap _ (([], c :: cs) :: (beginnings cs).map (consFront c))) = _
  rw [List.flatMap_cons, inner, List.head?_append, List.head?_map]
  show _ = if _ then _ else (throughEnd.splits cs).head?.map _
  rw [splits]
  split_ifs
  · rfl
  · exact List.head?_map

/-- What is found is the text up to the first end of a comment. -/
theorem noClose_of_throughEnd {cs x rest : List Char} (h : throughEnd.first? cs = some (x, rest)) :
    ∃ body, x = body ++ ['*', '/'] ∧ NoClose body := by
  induction cs generalizing x with
  | nil => cases h
  | cons c cs ih =>
    rw [first?_throughEnd_cons] at h
    split_ifs at h with close
    · cases h
      exact ⟨[], rfl, Cut.noClose_nil⟩
    · rw [Option.map_eq_some_iff] at h
      obtain ⟨⟨y, behind⟩, found, same⟩ := h
      cases same
      obtain ⟨body, rfl, noClose⟩ := ih found
      refine ⟨c :: body, rfl, Cut.noClose_cons noClose fun tail star slash => close ?_⟩
      have whole := (reads_of_first? found).1
      rw [← whole, star, slash]
      rfl

theorem first?_exactly_both (text : List Char) (b : Pattern) (cs : List Char) :
    (both (exactly text) b).first? (text ++ cs) =
      (b.first? cs).map fun x => (text ++ x.1, x.2) := by
  have begins : text.isPrefixOf (text ++ cs) = true :=
    List.isPrefixOf_iff_prefix.mpr (List.prefix_append _ _)
  unfold first?
  rw [splits, splits, if_pos begins, List.drop_left, List.flatMap_singleton, List.head?_map]

end Pattern

/-! ## A pattern finds the longest text of its class -/

namespace LexClass

variable {cls : LexClass} {cs text other rest : List Char}

theorem unambiguous_pattern (h : cls.opening = .quote ∨ cls = openComment ∨ ∃ m, cls = mark m) :
    cls.pattern.Unambiguous := by
  rcases h with quote | rfl | ⟨m, rfl⟩
  · cases cls with
    | char =>
      intro cs x y reads reads' begins begins'
      exact Cut.charConst_unique (contains_of_reads (by simp) reads) begins
        (contains_of_reads (by simp) reads') begins'
    | malformed => exact (unambiguous_exactly _).both (unambiguous_run (fun h => h) rfl)
    | openQuote => exact unambiguous_exactly _
    | _ => cases quote
  · exact unambiguous_exactly _
  · exact unambiguous_exactly _

/-- A number with a point, up to the first digit behind the point. -/
theorem unambiguous_point :
    (both (both (repeated Char.isDigit) (exactly ['.'])) (one Char.isDigit)).Unambiguous :=
  (unambiguous_run (fun h => (reads_repeated_iff.mp h).2) rfl).both (unambiguous_one _)

theorem first?_float (cs : List Char) :
    float.pattern.first? cs =
      (both (both (both (repeated Char.isDigit) (exactly ['.'])) (one Char.isDigit))
        (many Char.isDigit)).first? cs := by
  unfold first?
  rw [pattern, splits_both_assoc, ← splits_both_assoc _ (one Char.isDigit)]
  rfl

theorem contains_blockComment_of_first? (h : blockComment.pattern.first? cs = some (text, rest)) :
    blockComment.Contains text := by
  obtain ⟨whole, _, inside, rfl, rfl, -⟩ := reads_of_first? h
  obtain rfl : cs = ['/', '*'] ++ (inside ++ rest) := whole.symm
  have split : blockComment.pattern = both (exactly ['/', '*']) throughEnd := rfl
  rw [split, first?_exactly_both, Option.map_eq_some_iff] at h
  obtain ⟨⟨found, behind⟩, first, same⟩ := h
  cases same
  obtain ⟨body, rfl, noClose⟩ := noClose_of_throughEnd first
  exact ⟨body, rfl, noClose⟩

/-- A comment ends at the first end of a comment behind its beginning. -/
theorem blockComment_unique (h : blockComment.Contains text) (begins : text <+: cs)
    (h' : blockComment.Contains other) (begins' : other <+: cs) : text = other := by
  obtain ⟨body, rfl, noClose⟩ := h
  obtain ⟨body', rfl, noClose'⟩ := h'
  obtain ⟨rest, rfl⟩ := begins
  obtain ⟨rest', same⟩ := begins'
  have inside : body' ++ '*' :: '/' :: rest' = body ++ '*' :: '/' :: rest := by simpa using same
  have closed := Cut.throughClose_of_noClose noClose [] rest
  rw [← inside, Cut.throughClose_of_noClose noClose' [] rest'] at closed
  have ended : body' ++ ['*', '/'] = body ++ ['*', '/'] :=
    (Prod.mk.inj (Option.some.inj closed)).1
  rw [ended]

theorem contains_of_first? (h : cls.pattern.first? cs = some (text, rest)) : cls.Contains text := by
  by_cases comment : cls = blockComment
  · subst comment
    exact contains_blockComment_of_first? h
  · exact contains_of_reads comment (reads_of_first? h).2

theorem length_le_of_first? (h : cls.pattern.first? cs = some (text, rest))
    (lies : cls.Contains other) (begins : other <+: cs) : other.length ≤ text.length := by
  have reads := reads_pattern lies
  have alone : cls.pattern.Unambiguous → other.length ≤ text.length := by
    intro unambiguous
    obtain ⟨whole, found⟩ := reads_of_first? h
    exact Nat.le_of_eq (congrArg List.length (unambiguous _ _ _ reads found begins ⟨_, whole⟩))
  cases cls with
  | blanks | newlines | int | word =>
    exact (unambiguous_one _).length_le h reads begins
  | lineComment => exact (unambiguous_exactly _).length_le h reads begins
  | blockComment =>
    have found := contains_blockComment_of_first? h
    have same := blockComment_unique lies begins found ⟨_, (reads_of_first? h).1⟩
    exact Nat.le_of_eq (congrArg List.length same)
  | float =>
    rw [first?_float] at h
    obtain ⟨whole, part, rfl, isWhole, isPart⟩ := lies
    obtain ⟨d, ds, rfl⟩ := List.exists_cons_of_ne_nil isPart.1
    obtain ⟨digit, digits⟩ := List.forall_mem_cons.mp isPart.2
    refine unambiguous_point.length_le h ⟨whole ++ ['.'] ++ [d], ds, by simp, ?_, digits⟩ begins
    exact ⟨_, [d], rfl, ⟨whole, ['.'], rfl, reads_repeated_iff.mpr isWhole, rfl⟩, d, rfl, digit⟩
  | openComment => exact alone (unambiguous_pattern (.inr (.inl rfl)))
  | mark m => exact alone (unambiguous_pattern (.inr (.inr ⟨m, rfl⟩)))
  | char | malformed | openQuote => exact alone (unambiguous_pattern (.inl rfl))

end LexClass

/-! ## The rules give the scanner's cut -/

namespace Cut

/-- The cut is the best match of the classes: none of them has a longer one, and none in front of its
class has the same one. Where there is no cut, none of the classes has a match. -/
def IsBestOf (classes : List LexClass) (cs : List Char) : Option Cut → Prop
  | none => ∀ cls ∈ classes, ∀ text, cls.Contains text → ¬ text <+: cs
  | some cut => cut.text ++ cut.rest = cs ∧ cut.cls ∈ classes ∧ cut.cls.Contains cut.text ∧
      (∀ cls ∈ classes, ∀ text, cls.Contains text → text <+: cs →
        text.length ≤ cut.text.length) ∧
      ∀ cls ∈ classes, cls.Contains cut.text → classes.idxOf cut.cls ≤ classes.idxOf cls

section Best

variable {classes : List LexClass} {cls : LexClass} {cs text rest : List Char} {best : Option Cut}

/-- The best match stays the best where the next class has none that is longer. -/
theorem IsBestOf.keep {cut : Cut} (h : IsBestOf classes cs (some cut))
    (length : ∀ other, cls.Contains other → other <+: cs → other.length ≤ cut.text.length) :
    IsBestOf (classes ++ [cls]) cs (some cut) := by
  obtain ⟨whole, mem, contains, longest, earliest⟩ := h
  have here : (classes ++ [cls]).idxOf cut.cls = classes.idxOf cut.cls :=
    List.idxOf_append_of_mem mem
  refine ⟨whole, List.mem_append_left _ mem, contains, fun c hc other lies begins => ?_,
    fun c hc lies => ?_⟩
  · rcases List.mem_append.mp hc with hc | hc
    · exact longest c hc other lies begins
    · cases List.mem_singleton.mp hc
      exact length other lies begins
  · rw [here]
    by_cases old : c ∈ classes
    · rw [List.idxOf_append_of_mem old]
      exact earliest c old lies
    · rw [List.idxOf_append_of_notMem old]
      exact Nat.le_trans (Nat.le_of_lt (List.idxOf_lt_length_of_mem mem)) (Nat.le_add_right _ _)

/-- The match of the next class is the best one where it is longer than all in front of it. -/
theorem IsBestOf.replace (h : IsBestOf classes cs best) (whole : text ++ rest = cs)
    (contains : cls.Contains text)
    (length : ∀ other, cls.Contains other → other <+: cs → other.length ≤ text.length)
    (longer : ∀ cut ∈ best, cut.text.length < text.length) :
    IsBestOf (classes ++ [cls]) cs (some ⟨cls, text, rest⟩) := by
  have shorter : ∀ c ∈ classes, ∀ other, c.Contains other → other <+: cs →
      other.length < text.length := by
    intro c hc other lies begins
    cases best with
    | none => exact absurd begins (h c hc other lies)
    | some cut => exact Nat.lt_of_le_of_lt (h.2.2.2.1 c hc other lies begins) (longer cut rfl)
  refine ⟨whole, List.mem_append_right _ List.mem_cons_self, contains,
    fun c hc other lies begins => ?_, fun c hc lies => ?_⟩
  · rcases List.mem_append.mp hc with hc | hc
    · exact Nat.le_of_lt (shorter c hc other lies begins)
    · cases List.mem_singleton.mp hc
      exact length other lies begins
  · rcases List.mem_append.mp hc with hc | hc
    · exact absurd (shorter c hc text lies ⟨rest, whole⟩) (Nat.lt_irrefl _)
    · cases List.mem_singleton.mp hc
      exact Nat.le_refl _

theorem IsBestOf.better (h : IsBestOf classes cs best) :
    IsBestOf (classes ++ [cls]) cs (better cs best cls) := by
  unfold Cut.better
  split
  · next text rest found =>
    have lies := LexClass.contains_of_first? found
    have length : ∀ other, cls.Contains other → other <+: cs → other.length ≤ text.length :=
      fun _ => LexClass.length_le_of_first? found
    have nonempty : text ≠ [] := by
      obtain ⟨c, behind, rfl, -⟩ := lies.opening
      exact List.cons_ne_nil _ _
    split_ifs with longer
    · exact h.replace (reads_of_first? found).1 lies length longer.2
    · cases best with
      | none => exact absurd ⟨nonempty, by simp⟩ longer
      | some cut =>
        have noLonger : text.length ≤ cut.text.length := by simpa [nonempty] using longer
        exact h.keep fun other lies begins => Nat.le_trans (length other lies begins) noLonger
  · next missing =>
    have noMatch : ∀ other, cls.Contains other → ¬ other <+: cs := fun _ lies =>
      not_reads_of_first?_eq_none missing (LexClass.reads_pattern lies)
    cases best with
    | none =>
      intro c hc other lies
      rcases List.mem_append.mp hc with hc | hc
      · exact h c hc other lies
      · cases List.mem_singleton.mp hc
        exact noMatch other lies
    | some cut => exact h.keep fun other lies begins => absurd begins (noMatch other lies)

theorem isBestOf_foldl (h : IsBestOf classes cs best) (others : List LexClass) :
    IsBestOf (classes ++ others) cs (others.foldl (Cut.better cs) best) := by
  induction others generalizing classes best with
  | nil => simpa using h
  | cons cls others ih =>
    have next : IsBestOf (classes ++ [cls]) cs (Cut.better cs best cls) := h.better
    simpa using ih next

end Best

theorem byRules_eq_longest? (cs : List Char) : byRules cs = longest? cs := by
  have nothing : IsBestOf [] cs none := by
    rintro cls (_ | _)
  have best : IsBestOf LexClass.declared cs (byRules cs) :=
    isBestOf_foldl nothing LexClass.declared
  cases made : byRules cs with
  | none =>
    rw [made] at best
    exact (longest?_eq_none_iff.mpr fun cls => best cls cls.mem_declared).symm
  | some cut =>
    rw [made] at best
    obtain ⟨whole, -, contains, longest, earliest⟩ := best
    exact (longest?_eq_some_iff.mpr ⟨whole, contains, fun cls => longest cls cls.mem_declared,
      fun cls => earliest cls cls.mem_declared⟩).symm

end Cut

end ImpSyntax
