import ImpSyntax.Proofs.Language

/-!
# How tall a parsed tree can be

The height of a tree counts the operators and the blocks on its longest path. The limit on nesting
bounds the demand of a text, and the demand follows the parser, not the tree: a chain of operators
is a tree whose left edge grows with every link, while the links begin anew in each parenthesis. A
chain of `k` links around parentheses around a chain of `k - 1` links and so on is as tall as the
demand `k` lets a tree become.

Main results:

* `Grammar.Phrase.height_le`, `Grammar.Derives.height_le` — the height that a demand allows.
* `exists_phrase_height` — every height up to that one is reached.
* `exists_parse_height_iff` — the heights of parsed trees.
-/

namespace ImpSyntax

open Precedence Grammar Reading

/-! ## Height -/

/-- How many operators the longest path of the expression goes through. -/
def Expr.height : Expr → Nat
  | binary _ l r _ => max l.height r.height + 1
  | unary _ e _ => e.height + 1
  | literal .. | location .. => 0

namespace Stmt

mutual

/-- How many operators and blocks the longest path of the statement goes through. -/
def height : Stmt → Nat
  | print e _ | assign _ _ e _ | expr e _ => e.height
  | declare _ _ _ init _ => (init.map Expr.height).getD 0
  | ifElse c thenBody elseBody _ =>
    max c.height (max (heightBlock thenBody) (heightElse elseBody))
  | whileLoop c body _ => max c.height (heightBlock body)
  | jump .. => 0

/-- The same for a block, which is one more on every path that goes through it. -/
def heightBlock : List Stmt → Nat
  | [] => 0
  | s :: rest => max (s.height + 1) (heightBlock rest)

/-- The same for the block of an `else`, if there is one. -/
def heightElse : Option (List Stmt) → Nat
  | none => 0
  | some body => heightBlock body

end

/-- The height of the tallest statement. -/
def heightList : List Stmt → Nat
  | [] => 0
  | s :: rest => max s.height (heightList rest)

theorem heightBlock_le (body : List Stmt) : heightBlock body ≤ heightList body + 1 := by
  induction body with
  | nil => exact Nat.zero_le _
  | cons s rest ih =>
    rw [heightBlock, heightList]
    omega

end Stmt

/-- The height of the program's tallest statement. -/
def Program.height (p : Program) : Nat := Stmt.heightList p.body

section Relocate

variable (f : Position → Position)

theorem Expr.height_relocate (e : Expr) : (e.relocate f).height = e.height := by
  induction e with
  | binary op l r pos ihl ihr => rw [relocate, height, height, ihl, ihr]
  | unary op e pos ih => rw [relocate, height, height, ih]
  | _ => rfl

mutual

theorem Stmt.height_relocate (s : Stmt) : (s.relocate f).height = s.height := by
  cases s with
  | declare binding name type init pos => cases init <;> simp [relocate, height, Expr.height_relocate]
  | ifElse c thenBody elseBody pos =>
    simp [relocate, height, Expr.height_relocate, heightBlock_relocate, heightElse_relocate]
  | whileLoop c body pos => simp [relocate, height, Expr.height_relocate, heightBlock_relocate]
  | print e | assign _ _ e | expr e => exact e.height_relocate f
  | jump => rfl

theorem Stmt.heightBlock_relocate (body : List Stmt) :
    heightBlock (relocateList f body) = heightBlock body := by
  cases body with
  | nil => rfl
  | cons s rest => simp [relocateList, heightBlock, height_relocate, heightBlock_relocate]

theorem Stmt.heightElse_relocate (body : Option (List Stmt)) :
    heightElse (relocateElse f body) = heightElse body := by
  cases body with
  | none => rfl
  | some body => simp [relocateElse, heightElse, heightBlock_relocate]

end

theorem Stmt.heightList_relocate (body : List Stmt) :
    heightList (relocateList f body) = heightList body := by
  induction body with
  | nil => rfl
  | cons s rest ih => rw [relocateList, heightList, heightList, height_relocate, ih]

end Relocate

/-! ## The height that a demand allows -/

/-- The greatest height of an expression of demand `d` that is no bare chain. -/
def tallest : Nat → Nat
  | 0 => 0
  | 1 => 1
  | d + 2 => tallest (d + 1) + (d + 1)

/-- In parentheses a chain with all the links that its demand allows is as tall as can be. -/
theorem add_tallest_le (d : Nat) : d + tallest d ≤ tallest (d + 1) := by
  cases d with
  | zero => decide
  | succ d =>
    exact Nat.le_of_eq (by rw [tallest, Nat.add_comm])

theorem tallest_lt_succ (d : Nat) : tallest d < tallest (d + 1) := by
  cases d with
  | zero => decide
  | succ d =>
    have next := add_tallest_le (d + 1)
    omega

theorem tallest_mono {d d' : Nat} (h : d ≤ d') : tallest d ≤ tallest d' := by
  induction h with
  | refl => exact Nat.le_refl _
  | @step d' _ ih => exact Nat.le_of_lt (Nat.lt_of_le_of_lt ih (tallest_lt_succ d'))

theorem two_mul_tallest_succ (d : Nat) : 2 * tallest (d + 1) = d * (d + 1) + 2 := by
  induction d with
  | zero => rfl
  | succ d ih =>
    rw [tallest, Nat.mul_add, ih]
    simp only [Nat.add_mul, Nat.mul_add]
    omega

theorem Grammar.Phrase.height_le {level links demand : Nat} {ts : List Token} {e : Expr}
    (h : Phrase level ts e links demand) : e.height ≤ links + tallest demand := by
  induction h with
  | name => exact Nat.zero_le _
  | literal => exact Nat.zero_le _
  | @group o c ts e links demand _ inner _ ih =>
    have next := add_tallest_le demand
    have bare := inner.links_le_demand
    omega
  | @sign t ts e links demand _ operand ih =>
    have bare := operand.links_eq_zero (Nat.le_refl _)
    have next := tallest_lt_succ demand
    rw [Expr.height]
    omega
  | @link level t ls rs l r n d n' d' left _ right ihl ihr =>
    have leftFits := tallest_mono (Nat.le_max_left d (n + 1 + d'))
    have rightFits := tallest_mono
      (Nat.le_trans (by omega : d' + 1 ≤ n + 1 + d') (Nat.le_max_right d (n + 1 + d')))
    have next := add_tallest_le d'
    have bare := right.links_le_demand
    rw [Expr.height]
    omega
  | tighter _ ih => exact ih

/-- The height of the construct, where a block counts for itself. -/
def Grammar.Construct.height : Construct → Nat
  | .statement s => s.height
  | .statements body => Stmt.heightList body
  | .block body => Stmt.heightBlock body
  | .otherwise body => Stmt.heightElse body

theorem add_tallest_mono {d d' : Nat} (h : d ≤ d') : d + tallest d ≤ d' + tallest d' :=
  Nat.add_le_add h (tallest_mono h)

theorem Grammar.Phrase.height_le_of_demand {level links demand : Nat} {ts : List Token} {e : Expr}
    (h : Phrase level ts e links demand) : e.height ≤ demand + tallest demand :=
  Nat.le_trans h.height_le (Nat.add_le_add_right h.links_le_demand _)

theorem Grammar.Derives.height_le {c : Construct} {ts : List Token} {demand : Nat}
    (h : Derives c ts demand) : c.height ≤ demand + tallest demand := by
  induction h with
  | print _ phrase _ => exact phrase.height_le_of_demand
  | assign _ _ phrase _ => exact phrase.height_le_of_demand
  | declare _ _ _ hinit _ _ =>
    cases hinit with
    | absent => exact Nat.zero_le _
    | present _ phrase => exact phrase.height_le_of_demand
  | jump => exact Nat.zero_le _
  | expr phrase _ => exact phrase.height_le_of_demand
  | @ifElse t tc tb te c thenBody elseBody links dc db de _ cond _ _ ihb ihe =>
    have condFits := Nat.le_trans cond.height_le_of_demand
      (add_tallest_mono (Nat.le_max_left dc (max db de)))
    have thenFits := Nat.le_trans ihb (add_tallest_mono
      (Nat.le_trans (Nat.le_max_left db de) (Nat.le_max_right dc (max db de))))
    have elseFits := Nat.le_trans ihe (add_tallest_mono
      (Nat.le_trans (Nat.le_max_right db de) (Nat.le_max_right dc (max db de))))
    exact Nat.max_le.mpr ⟨condFits, Nat.max_le.mpr ⟨thenFits, elseFits⟩⟩
  | @whileLoop t tc tb c body links dc db _ cond _ ih =>
    have condFits := Nat.le_trans cond.height_le_of_demand
      (add_tallest_mono (Nat.le_max_left dc db))
    have bodyFits := Nat.le_trans ih (add_tallest_mono (Nat.le_max_right dc db))
    exact Nat.max_le.mpr ⟨condFits, bodyFits⟩
  | nil => exact Nat.zero_le _
  | @cons s rest ts us d d' _ _ ihs ihr =>
    exact Nat.max_le.mpr ⟨Nat.le_trans ihs (add_tallest_mono (Nat.le_max_left d d')),
      Nat.le_trans ihr (add_tallest_mono (Nat.le_max_right d d'))⟩
  | @block o c ts body demand _ _ _ ih =>
    have entered := Stmt.heightBlock_le body
    have next := tallest_lt_succ demand
    have inside : Stmt.heightList body ≤ demand + tallest demand := ih
    show Stmt.heightBlock body ≤ demand + 1 + tallest (demand + 1)
    omega
  | absent => exact Nat.zero_le _
  | otherwise _ _ ih => exact ih

/-! ## Every height is reached -/

/-- `Reaches level budget height`: some words are an expression of the level, of this height, with a
demand within the budget. -/
def Reaches (level budget height : Nat) : Prop :=
  ∃ ts e links demand, Phrase level ts e links demand ∧ demand ≤ budget ∧ e.height = height ∧
    ∀ t ∈ ts, t.IsWord

theorem Reaches.mono {level looser budget height : Nat} (h : Reaches level budget height)
    (le : looser ≤ level) : Reaches looser budget height := by
  obtain ⟨ts, e, links, demand, phrase, within, tall, all⟩ := h
  exact ⟨ts, e, links, demand, phrase.mono le, within, tall, all⟩

/-- Signs in front of a name. -/
theorem reaches_signed {n budget : Nat} (le : n ≤ budget) : Reaches unaryLevel budget n := by
  have height : (Expr.repeatUnary "-" n (.location "x" .unknown)).height = n := by
    clear le
    induction n with
    | zero => rfl
    | succ n ih => exact congrArg (· + 1) ih
  exact ⟨_, _, _, _, phrase_signed n, le, height, signed_isWord n⟩

theorem Reaches.group {budget height : Nat} (h : Reaches loosest budget height) :
    Reaches unaryLevel (budget + 1) height := by
  obtain ⟨ts, e, links, demand, phrase, within, tall, all⟩ := h
  have grouped := @Phrase.group Mark.openParen.token Mark.closeParen.token _ _ _ _ rfl phrase rfl
  refine ⟨_, e, _, _, grouped, Nat.succ_le_succ within, tall, fun t ht => ?_⟩
  simp only [List.mem_cons, List.mem_append, List.not_mem_nil, or_false] at ht
  rcases ht with rfl | ht | rfl
  · exact Mark.openParen.isWord_token
  · exact all t ht
  · exact Mark.closeParen.isWord_token

/-- The level of the sum. -/
def sumLevel : Nat := 3

/-- As many links as the budget allows stand behind an operand. -/
theorem Reaches.links {budget height : Nat} (h : Reaches unaryLevel budget height) {n : Nat}
    (le : n ≤ budget) : Reaches sumLevel budget (height + n) := by
  obtain ⟨ts, e, links, demand, phrase, within, tall, all⟩ := h
  have name := (phrase_signed 0).mono (by decide : sumLevel + 1 ≤ unaryLevel)
  have chain : ∀ n ≤ budget, ∃ us c d, Phrase sumLevel us c n d ∧ d ≤ budget ∧
      c.height = height + n ∧ ∀ t ∈ us, t.IsWord := by
    intro n
    induction n with
    | zero =>
      intro _
      cases phrase.links_eq_zero (Nat.le_refl _)
      exact ⟨ts, e, demand, phrase.mono (by decide), within, tall, all⟩
    | succ n ih =>
      intro le
      obtain ⟨us, c, d, left, fits, tallLeft, allLeft⟩ := ih (Nat.le_of_succ_le le)
      have linked := @Phrase.link sumLevel Mark.plus.token _ _ _ _ _ _ _ _ left rfl name
      have grown : (Expr.binary Mark.plus.token.lexeme c
          (.repeatUnary "-" 0 (.location "x" .unknown)) (startOf us)).height = height + (n + 1) := by
        show max c.height 0 + 1 = _
        omega
      refine ⟨_, _, _, linked, by omega, grown, fun t ht => ?_⟩
      rcases List.mem_append.mp ht with ht | ht
      · exact allLeft t ht
      · rcases List.mem_cons.mp ht with rfl | ht
        · exact Mark.plus.isWord_token
        · exact signed_isWord 0 t ht
  obtain ⟨us, c, d, phrase', within', tall', all'⟩ := chain n le
  exact ⟨us, c, n, d, phrase', within', tall', all'⟩

/-- An operand that is as tall as needed, and links for what is still lacking. -/
theorem reaches_sum {budget n : Nat} (bare : ∀ m ≤ tallest budget, Reaches unaryLevel budget m)
    (le : n ≤ budget + tallest budget) : Reaches sumLevel budget n := by
  have operand := bare (min n (tallest budget)) (Nat.min_le_right _ _)
  have chain := operand.links (by omega : n - min n (tallest budget) ≤ budget)
  have whole : min n (tallest budget) + (n - min n (tallest budget)) = n := by omega
  rw [whole] at chain
  exact chain

theorem reaches_bare (budget : Nat) : ∀ n ≤ tallest budget, Reaches unaryLevel budget n := by
  induction budget with
  | zero => exact fun n le => reaches_signed le
  | succ budget ih =>
    intro n le
    cases budget with
    | zero => exact reaches_signed le
    | succ budget =>
      rw [tallest, Nat.add_comm] at le
      exact ((reaches_sum ih le).mono (by decide)).group

theorem exists_phrase_height {budget n : Nat} (le : n ≤ budget + tallest budget) :
    Reaches loosest budget n :=
  (reaches_sum (reaches_bare budget) le).mono (by decide)

/-! ## Parsed trees -/

theorem Program.height_erase (p : Program) : p.erase.height = p.height :=
  Stmt.heightList_relocate _ p.body

/-- The height of a tree that keeps to the limit. -/
theorem limit_add_tallest : maxNesting + tallest maxNesting = maxNesting * (maxNesting + 1) / 2 + 1 := by
  have twice := two_mul_tallest_succ 255
  have limit : maxNesting = 255 + 1 := rfl
  rw [limit]
  omega

/-- The heights of the programs that are read from texts are the numbers up to this one. It is
greater than the limit: behind each operand the nesting is back at what it was in front of it. -/
theorem exists_parse_height_iff (n : Nat) :
    (∃ source p, (parse source).program? = some p ∧ p.height = n) ↔
      n ≤ maxNesting * (maxNesting + 1) / 2 + 1 := by
  rw [← limit_add_tallest]
  constructor
  · rintro ⟨source, p, accepted, rfl⟩
    have clean := faultFree_of_parse accepted
    obtain ⟨demand, within, derived⟩ := (parse_erase_iff clean p.erase.body).mp ⟨p, accepted, rfl⟩
    rw [← p.height_erase]
    exact Nat.le_trans derived.height_le (add_tallest_mono within)
  · intro le
    obtain ⟨ts, e, links, demand, phrase, within, tall, all⟩ := exists_phrase_height le
    obtain ⟨p, accepted, body⟩ := parse_valueText phrase all within
    refine ⟨valueText ts, p, accepted, ?_⟩
    rw [← p.height_erase, Program.height, body, ← tall]
    exact Nat.max_zero _

end ImpSyntax
