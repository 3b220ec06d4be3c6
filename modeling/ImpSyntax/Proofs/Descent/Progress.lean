import Mathlib.Tactic.SplitIfs
import ImpSyntax.Parser.Descent
import ImpSyntax.Proofs.Grammar.Phrase
import ImpSyntax.Proofs.Parser.Steps

/-!
# The rules come to an end

Every token is taken once, so what was taken and what is left add up to the same number all the way.
A rule that comes to a result has taken a token; the calls that lead back to a rule are made behind
a token; so the number of tokens left bounds them. On the way a rule begins statements only at
tokens between its own first one and the one it leaves ahead, each at a token of its own, counts what
it reports, and is back at the level at which it was called.

Main results:

* `Descent.return_within` — the rules of expressions come to an end.
* `Descent.pass_returns` — one pass of the loop over statements takes a token.
* `Descent.statements_returns` — the loop comes to an end, at a token that closes it.
-/

namespace ImpSyntax.Descent

open Precedence

variable {α β : Type}

/-! ## What every rule keeps -/

/-- What lies between two cursors of one text: some tokens were taken, statements were begun at
tokens behind the first `late` of them, the last one first, the reports were counted, and the nesting
was no smaller than in front and within the limit. -/
structure Onward (late : Nat) (c c' : Cursor) : Prop where
  taken_le : c.taken ≤ c'.taken
  count : c'.taken + c'.left = c.taken + c.left
  depth_le : c.depth ≤ c'.depth ∧ c'.depth ≤ maxNesting
  starts : ∃ new, c'.starts = new ++ c.starts ∧ new.Pairwise (· > ·) ∧
    ∀ k ∈ new, c.taken + late ≤ k ∧ k < c'.taken
  counted : c.Counted → c'.Counted
  levels : ∃ new, c'.levels = new ++ c.levels ∧ ∀ l ∈ new, c.depth ≤ l ∧ l ≤ maxNesting

/-- Fewer than `n` tokens are left, and the nesting is within the limit. -/
structure Fits (n : Nat) (c : Cursor) : Prop where
  left_lt : c.left < n
  depth_le : c.depth ≤ maxNesting

section Onward

variable {late n : Nat} {c c' c'' : Cursor}

theorem Onward.of_same (taken : c'.taken = c.taken) (left : c'.left = c.left)
    (depth : c.depth ≤ c'.depth ∧ c'.depth ≤ maxNesting) (starts : c'.starts = c.starts)
    (counted : c.Counted → c'.Counted)
    (levels : ∃ new, c'.levels = new ++ c.levels ∧ ∀ l ∈ new, c.depth ≤ l ∧ l ≤ maxNesting) :
    Onward late c c' where
  taken_le := Nat.le_of_eq taken.symm
  count := by rw [taken, left]
  depth_le := depth
  starts := ⟨[], starts, List.Pairwise.nil, by simp⟩
  counted := counted
  levels := levels

theorem Onward.refl (within : c.depth ≤ maxNesting) : Onward late c c :=
  .of_same rfl rfl ⟨Nat.le_refl _, within⟩ rfl id ⟨[], rfl, by simp⟩

theorem Onward.trans {late' : Nat} (h : Onward late c c') (h' : Onward late' c' c'')
    (le : c.taken + late ≤ c'.taken + late') : Onward late c c'' := by
  obtain ⟨new, starts, sorted, range⟩ := h.starts
  obtain ⟨new', starts', sorted', range'⟩ := h'.starts
  obtain ⟨low, levels, bounds⟩ := h.levels
  obtain ⟨low', levels', bounds'⟩ := h'.levels
  have taken_le := h.taken_le
  have taken_le' := h'.taken_le
  refine ⟨Nat.le_trans taken_le taken_le', h'.count.trans h.count,
    ⟨Nat.le_trans h.depth_le.1 h'.depth_le.1, h'.depth_le.2⟩, ⟨new' ++ new, ?_, ?_, ?_⟩,
    h'.counted ∘ h.counted, ⟨low' ++ low, ?_, ?_⟩⟩
  · rw [starts', starts, List.append_assoc]
  · refine List.pairwise_append.mpr ⟨sorted', sorted, fun k hk j hj => ?_⟩
    exact Nat.lt_of_lt_of_le (range j hj).2 (Nat.le_trans (Nat.le_add_right _ _) (range' k hk).1)
  · intro k hk
    rcases List.mem_append.mp hk with hk | hk
    · exact ⟨Nat.le_trans le (range' k hk).1, (range' k hk).2⟩
    · exact ⟨(range k hk).1, Nat.lt_of_lt_of_le (range k hk).2 taken_le'⟩
  · rw [levels', levels, List.append_assoc]
  · intro l hl
    rcases List.mem_append.mp hl with hl | hl
    · exact ⟨Nat.le_trans h.depth_le.1 (bounds' l hl).1, (bounds' l hl).2⟩
    · exact bounds l hl

/-- What holds of fewer tokens in front holds of none. -/
theorem Onward.weaken (h : Onward late c c') : Onward 0 c c' := by
  obtain ⟨new, starts, sorted, range⟩ := h.starts
  refine { h with starts := ⟨new, starts, sorted, fun k hk => ⟨?_, (range k hk).2⟩⟩ }
  exact Nat.le_trans (Nat.le_add_right _ _) (range k hk).1

theorem Onward.atLevel {depth : Nat} (le : c.depth ≤ depth) (within : depth ≤ maxNesting) :
    Onward late c (c.atLevel depth) := by
  refine .of_same rfl rfl ⟨le, within⟩ rfl id ⟨[depth], rfl, fun l hl => ?_⟩
  cases List.mem_singleton.mp hl
  exact ⟨le, within⟩

/-- Behind a rule the nesting can be set back to what it was in front. -/
theorem Onward.back (h : Onward late c c') (within : c.depth ≤ maxNesting) :
    Onward late c (c'.atLevel c.depth) := by
  obtain ⟨low, levels, bounds⟩ := h.levels
  refine ⟨h.taken_le, h.count, ⟨Nat.le_refl _, within⟩, h.starts, h.counted, c.depth :: low, ?_, ?_⟩
  · exact congrArg (List.cons c.depth) levels
  · intro l hl
    rcases List.mem_cons.mp hl with rfl | hl
    · exact ⟨Nat.le_refl _, within⟩
    · exact bounds l hl

theorem Onward.advance (within : c.depth ≤ maxNesting) : Onward late c c.advance := by
  by_cases end_ : c.ahead.kind = .eof
  · rw [Cursor.advance, if_pos end_]
    exact .refl within
  · have taken := Cursor.taken_advance end_
    have left := Cursor.left_advance end_
    exact ⟨by omega, by omega, by simpa using within, ⟨[], by simp⟩, .advance, ⟨[], by simp⟩⟩

theorem Fits.mono {m : Nat} (h : Fits n c) (le : n ≤ m) : Fits m c :=
  ⟨Nat.lt_of_lt_of_le h.left_lt le, h.depth_le⟩

theorem Fits.onward (h : Fits n c) (go : Onward late c c') : Fits n c' :=
  ⟨by have := go.taken_le; have := go.count; have := h.left_lt; omega, go.depth_le.2⟩

theorem Fits.deeper (h : Fits n c) (room : c.depth < maxNesting) :
    Fits n (c.atLevel (c.depth + 1)) :=
  ⟨h.left_lt, room⟩

/-- Behind a token there is one token less. -/
theorem Fits.behind (h : Fits (n + 1) c) (go : Onward late c c') (lt : c.taken < c'.taken) :
    Fits n c' :=
  ⟨by have := go.count; have := h.left_lt; omega, go.depth_le.2⟩

theorem Fits.next (h : Fits n c) : Fits n c.advance :=
  h.onward (Onward.advance h.depth_le : Onward 0 c c.advance)

theorem Fits.advance (h : Fits (n + 1) c) (more : c.ahead.kind ≠ .eof) : Fits n c.advance :=
  ⟨by have := Cursor.left_advance more; have := h.left_lt; omega, by
    rw [Cursor.depth_advance]
    exact h.depth_le⟩

end Onward

/-! ## Rules that return -/

/-- At the cursor the rule comes to a result or a report, at the level at which it was called. With
a result it has taken `k` tokens, and no statement began at one of the first `k`. -/
def Returns (k : Nat) (rule : Rule α) (c : Cursor) : Prop :=
  ∃ out c', rule c = some (out, c') ∧ Onward k c c' ∧ c'.depth = c.depth ∧
    ∀ a, out = .ok a → c.taken + k ≤ c'.taken

/-- At the cursor the rule takes a token, whatever it comes to, and comes back to the level at which
it was called; no statement began at the first token. -/
def Takes (rule : Rule α) (c : Cursor) : Prop :=
  ∃ out c', rule c = some (out, c') ∧ Onward 1 c c' ∧ c'.depth = c.depth ∧ c.taken < c'.taken

section Returns

variable {k n : Nat} {c : Cursor}

theorem Takes.returns {rule : Rule α} (h : Takes rule c) : Returns 1 rule c := by
  obtain ⟨out, c', run, go, level, took⟩ := h
  exact ⟨out, c', run, go, level, fun _ _ => took⟩

theorem Returns.weaken {rule : Rule α} (h : Returns k rule c) : Returns 0 rule c := by
  obtain ⟨out, c', run, go, level, -⟩ := h
  exact ⟨out, c', run, go.weaken, level, fun _ _ => go.taken_le⟩

/-- What is known of a rule that comes back is known of what it came to. -/
theorem Returns.of_run {rule : Rule α} {out : Except Report α} {c' : Cursor}
    (h : Returns k rule c) (run : rule c = some (out, c')) : Onward k c c' ∧ c'.depth = c.depth := by
  obtain ⟨out₁, c₁, run₁, go, level, -⟩ := h
  cases run.symm.trans run₁
  exact ⟨go, level⟩

/-- A rule that comes back goes on with a rule that comes back. -/
theorem Returns.bind {x : Rule α} {f : α → Rule β} (hx : Returns k x c)
    (hf : ∀ a c', Onward k c c' → c'.depth = c.depth → c.taken + k ≤ c'.taken →
      Returns 0 (f a) c') : Returns k (x >>= f) c := by
  obtain ⟨out, c₁, run, go, level, took⟩ := hx
  cases out with
  | error r => exact ⟨.error r, c₁, by rw [bind_apply, run], go, level, by simp⟩
  | ok a =>
    have took := took a rfl
    obtain ⟨out, c₂, run', go', level', -⟩ := hf a c₁ go level took
    refine ⟨out, c₂, by rw [bind_apply, run]; exact run', go.trans go' took,
      level'.trans level, fun _ _ => Nat.le_trans took go'.taken_le⟩

/-- A rule that takes a token goes on with a rule that comes back. -/
theorem Takes.bind {x : Rule α} {f : α → Rule β} (hx : Takes x c)
    (hf : ∀ a c', Onward 1 c c' → c'.depth = c.depth → c.taken < c'.taken → Returns 0 (f a) c') :
    Takes (x >>= f) c := by
  obtain ⟨out, c₁, run, go, level, took⟩ := hx
  cases out with
  | error r => exact ⟨.error r, c₁, by rw [bind_apply, run], go, level, took⟩
  | ok a =>
    obtain ⟨out, c₂, run', go', level', -⟩ := hf a c₁ go level took
    exact ⟨out, c₂, by rw [bind_apply, run]; exact run', go.trans go' took,
      level'.trans level, Nat.lt_of_lt_of_le took go'.taken_le⟩

theorem returns_pure (a : α) (within : c.depth ≤ maxNesting) : Returns 0 (pure a : Rule α) c :=
  ⟨.ok a, c, rfl, .refl within, rfl, fun _ _ => Nat.le_refl _⟩

theorem returns_fail (fault : SyntaxFault) (within : c.depth ≤ maxNesting) :
    Returns k (fail fault : Rule α) c :=
  ⟨_, c, fail_apply fault c, .refl within, rfl, by simp⟩

theorem takes_next (more : c.ahead.kind ≠ .eof) (within : c.depth ≤ maxNesting) : Takes next c :=
  ⟨_, c.advance, next_apply c, .advance within, by simp, by
    rw [Cursor.taken_advance more]
    exact Nat.lt_succ_self _⟩

theorem returns_next (within : c.depth ≤ maxNesting) : Returns 0 next c := by
  have go : Onward 0 c c.advance := .advance within
  exact ⟨_, c.advance, next_apply c, go, by simp, fun _ _ => go.taken_le⟩

theorem returns_expect {kind : Kind} (expected : Expectation) (notEnd : kind ≠ .eof)
    (within : c.depth ≤ maxNesting) : Returns 1 (expect kind expected) c := by
  unfold Returns
  rw [expect_apply]
  split
  · next found => exact (takes_next (found ▸ notEnd) within).returns
  · exact returns_fail _ within

theorem returns_nested {rule : Rule α} (within : c.depth ≤ maxNesting)
    (h : c.depth < maxNesting → Returns k rule (c.atLevel (c.depth + 1))) :
    Returns k (nested rule) c := by
  unfold Returns
  rw [nested_apply]
  split
  · next room =>
    obtain ⟨out, c', run, go, level, took⟩ := h room
    have level : c'.depth = c.depth + 1 := level
    have lowered : c'.lower = some (c'.atLevel c.depth) := by simp [Cursor.lower, level]
    have go : Onward k c c' := (Onward.atLevel (Nat.le_succ _) room).trans go (Nat.le_refl _)
    exact ⟨out, c'.atLevel c.depth, by rw [behind_apply, run, Option.bind_some, lowered]; rfl,
      go.back within, rfl, took⟩
  · exact returns_fail _ within

theorem takes_ahead {f : Token → Rule α} (h : Takes (f c.ahead) c) : Takes (ahead >>= f) c := h

theorem returns_ahead {f : Token → Rule α} (h : Returns k (f c.ahead) c) :
    Returns k (ahead >>= f) c := h

theorem takes_get {f : Cursor → Rule α} (h : Takes (f c) c) : Takes (get >>= f) c := h

theorem returns_get {f : Cursor → Rule α} (h : Returns k (f c) c) : Returns k (get >>= f) c := h

end Returns

/-! ## Expressions -/

theorem ne_eof_of_startsOperand {k : Kind} (h : k.startsOperand = true) : k ≠ .eof :=
  (Kind.ne_of_begins (Kind.begins_of_startsOperand h)).1

theorem ne_eof_of_rightFloor? {k : Kind} {floor tighter : Nat}
    (h : Reading.rightFloor? k floor = some tighter) : k ≠ .eof := by
  rintro rfl
  cases h

/-- The calls come back from every cursor with fewer than `n` tokens left. -/
structure Calls.Return (n : Nat) (calls : Calls) : Prop where
  unary : ∀ c, Fits n c → Returns 1 calls.unary c
  binary : ∀ floor c, Fits n c → Returns 1 (calls.binary floor) c
  links : ∀ floor left start c, Fits n c →
    ∃ out c', calls.links floor left start c = some (out, c') ∧ Onward 0 c c'

section Expressions

variable {n : Nat} {calls : Calls} {c : Cursor}

theorem takes_primary (h : calls.Return n) (fits : Fits (n + 1) c)
    (begins : c.ahead.kind.startsOperand = true) (plain : c.ahead.kind.isSign = false) :
    Takes (primary calls) c := by
  have more := ne_eof_of_startsOperand begins
  unfold primary
  refine takes_ahead ?_
  split_ifs with opening name
  · refine (takes_next more fits.depth_le).bind fun t c₁ go level took => ?_
    have fits₁ := fits.behind go took
    refine (returns_nested fits₁.depth_le fun room => ?_).bind fun inner c₂ go₂ _ _ => ?_
    · exact (h.binary _ _ (fits₁.deeper room)).weaken
    · refine (returns_expect _ (by simp) go₂.depth_le.2).weaken.bind fun _ c₃ go₃ _ _ => ?_
      exact returns_pure _ go₃.depth_le.2
  · refine (takes_next more fits.depth_le).bind fun t c₁ go _ _ => ?_
    exact returns_pure _ go.depth_le.2
  · split
    · refine (takes_next more fits.depth_le).bind fun t c₁ go _ _ => ?_
      exact returns_pure _ go.depth_le.2
    · next none => simp [Kind.startsOperand, plain, opening, name, none] at begins

theorem primary_refuses (calls : Calls)
    (outside : (c.ahead.kind.startsOperand && !c.ahead.kind.isSign) = false) :
    primary calls c =
      some (.error ⟨.syntactic (Reading.operandFault c.ahead), c.ahead.pos⟩, c) := by
  have none : c.ahead.kind ≠ .mark .openParen ∧ c.ahead.kind ≠ .ident ∧
      Reading.literalKind? c.ahead.kind = none := by
    cases kind : c.ahead.kind with
    | mark m => cases m <;> simp_all [Kind.startsOperand, Kind.isSign, Reading.literalKind?]
    | _ => simp_all [Kind.startsOperand, Kind.isSign, Reading.literalKind?]
  obtain ⟨opening, name, literal⟩ := none
  unfold primary
  rw [ahead_bind, if_neg opening, if_neg name, literal]
  exact fail_apply _ c

theorem returns_primary (h : calls.Return n) (fits : Fits (n + 1) c) :
    Returns 1 (primary calls) c := by
  cases begins : c.ahead.kind.startsOperand && !c.ahead.kind.isSign with
  | true =>
    obtain ⟨begins, plain⟩ := Bool.and_eq_true_iff.mp begins
    exact (takes_primary h fits begins (by simpa using plain)).returns
  | false => exact ⟨_, c, primary_refuses calls begins, .refl fits.depth_le, rfl, by simp⟩

/-- A token that begins no operand is left where it is. -/
theorem unary_refuses (calls : Calls) (outside : c.ahead.kind.startsOperand = false) :
    unary calls c =
      some (.error ⟨.syntactic (Reading.operandFault c.ahead), c.ahead.pos⟩, c) := by
  have sign : ¬ c.ahead.kind.isSign = true := by
    intro sign
    simp [Kind.startsOperand, sign] at outside
  unfold unary
  rw [ahead_bind, if_neg sign]
  exact primary_refuses calls (by simp [outside])

theorem takes_unary (h : calls.Return n) (fits : Fits (n + 1) c)
    (begins : c.ahead.kind.startsOperand = true) : Takes (unary calls) c := by
  have more := ne_eof_of_startsOperand begins
  unfold unary
  refine takes_ahead ?_
  split_ifs with sign
  · refine (takes_next more fits.depth_le).bind fun t c₁ go level took => ?_
    have fits₁ := fits.behind go took
    refine (returns_nested fits₁.depth_le fun room => ?_).bind fun operand c₂ go₂ _ _ => ?_
    · exact (h.unary _ (fits₁.deeper room)).weaken
    · exact returns_pure _ go₂.depth_le.2
  · exact takes_primary h fits begins (by simpa using sign)

theorem returns_unary (h : calls.Return n) (fits : Fits (n + 1) c) :
    Returns 1 (unary calls) c := by
  cases begins : c.ahead.kind.startsOperand with
  | true => exact (takes_unary h fits begins).returns
  | false => exact ⟨_, c, unary_refuses calls begins, .refl fits.depth_le, rfl, by simp⟩

/-- The links of a chain come to an end, no further out than they began. Either a token is taken or
the chain stops where it is. -/
theorem links_return (h : calls.Return n) (fits : Fits (n + 1) c) (floor : Nat) (left : Expr)
    (start : Position) :
    ∃ out c', links calls floor left start c = some (out, c') ∧ Onward 0 c c' ∧
      (c' = c ∨ c.taken < c'.taken) := by
  rw [links_apply]
  split
  · exact ⟨_, c, rfl, .refl fits.depth_le, .inl rfl⟩
  · next tighter operator =>
    have more := ne_eof_of_rightFloor? operator
    split
    · next room =>
      -- one token is taken for the operator, so that the calls come back behind it
      have deeper : Onward 0 c (c.atLevel (c.depth + 1)) := .atLevel (Nat.le_succ _) room
      have past : Onward 0 (c.atLevel (c.depth + 1)) (c.atLevel (c.depth + 1)).advance :=
        .advance room
      have go₁ := deeper.trans past (Nat.le_refl _)
      have took : c.taken < (c.atLevel (c.depth + 1)).advance.taken := by
        rw [Cursor.taken_advance (c := c.atLevel _) more]
        exact Nat.lt_succ_self _
      have fits₁ := fits.behind go₁ took
      obtain ⟨out, c₂, run, go₂, -, -⟩ := h.binary tighter _ fits₁
      have go₂ := go₂.weaken
      have through := go₁.trans go₂ go₁.taken_le
      have took₂ := Nat.lt_of_lt_of_le took go₂.taken_le
      rw [bind_apply, run]
      cases out with
      | error r => exact ⟨_, c₂, rfl, through, .inr took₂⟩
      | ok right =>
        obtain ⟨out, c₃, run, go₃⟩ := h.links floor _ start c₂ (fits₁.onward go₂)
        exact ⟨out, c₃, run, through.trans go₃ through.taken_le,
          .inr (Nat.lt_of_lt_of_le took₂ go₃.taken_le)⟩
    · exact ⟨_, c, rfl, .refl fits.depth_le, .inl rfl⟩

theorem takes_binary (h : calls.Return n) (fits : Fits (n + 1) c) (floor : Nat)
    (begins : c.ahead.kind.startsOperand = true) : Takes (binary calls floor) c := by
  obtain ⟨out, c₁, run, go, level, took⟩ := takes_unary h fits begins
  have chain : ∃ out c', (unary calls >>= fun r => links calls floor r.1 r.2) c = some (out, c') ∧
      Onward 1 c c' ∧ c.taken < c'.taken := by
    rw [bind_apply, run]
    cases out with
    | error r => exact ⟨_, c₁, rfl, go, took⟩
    | ok operand =>
      obtain ⟨out, c₂, run, go₂, -⟩ := links_return h (fits.onward go) floor operand.1 operand.2
      exact ⟨out, c₂, run, go.trans go₂ took, Nat.lt_of_lt_of_le took go₂.taken_le⟩
  obtain ⟨out, c₂, run, go, took⟩ := chain
  refine ⟨out, c₂.atLevel c.depth, ?_, go.back fits.depth_le, rfl, took⟩
  rw [binary_apply, run]
  rfl

theorem binary_refuses (calls : Calls) (floor : Nat)
    (outside : c.ahead.kind.startsOperand = false) :
    binary calls floor c =
      some (.error ⟨.syntactic (Reading.operandFault c.ahead), c.ahead.pos⟩,
        c.atLevel c.depth) := by
  rw [binary_apply, bind_apply, unary_refuses calls outside]
  rfl

theorem returns_binary (h : calls.Return n) (fits : Fits (n + 1) c) (floor : Nat) :
    Returns 1 (binary calls floor) c := by
  cases begins : c.ahead.kind.startsOperand with
  | true => exact (takes_binary h fits floor begins).returns
  | false =>
    exact ⟨_, _, binary_refuses calls floor begins, .atLevel (Nat.le_refl _) fits.depth_le, rfl,
      by simp⟩

theorem takes_expression (h : calls.Return n) (fits : Fits (n + 1) c)
    (begins : c.ahead.kind.startsOperand = true) : Takes (expression calls) c := by
  unfold expression
  refine (takes_binary h fits _ begins).bind fun e c₁ go _ _ => ?_
  exact returns_pure _ go.depth_le.2

theorem expression_refuses (calls : Calls) (outside : c.ahead.kind.startsOperand = false) :
    expression calls c =
      some (.error ⟨.syntactic (Reading.operandFault c.ahead), c.ahead.pos⟩,
        c.atLevel c.depth) := by
  unfold expression
  rw [bind_apply, binary_refuses calls _ outside]

theorem returns_expression (h : calls.Return n) (fits : Fits (n + 1) c) :
    Returns 1 (expression calls) c := by
  unfold expression
  exact (returns_binary h fits _).bind fun r c₁ go _ _ => returns_pure _ go.depth_le.2

/-- Each call takes a token before it leads to another, so as many calls as there are tokens are
enough. -/
theorem return_within (n : Nat) : (within n).Return n := by
  induction n with
  | zero =>
    have none (c : Cursor) (fits : Fits 0 c) : False := Nat.not_lt_zero _ fits.left_lt
    exact ⟨fun c fits => (none c fits).elim, fun _ c fits => (none c fits).elim,
      fun _ _ _ c fits => (none c fits).elim⟩
  | succ n ih =>
    exact ⟨fun c fits => returns_unary ih fits, fun floor c fits => returns_binary ih fits floor,
      fun floor left start c fits => by
        obtain ⟨out, c', run, go, -⟩ := links_return ih fits floor left start
        exact ⟨out, c', run, go⟩⟩

end Expressions

/-! ## Statements -/

section Statements

/-- The rule comes back from every cursor with fewer than `n` tokens left. It takes a token, or
leaves a token where it is that begins no operand. -/
structure Reads (n : Nat) (expression : Rule Expr) : Prop where
  takes : ∀ c, Fits n c → c.ahead.kind.startsOperand = true → Takes expression c
  refuses : ∀ c, c.ahead.kind.startsOperand = false →
    expression c =
      some (.error ⟨.syntactic (Reading.operandFault c.ahead), c.ahead.pos⟩, c.atLevel c.depth)

theorem reads_within (n : Nat) : Reads (n + 1) (expression (within n)) :=
  ⟨fun _ fits begins => takes_expression (return_within n) fits begins,
    fun _ outside => expression_refuses (within n) outside⟩

variable {n : Nat} {expression : Rule Expr} {body : Rule (List Stmt)} {c : Cursor}

theorem Reads.mono {m : Nat} (h : Reads m expression) (le : n ≤ m) : Reads n expression :=
  ⟨fun c fits => h.takes c (fits.mono le), h.refuses⟩

theorem Reads.returns (h : Reads n expression) (fits : Fits n c) : Returns 0 expression c := by
  cases begins : c.ahead.kind.startsOperand with
  | true => exact (h.takes c fits begins).returns.weaken
  | false =>
    exact ⟨_, _, h.refuses c begins, .atLevel (Nat.le_refl _) fits.depth_le, rfl, by simp⟩

theorem returns_semicolon (s : Stmt) (within : c.depth ≤ maxNesting) :
    Returns 0 (do let _ ← expect (.mark .semicolon) .semicolon; return s) c :=
  (returns_expect _ (by simp) within).weaken.bind fun _ _ go _ _ => returns_pure s go.depth_le.2

theorem takes_printStatement (value : Reads n expression)
    (more : c.ahead.kind ≠ .eof) (fits : Fits n c) : Takes (printStatement expression) c := by
  refine (takes_next more fits.depth_le).bind fun word c₁ go₁ _ _ => ?_
  refine (value.returns (fits.onward go₁)).bind fun e c₂ go₂ _ _ => ?_
  exact returns_semicolon _ go₂.depth_le.2

theorem returns_declaredName (within : c.depth ≤ maxNesting) : Returns 1 declaredName c := by
  refine (returns_expect _ (by simp) within).bind fun first c₁ go₁ _ _ => returns_ahead ?_
  split
  · refine (returns_next go₁.depth_le.2).bind fun _ c₂ go₂ _ _ => ?_
    exact returns_pure _ go₂.depth_le.2
  · exact returns_pure _ go₁.depth_le.2

theorem returns_initialValue (value : Reads n expression) (fits : Fits n c)
    (binding : Binding) (type : Option TypeName) :
    Returns 0 (initialValue expression binding type) c := by
  unfold initialValue
  refine returns_ahead ?_
  split_ifs
  · refine (returns_next fits.depth_le).bind fun _ c₁ go₁ _ _ => ?_
    refine (value.returns (fits.onward go₁)).bind fun e c₂ go₂ _ _ => ?_
    exact returns_pure _ go₂.depth_le.2
  · exact returns_pure _ fits.depth_le
  · exact returns_fail _ fits.depth_le

theorem takes_declaration (value : Reads n expression)
    (more : c.ahead.kind ≠ .eof) (fits : Fits n c) (binding : Binding) :
    Takes (declaration expression binding) c := by
  refine (takes_next more fits.depth_le).bind fun word c₁ go₁ _ _ => ?_
  refine (returns_declaredName go₁.depth_le.2).weaken.bind fun name c₂ go₂ _ _ => ?_
  have fits₂ := (fits.onward go₁).onward go₂
  refine (returns_initialValue value fits₂ binding name.2).bind fun init c₃ go₃ _ _ => ?_
  exact returns_semicolon _ go₃.depth_le.2

theorem takes_jumpStatement (more : c.ahead.kind ≠ .eof) (within : c.depth ≤ maxNesting)
    (jump : Jump) : Takes (jumpStatement jump) c := by
  refine (takes_next more within).bind fun word c₁ go₁ _ _ => ?_
  exact returns_semicolon _ go₁.depth_le.2

/-- The statements of a block begin behind its brace, where a token less is left. -/
theorem returns_block (inside : ∀ c, Fits n c → Returns 0 body c) (fits : Fits (n + 1) c) :
    Returns 1 (block body) c := by
  refine (returns_expect _ (by simp) fits.depth_le).bind fun _ c₁ go₁ _ took₁ => ?_
  have fits₁ := fits.behind go₁ took₁
  refine (returns_nested fits₁.depth_le fun room => ?_).bind fun statements c₂ go₂ _ _ => ?_
  · exact inside _ (fits₁.deeper room)
  · refine (returns_expect _ (by simp) go₂.depth_le.2).weaken.bind fun _ c₃ go₃ _ _ => ?_
    exact returns_pure _ go₃.depth_le.2

theorem takes_ifStatement (value : Reads (n + 1) expression)
    (inside : ∀ c, Fits n c → Returns 0 body c) (more : c.ahead.kind ≠ .eof)
    (fits : Fits (n + 1) c) : Takes (ifStatement expression body) c := by
  refine (takes_next more fits.depth_le).bind fun word c₁ go₁ _ _ => ?_
  have fits₁ := fits.onward go₁
  refine (value.returns fits₁).bind fun condition c₂ go₂ _ _ => ?_
  have fits₂ := fits₁.onward go₂
  refine (returns_block inside fits₂).weaken.bind fun thenBody c₃ go₃ _ _ => returns_ahead ?_
  have fits₃ := fits₂.onward go₃
  split
  · refine (returns_next fits₃.depth_le).bind fun _ c₄ go₄ _ _ => ?_
    refine (returns_block inside (fits₃.onward go₄)).weaken.bind fun elseBody c₅ go₅ _ _ => ?_
    exact returns_pure _ go₅.depth_le.2
  · exact returns_pure _ fits₃.depth_le

theorem takes_whileStatement (value : Reads (n + 1) expression)
    (inside : ∀ c, Fits n c → Returns 0 body c) (more : c.ahead.kind ≠ .eof)
    (fits : Fits (n + 1) c) : Takes (whileStatement expression body) c := by
  refine (takes_next more fits.depth_le).bind fun word c₁ go₁ _ _ => ?_
  have fits₁ := fits.onward go₁
  refine (value.returns fits₁).bind fun condition c₂ go₂ _ _ => ?_
  refine (returns_block inside (fits₁.onward go₂)).weaken.bind fun statements c₃ go₃ _ _ => ?_
  exact returns_pure _ go₃.depth_le.2

theorem takes_expressionStatement (value : Reads n expression) (fits : Fits n c)
    (begins : c.ahead.kind.startsOperand = true) : Takes (expressionStatement expression) c := by
  refine takes_get ?_
  refine (value.takes c fits begins).bind fun e c₁ go₁ _ _ => returns_ahead ?_
  have fits₁ := fits.onward go₁
  split
  · refine returns_get ?_
    split
    · exact returns_fail _ fits₁.depth_le
    · refine (returns_next fits₁.depth_le).bind fun _ c₂ go₂ _ _ => ?_
      refine (value.returns (fits₁.onward go₂)).bind fun e c₃ go₃ _ _ => ?_
      exact returns_semicolon _ go₃.depth_le.2
  · exact returns_semicolon _ fits₁.depth_le

theorem statementOf_declaration (expression : Rule Expr) (body : Rule (List Stmt))
    (binding : Binding) :
    statementOf expression body (.keyword binding.word) = declaration expression binding := by
  cases binding <;> rfl

theorem statementOf_jump (expression : Rule Expr) (body : Rule (List Stmt)) (jump : Jump) :
    statementOf expression body (.keyword jump.word) = jumpStatement jump := by
  cases jump <;> rfl

theorem takes_statement (value : Reads (n + 1) expression)
    (inside : ∀ c, Fits n c → Returns 0 body c) (fits : Fits (n + 1) c)
    (begins : c.ahead.kind.begins = true) : Takes (statement expression body) c := by
  have more := (Kind.ne_of_begins begins).1
  refine takes_ahead ?_
  cases word : c.ahead.kind.startsStatement with
  | true =>
    rcases Kind.startsStatement_cases word with
      kind | kind | kind | ⟨binding, kind⟩ | ⟨jump, kind⟩ <;> rw [kind]
    · exact takes_printStatement value more fits
    · exact takes_ifStatement value inside more fits
    · exact takes_whileStatement value inside more fits
    · rw [statementOf_declaration]
      exact takes_declaration value more fits binding
    · rw [statementOf_jump]
      exact takes_jumpStatement more fits.depth_le jump
  | false =>
    rw [statementOf_other expression body word]
    exact takes_expressionStatement value fits (by simpa [Kind.begins, word] using begins)

/-- A token that begins no statement is left where it is. -/
theorem statement_refuses (value : Reads n expression) (outside : c.ahead.kind.begins = false) :
    statement expression body c =
      some (.error ⟨.syntactic (Reading.operandFault c.ahead), c.ahead.pos⟩,
        c.atLevel c.depth) := by
  obtain ⟨noWord, noOperand⟩ : c.ahead.kind.startsStatement = false ∧
      c.ahead.kind.startsOperand = false := by simpa [Kind.begins] using outside
  rw [statement_apply, statementOf_other expression body noWord]
  unfold expressionStatement
  rw [get_bind, bind_apply, value.refuses c noOperand]

theorem returns_statement (value : Reads (n + 1) expression)
    (inside : ∀ c, Fits n c → Returns 0 body c) (fits : Fits (n + 1) c) :
    Returns 1 (statement expression body) c := by
  cases begins : c.ahead.kind.begins with
  | true => exact (takes_statement value inside fits begins).returns
  | false =>
    exact ⟨_, _, statement_refuses value begins, .atLevel (Nat.le_refl _) fits.depth_le, rfl,
      by simp⟩

end Statements

/-! ## Several statements -/

section Loop

variable {n : Nat} {expression : Rule Expr} {body : Rule (List Stmt)} {closing : Kind} {c : Cursor}

/-- The search for a place to go on takes a token, unless it stops at once. -/
theorem synchronize_takes (closing : Kind) (c : Cursor) :
    (synchronize closing c = c ∧ stopsAt closing c.ahead.kind = true) ∨
      c.taken < (synchronize closing c).taken := by
  fun_induction synchronize closing c with
  | case1 c semicolon =>
    refine .inr ?_
    rw [Cursor.taken_advance (by simp [semicolon])]
    exact Nat.lt_succ_self _
  | case2 c _ stops => exact .inl ⟨rfl, stops⟩
  | case3 c _ goesOn ih =>
    have took := Cursor.taken_advance (ne_eof_of_not_stopsAt goesOn)
    rcases ih with ⟨same, -⟩ | more
    · refine .inr ?_
      rw [same, took]
      exact Nat.lt_succ_self _
    · exact .inr (by omega)

/-- The search for a place to go on keeps the nesting and begins no statement. -/
theorem onward_synchronize (closing : Kind) (within : c.depth ≤ maxNesting) :
    Onward 0 c (synchronize closing c) ∧ (synchronize closing c).depth = c.depth := by
  fun_induction synchronize closing c with
  | case1 c semicolon => exact ⟨.advance within, by simp⟩
  | case2 c _ stops => exact ⟨.refl within, rfl⟩
  | case3 c _ goesOn ih =>
    obtain ⟨go, level⟩ := ih (by simpa using within)
    have go₁ : Onward 0 c c.advance := .advance within
    exact ⟨go₁.trans go go₁.taken_le, level.trans (by simp)⟩

/-- A failure changes nothing but what went wrong. -/
theorem fails_eq (c : Cursor) (first : Nat) (r : Report) :
    ∃ errors reports, c.fails first r =
      { c with errors, reports, incidents := c.incident first r :: c.incidents } := by
  unfold Cursor.fails Cursor.report
  split
  · exact ⟨c.errors, c.reports, rfl⟩
  · exact ⟨c.errors + 1, r :: c.reports, rfl⟩

@[simp] theorem depth_fails (c : Cursor) (first : Nat) (r : Report) :
    (c.fails first r).depth = c.depth := by
  obtain ⟨_, _, same⟩ := fails_eq c first r
  rw [same]

theorem Onward.fails {late : Nat} (first : Nat) (r : Report) (within : c.depth ≤ maxNesting) :
    Onward late c (c.fails first r) := by
  have counted : c.Counted → (c.fails first r).Counted := (·.fails first r)
  obtain ⟨_, _, same⟩ := fails_eq c first r
  rw [same] at counted ⊢
  exact .of_same rfl rfl ⟨Nat.le_refl _, within⟩ rfl counted ⟨[], rfl, by simp⟩

/-- The place of a statement stands in the record in front of those of the statements inside it. -/
theorem Onward.of_begin {c' : Cursor} (go : Onward 1 c.begin c') (took : c.taken < c'.taken) :
    Onward 0 c c' := by
  obtain ⟨new, starts, sorted, range⟩ := go.starts
  refine ⟨go.taken_le, go.count, go.depth_le, ⟨new ++ [c.taken], ?_, ?_, ?_⟩, go.counted, go.levels⟩
  · rw [starts, List.append_assoc]
    rfl
  · refine List.pairwise_append.mpr ⟨sorted, List.pairwise_singleton _ _, fun k hk j hj => ?_⟩
    cases List.mem_singleton.mp hj
    exact (range k hk).1
  · intro k hk
    rcases List.mem_append.mp hk with hk | hk
    · exact ⟨Nat.le_trans (Nat.le_add_right _ _) (range k hk).1, (range k hk).2⟩
    · cases List.mem_singleton.mp hk
      exact ⟨Nat.le_refl _, took⟩

/-- Behind a failure that is reported the loop takes a token, if the statement took none, and goes
where reading can go on. -/
theorem resumed (closing : Kind) {c' : Cursor} (go : Onward 1 c.begin c') (level : c'.depth = c.depth)
    (more : c.ahead.kind ≠ .eof) (r : Report) :
    Onward 1 c.begin (resume closing c.taken (c'.fails c.taken r)) ∧
      (resume closing c.taken (c'.fails c.taken r)).depth = c.depth ∧
      c.taken < (resume closing c.taken (c'.fails c.taken r)).taken := by
  have reported : Onward 1 c.begin (c'.fails c.taken r) :=
    go.trans (.fails c.taken r go.depth_le.2) (Nat.add_le_add_right go.taken_le 1)
  have level : (c'.fails c.taken r).depth = c.depth :=
    (depth_fails c' c.taken r).trans level
  generalize c'.fails c.taken r = c₁ at reported level ⊢
  have taken_le : c.taken ≤ c₁.taken := reported.taken_le
  have forced : ∃ c₂, resume closing c.taken c₁ = synchronize closing c₂ ∧ Onward 1 c.begin c₂ ∧
      c₂.depth = c.depth ∧ c.taken < c₂.taken := by
    unfold resume
    split
    · next none =>
      have count : c₁.taken + c₁.left = c.taken + c.left := reported.count
      have left := Cursor.left_pos more
      have more₁ : c₁.ahead.kind ≠ .eof := by
        intro end_
        have := Cursor.left_eq_zero end_
        omega
      have one : Onward 1 c₁ c₁.advance := .advance reported.depth_le.2
      refine ⟨_, rfl, reported.trans one (Nat.add_le_add_right taken_le 1), by simpa, ?_⟩
      rw [Cursor.taken_advance more₁, none]
      exact Nat.lt_succ_self _
    · next some => exact ⟨_, rfl, reported, level, Nat.lt_of_le_of_ne taken_le (Ne.symm some)⟩
  obtain ⟨c₂, same, go₂, level₂, took⟩ := forced
  obtain ⟨go₃, level₃⟩ := onward_synchronize closing go₂.depth_le.2
  rw [same]
  exact ⟨go₂.trans go₃ took, level₃.trans level₂, Nat.lt_of_lt_of_le took go₃.taken_le⟩

/-- One pass of the loop takes a token, whether the statement is one or fails. The place where the
statement begins goes into the record. -/
theorem pass_returns (closing : Kind) (value : Reads (n + 1) expression)
    (inside : ∀ c, Fits n c → Returns 0 body c) (more : c.ahead.kind ≠ .eof)
    (fits : Fits (n + 1) c) :
    ∃ s c', pass expression body closing c = some (s, c') ∧ Onward 1 c.begin c' ∧
      c'.depth = c.depth ∧ c.taken < c'.taken := by
  have fits : Fits (n + 1) c.begin := ⟨fits.left_lt, fits.depth_le⟩
  obtain ⟨out, c₁, run, go, level, took⟩ := returns_statement value inside fits
  have level : c₁.depth = c.depth := level
  cases out with
  | ok s =>
    have took : c.taken < c₁.taken := took s rfl
    exact ⟨some s, c₁, by rw [pass, run]; rfl, go, level, took⟩
  | error r =>
    obtain ⟨go₂, level₂, took₂⟩ := resumed closing go level more r
    exact ⟨none, _, by rw [pass, run]; rfl, go₂, level₂, took₂⟩

/-- The loop over statements, if it comes to an end, is a rule that comes back. -/
theorem returns_lift {n : Nat} {read : List Stmt}
    (h : ∃ statements' c', statements expression n closing read c = some (statements', c') ∧
      Onward 0 c c' ∧ c'.depth = c.depth ∧ (c'.ahead.kind = closing ∨ c'.ahead.kind = .eof)) :
    Returns 0 (ExceptT.lift (statements expression n closing read)) c := by
  obtain ⟨body, c', run, go, level, -⟩ := h
  refine ⟨.ok body, c', ?_, go, level, fun _ _ => go.taken_le⟩
  rw [lift_apply, run]
  rfl

/-- The loop over statements comes to an end, in front of a token that closes it. -/
theorem statements_returns (closing : Kind) {m : Nat} (value : Reads m expression) (le : n ≤ m)
    (read : List Stmt) (fits : Fits n c) :
    ∃ statements' c', statements expression n closing read c = some (statements', c') ∧
      Onward 0 c c' ∧ c'.depth = c.depth ∧ (c'.ahead.kind = closing ∨ c'.ahead.kind = .eof) := by
  induction n generalizing closing read c with
  | zero => exact absurd fits.left_lt (Nat.not_lt_zero _)
  | succ n ih =>
    rw [statements]
    dsimp only
    split
    · next closed => exact ⟨_, c, rfl, .refl fits.depth_le, rfl, closed⟩
    · next open_ =>
      have inside : ∀ c, Fits n c → Returns 0
          (ExceptT.lift (statements expression n (.mark .closeBrace) [])) c := fun c fits =>
        returns_lift (ih _ (by omega) [] fits)
      obtain ⟨s, c₁, run, go, level, took⟩ := pass_returns closing
        (value.mono le) inside (fun end_ => open_ (.inr end_)) fits
      have go := go.of_begin took
      obtain ⟨body, c₂, run₂, go₂, level₂, closed⟩ :=
        ih closing (by omega) (s.toList ++ read) (fits.behind go took)
      refine ⟨body, c₂, ?_, go.trans go₂ go.taken_le, level₂.trans level, closed⟩
      rw [run]
      exact run₂

theorem returns_body {m : Nat} (value : Reads m expression) (le : n ≤ m) (fits : Fits n c) :
    Returns 0 (ExceptT.lift (statements expression n (.mark .closeBrace) [])) c :=
  returns_lift (statements_returns _ value le [] fits)

end Loop

end ImpSyntax.Descent
