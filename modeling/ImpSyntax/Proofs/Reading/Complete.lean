import Mathlib.Tactic.ByContra
import Mathlib.Tactic.SplitIfs
import ImpSyntax.Proofs.Grammar.Phrase

/-!
# Every phrase is read

A phrase is fed token by token to a reading in which an operand is due. If the nesting in front of
it and its demand together keep to the limit, the reading behind it stands for the whole phrase;
if they do not, one of its tokens is found to be too deep.

Main results:

* `Reading.feed_outside` — what becomes of an expression at a token that is in no expression.
* `Reading.feedAll_phrase` — behind a phrase that fits, the next token is settled against the phrase.
* `Reading.feedAll_phrase_tooDeep` — a phrase that does not fit is refused for its depth.
-/

namespace ImpSyntax.Reading

open Precedence Grammar

/-! ## Several tokens -/

/-- The outcome of feeding the tokens one after the other, up to the first that does not go on with
the expression. -/
def feedAll (r : Reading) : List Token → Outcome
  | [] => .more r
  | t :: ts =>
    match r.feed t with
    | .more r' => r'.feedAll ts
    | outcome => outcome

theorem feedAll_cons {r r' : Reading} {t : Token} (h : r.feed t = .more r') (ts : List Token) :
    r.feedAll (t :: ts) = r'.feedAll ts := by
  rw [feedAll, h]

theorem feedAll_cons_fault {r : Reading} {t : Token} {reason : SyntaxFault}
    (h : r.feed t = .fault reason) (ts : List Token) :
    r.feedAll (t :: ts) = .fault reason := by
  rw [feedAll, h]

theorem feedAll_append {r r' : Reading} {ts : List Token} (h : r.feedAll ts = .more r')
    (us : List Token) : r.feedAll (ts ++ us) = r'.feedAll us := by
  induction ts generalizing r with
  | nil => cases h; rfl
  | cons t ts ih =>
    rw [feedAll] at h
    rw [List.cons_append, feedAll]
    split at h
    · exact ih h
    · next other => rw [h] at other; exact absurd rfl (other r')

theorem feedAll_append_fault {r : Reading} {ts : List Token} {reason : SyntaxFault}
    (h : r.feedAll ts = .fault reason) (us : List Token) :
    r.feedAll (ts ++ us) = .fault reason := by
  induction ts generalizing r with
  | nil => cases h
  | cons t ts ih =>
    rw [feedAll] at h
    rw [List.cons_append, feedAll]
    split at h
    · exact ih h
    · exact h

/-- One level further in, the first token is where the limit counts. -/
theorem feedAll_inner {ts : List Token} (h : ts ≠ []) (frames : List Frame) (depth : Nat) :
    feedAll ⟨frames, depth, .inner⟩ ts =
      if depth < maxNesting then feedAll ⟨frames, depth + 1, .operand⟩ ts
      else .fault .tooDeep := by
  obtain ⟨t, rest, rfl⟩ := List.exists_cons_of_ne_nil h
  by_cases fits : depth < maxNesting
  · have step : feed ⟨frames, depth, .inner⟩ t = feed ⟨frames, depth + 1, .operand⟩ t := if_pos fits
    rw [if_pos fits, feedAll, feedAll, step]
  · have step : feed ⟨frames, depth, .inner⟩ t = .fault .tooDeep := if_neg fits
    rw [if_neg fits]
    exact feedAll_cons_fault step rest

/-! ## Operators behind an operand -/

/-- The level from which on the innermost open construct takes operators. -/
def floorOf : List Frame → Nat
  | .sign .. :: _ => unaryLevel
  | .link _ floor .. :: _ => floor
  | .group .. :: _ | [] => loosest

/-- The token cannot go on with a phrase of the level: it is no operator that binds more tightly. -/
def Ends (level : Nat) (t : Token) : Prop :=
  ∀ l assoc, t.kind.binaryLevel? = some (l, assoc) → l ≤ level

theorem Ends.mono {level tighter : Nat} {t : Token} (h : Ends level t) (le : level ≤ tighter) :
    Ends tighter t :=
  fun l assoc op => Nat.le_trans (h l assoc op) le

theorem ends_of_operator {level : Nat} {assoc : Assoc} {t : Token}
    (h : t.kind.binaryLevel? = some (level, assoc)) : Ends level t := by
  intro l assoc' op
  rw [h] at op
  cases op
  exact Nat.le_refl _

theorem ends_of_not_operator {t : Token} (h : t.kind.binaryLevel? = none) (level : Nat) :
    Ends level t := by
  intro l assoc op
  rw [h] at op
  cases op

theorem rightFloor?_of_operator {k : Kind} {level floor : Nat}
    (h : k.binaryLevel? = some (level, .left)) (le : floor ≤ level) :
    rightFloor? k floor = some (level + 1) := by
  rw [rightFloor?, h]
  exact if_pos le

theorem rightFloor?_of_ends {t : Token} {level : Nat} (h : Ends level t) :
    rightFloor? t.kind (level + 1) = none := by
  by_contra found
  obtain ⟨next, found⟩ := Option.ne_none_iff_exists'.mp found
  obtain ⟨m, l, kind, level?, le, -⟩ := rightFloor?_eq_some_iff.mp found
  have op : t.kind.binaryLevel? = some (l, .left) := by rw [kind, binaryLevel?_mark, level?]; rfl
  exact absurd (h l .left op) (by omega)

/-- An operator that the innermost open construct takes adds a link, whatever lies further out. -/
theorem settle_operator {t : Token} {level : Nat} {frames : List Frame}
    (op : t.kind.binaryLevel? = some (level, .left)) (le : floorOf frames ≤ level) (depth : Nat)
    (e : Expr) (start : Position) :
    settle t frames depth e start = link t (level + 1) frames depth e start := by
  cases frames with
  | nil =>
    have le : loosest ≤ level := le
    rw [settle, rightFloor?_of_operator op le]
  | cons frame frames =>
    cases frame with
    | sign => exact absurd (Kind.binaryLevel?_bounds op).2 (Nat.not_lt.mpr le)
    | group =>
      have le : loosest ≤ level := le
      rw [settle, rightFloor?_of_operator op le]
    | link _ floor =>
      have le : floor ≤ level := le
      rw [settle, rightFloor?_of_operator op le]

/-! ## Tokens that stand outside of expressions -/

/-- The next operand can stand where it is to stand. -/
def HasRoom (r : Reading) : Prop := r.need = .inner → r.depth < maxNesting

section Outside

variable {t : Token}

theorem operand_outside (h : t.kind.startsOperand = false) (frames : List Frame) (depth : Nat) :
    operand frames depth t = .error (operandFault t) := by
  simp only [Kind.startsOperand, Bool.or_eq_false_iff, beq_eq_false_iff_ne,
    Option.isSome_eq_false_iff, Option.isNone_iff_eq_none] at h
  obtain ⟨⟨⟨sign, opening⟩, name⟩, literal⟩ := h
  simp [operand, sign, opening, name, literal]

theorem operand_inside (h : t.kind.startsOperand = true) (frames : List Frame) (depth : Nat) :
    ∃ r, operand frames depth t = .ok r := by
  simp only [Kind.startsOperand, Bool.or_eq_true, beq_iff_eq, Option.isSome_iff_exists] at h
  unfold operand
  split_ifs with sign opening name
  · exact ⟨_, rfl⟩
  · exact ⟨_, rfl⟩
  · exact ⟨_, rfl⟩
  · obtain ⟨kind, literal⟩ : ∃ kind, literalKind? t.kind = some kind := by
      simpa [sign, opening, name] using h
    rw [literal]
    exact ⟨_, rfl⟩

theorem settle_outside (h : t.kind.inExpression = false) (frames : List Frame) (depth : Nat)
    (e : Expr) (start : Position) :
    (∃ e', settle t frames depth e start = .done e') ∨
      settle t frames depth e start = .fault (.insteadOf .closeParen t) := by
  simp only [Kind.inExpression, Bool.or_eq_false_iff, beq_eq_false_iff_ne,
    Option.isSome_eq_false_iff, Option.isNone_iff_eq_none] at h
  obtain ⟨⟨-, noOperator⟩, notClose⟩ := h
  have floor (n : Nat) : rightFloor? t.kind n = none := by rw [rightFloor?, noOperator]
  induction frames generalizing depth e start with
  | nil => exact .inl ⟨e, by rw [settle, floor]⟩
  | cons frame frames ih =>
    cases frame with
    | sign op pos outer => exact ih outer (.unary op e pos) pos
    | group pos outer =>
      rw [settle, floor]
      exact .inr (if_neg notClose)
    | link op least left begun outer =>
      rw [settle, floor]
      exact ih outer (.binary op left e begun) begun

/-- No expression goes on with a token that stands outside of expressions: it is over in front of the
token, or lacks an operand, a parenthesis or the room for an operand. -/
theorem feed_outside (h : t.kind.inExpression = false) (r : Reading) :
    (∃ e, r.feed t = .done e) ∨ ∃ reason, r.feed t = .fault reason ∧
      (r.HasRoom → reason = operandFault t ∨ reason = .insteadOf .closeParen t) := by
  have begins : t.kind.startsOperand = false := by
    simp only [Kind.inExpression, Bool.or_eq_false_iff] at h
    exact h.1.1
  obtain ⟨frames, depth, need⟩ := r
  have refused (depth : Nat) : taken (operand frames depth t) = .fault (operandFault t) := by
    rw [operand_outside begins, taken]
  cases need with
  | inner =>
    right
    by_cases room : depth < maxNesting
    · have step : feed ⟨frames, depth, .inner⟩ t = taken (operand frames (depth + 1) t) :=
        if_pos room
      exact ⟨_, step.trans (refused _), fun _ => .inl rfl⟩
    · have step : feed ⟨frames, depth, .inner⟩ t = .fault .tooDeep := if_neg room
      exact ⟨_, step, fun has => absurd (has rfl) room⟩
  | operand => exact .inr ⟨_, refused depth, fun _ => .inl rfl⟩
  | operator e start =>
    rcases settle_outside h frames depth e start with done | fault
    · exact .inl done
    · exact .inr ⟨_, fault, fun _ => .inr rfl⟩

theorem inExpression_of_more {r r' : Reading} (more : r.feed t = .more r') :
    t.kind.inExpression = true := by
  by_contra outside
  rcases feed_outside (Bool.eq_false_iff.mpr outside) r with ⟨e, done⟩ | ⟨reason, fault, -⟩
  · rw [more] at done
    cases done
  · rw [more] at fault
    cases fault

end Outside

/-! ## Phrases -/

/-! ### The first token of an operand -/

section Operand

variable {t : Token} {frames : List Frame} {depth : Nat}

theorem feed_sign (h : t.kind.isSign = true) :
    feed ⟨frames, depth, .operand⟩ t =
      .more ⟨.sign t.lexeme t.pos depth :: frames, depth, .inner⟩ := by
  simp only [feed, operand, h, if_true, taken]

theorem feed_open (h : t.kind = .mark .openParen) :
    feed ⟨frames, depth, .operand⟩ t = .more ⟨.group t.pos depth :: frames, depth, .inner⟩ := by
  simp [feed, operand, h, Kind.isSign, taken]

theorem feed_name (h : t.kind = .ident) :
    feed ⟨frames, depth, .operand⟩ t =
      .more ⟨frames, depth, .operator (.location t.lexeme t.pos) t.pos⟩ := by
  simp [feed, operand, h, Kind.isSign, taken]

theorem feed_literal {kind : LiteralKind} (h : literalKind? t.kind = some kind) :
    feed ⟨frames, depth, .operand⟩ t =
      .more ⟨frames, depth, .operator (.literal kind t.lexeme t.pos) t.pos⟩ := by
  have notSign : t.kind.isSign = false := by
    cases hk : t.kind <;> rw [hk] at h <;> first | rfl | cases h
  have notOpen : t.kind ≠ .mark .openParen := by intro hk; rw [hk] at h; cases h
  have notName : t.kind ≠ .ident := by intro hk; rw [hk] at h; cases h
  simp only [feed, operand, notSign, notOpen, notName, h, Bool.false_eq_true, if_false, taken]

end Operand

theorem settle_close {t : Token} (h : t.kind = .mark .closeParen) {frames : List Frame}
    {pos start : Position} {outer depth : Nat} {e : Expr} :
    settle t (.group pos outer :: frames) depth e start =
      .more ⟨frames, outer, .operator e pos⟩ := by
  have floor : rightFloor? t.kind loosest = none := by rw [h]; rfl
  rw [settle, floor]
  exact if_pos h

/-- The reading behind a phrase of the level: what comes next is settled as if the frames that
the phrase opened were closed already. -/
def StandsFor (r : Reading) (level : Nat) (frames : List Frame) (depth : Nat) (e : Expr)
    (start : Position) : Prop :=
  ∀ t, Ends level t → r.feed t = settle t frames depth e start

theorem feedAll_phrase {level : Nat} {ts : List Token} {e : Expr} {links demand : Nat}
    (h : Phrase level ts e links demand) (frames : List Frame) {depth : Nat}
    (floor : floorOf frames ≤ level) (fits : depth + demand ≤ maxNesting) :
    ∃ r, feedAll ⟨frames, depth, .operand⟩ ts = .more r ∧
      r.StandsFor level frames (depth + links) e (startOf ts) := by
  induction h generalizing frames depth with
  | @name t ht => exact ⟨_, feedAll_cons (feed_name ht) [], fun _ _ => rfl⟩
  | @literal t kind ht => exact ⟨_, feedAll_cons (feed_literal ht) [], fun _ _ => rfl⟩
  | @group o c ts e links demand ho inner hc ih =>
    have room : depth < maxNesting := by omega
    obtain ⟨r, read, stands⟩ := @ih (.group o.pos depth :: frames) (depth + 1)
      (Nat.le_refl _) (by omega)
    have closed : r.feed c = .more ⟨frames, depth, .operator e o.pos⟩ := by
      rw [stands c (ends_of_not_operator (by rw [hc]; rfl) _)]
      exact settle_close hc
    refine ⟨⟨frames, depth, .operator e o.pos⟩, ?_, fun _ _ => rfl⟩
    have inside : feedAll ⟨.group o.pos depth :: frames, depth, .inner⟩ ts = .more r := by
      rw [feedAll_inner inner.ne_nil, if_pos room]
      exact read
    rw [feedAll_cons (feed_open ho), feedAll_append inside]
    exact feedAll_cons closed []
  | @sign t ts e links demand ht operand ih =>
    have room : depth < maxNesting := by omega
    have bare := operand.links_eq_zero (Nat.le_refl _)
    obtain ⟨r, read, stands⟩ := @ih (.sign t.lexeme t.pos depth :: frames) (depth + 1)
      (Nat.le_refl _) (by omega)
    refine ⟨r, ?_, fun t' ends => ?_⟩
    · rw [feedAll_cons (feed_sign ht), feedAll_inner operand.ne_nil, if_pos room]
      exact read
    · rw [stands t' ends]
      rfl
  | @link level t ls rs l r n d n' d' left op right ihl ihr =>
    have room : depth + n < maxNesting := by omega
    obtain ⟨r₁, read₁, stands₁⟩ := @ihl frames depth floor (by omega)
    have linked : r₁.feed t =
        .more ⟨.link t.lexeme (level + 1) l (startOf ls) (depth + n + 1) :: frames,
          depth + n + 1, .operand⟩ := by
      rw [stands₁ t (ends_of_operator op), settle_operator op floor]
      exact if_pos room
    obtain ⟨r₂, read₂, stands₂⟩ := @ihr
      (.link t.lexeme (level + 1) l (startOf ls) (depth + n + 1) :: frames) (depth + n + 1)
      (Nat.le_refl _) (by omega)
    refine ⟨r₂, ?_, fun t' ends => ?_⟩
    · rw [feedAll_append read₁, feedAll_cons linked]
      exact read₂
    · rw [stands₂ t' (ends.mono (Nat.le_succ _)), settle, rightFloor?_of_ends ends,
        startOf_append left.ne_nil, Nat.add_assoc]
  | tighter _ ih =>
    obtain ⟨r, read, stands⟩ := ih frames (Nat.le_succ_of_le floor) fits
    exact ⟨r, read, fun t ends => stands t (ends.mono (Nat.le_succ _))⟩

theorem feedAll_phrase_tooDeep {level : Nat} {ts : List Token} {e : Expr} {links demand : Nat}
    (h : Phrase level ts e links demand) (frames : List Frame) {depth : Nat}
    (floor : floorOf frames ≤ level) (within : depth ≤ maxNesting)
    (deep : maxNesting < depth + demand) :
    feedAll ⟨frames, depth, .operand⟩ ts = .fault .tooDeep := by
  induction h generalizing frames depth with
  | name => omega
  | literal => omega
  | @group o c ts e links demand ho inner hc ih =>
    rw [feedAll_cons (feed_open ho)]
    apply feedAll_append_fault
    rw [feedAll_inner inner.ne_nil]
    split
    · exact @ih (.group o.pos depth :: frames) (depth + 1) (Nat.le_refl _) (by omega) (by omega)
    · rfl
  | @sign t ts e links demand ht operand ih =>
    rw [feedAll_cons (feed_sign ht), feedAll_inner operand.ne_nil]
    split
    · exact @ih (.sign t.lexeme t.pos depth :: frames) (depth + 1) (Nat.le_refl _) (by omega)
        (by omega)
    · rfl
  | @link level t ls rs l r n d n' d' left op right ihl ihr =>
    -- the limit is passed on the left, at the link itself, or on the right
    by_cases deepLeft : maxNesting < depth + d
    · exact feedAll_append_fault (ihl frames floor within deepLeft) _
    obtain ⟨r₁, read₁, stands₁⟩ := feedAll_phrase left frames floor (Nat.not_lt.mp deepLeft)
    have settled := settle_operator op floor (depth + n) l (startOf ls)
    rw [← stands₁ t (ends_of_operator op)] at settled
    rw [feedAll_append read₁]
    by_cases room : depth + n < maxNesting
    · have linked : r₁.feed t =
          .more ⟨.link t.lexeme (level + 1) l (startOf ls) (depth + n + 1) :: frames,
            depth + n + 1, .operand⟩ := settled.trans (if_pos room)
      rw [feedAll_cons linked]
      exact @ihr (.link t.lexeme (level + 1) l (startOf ls) (depth + n + 1) :: frames)
        (depth + n + 1) (Nat.le_refl _) (by omega) (by omega)
    · have refused : r₁.feed t = .fault .tooDeep := settled.trans (if_neg room)
      exact feedAll_cons_fault refused rs
  | tighter _ ih => exact ih frames (Nat.le_succ_of_le floor) within deep

end ImpSyntax.Reading
