import ImpSyntax.Proofs.Reading.Complete

/-!
# What has been read is a phrase in part

The frames of a reading account for the tokens that were fed to it: each open construct holds the
phrases that were complete when it was opened, and the nesting counted so far is that of their
derivations. When the expression ends, the frames are closed into one phrase.

Main results:

* `Reading.feed_sound` — a token turns tokens that account for the reading into tokens that account
  for the outcome.
* `Reading.Reads.more`, `Reading.Reads.done` — the same of the two outcomes without a fault.
* `Reading.reads_start` — where nothing has been read, nothing is accounted for.
-/

namespace ImpSyntax.Reading

open Precedence Grammar

/-- `Opens base ts frames depth`: at nesting `base` the tokens `ts` open the frames, and the next
operand stands at `depth`. -/
inductive Opens (base : Nat) : List Token → List Frame → Nat → Prop
  | nil : Opens base [] [] base
  | sign {ts : List Token} {frames : List Frame} {depth : Nat} {t : Token} :
      Opens base ts frames depth → t.kind.isSign = true → depth < maxNesting →
      Opens base (ts ++ [t]) (.sign t.lexeme t.pos depth :: frames) (depth + 1)
  | group {ts : List Token} {frames : List Frame} {depth : Nat} {t : Token} :
      Opens base ts frames depth → t.kind = .mark .openParen → depth < maxNesting →
      Opens base (ts ++ [t]) (.group t.pos depth :: frames) (depth + 1)
  | link {ts ls : List Token} {frames : List Frame} {depth level links demand : Nat} {l : Expr}
      {t : Token} :
      Opens base ts frames depth → floorOf frames ≤ level → Phrase level ls l links demand →
      depth + demand ≤ maxNesting → t.kind.binaryLevel? = some (level, .left) →
      depth + links < maxNesting →
      Opens base (ts ++ (ls ++ [t]))
        (.link t.lexeme (level + 1) l (startOf ls) (depth + links + 1) :: frames)
        (depth + links + 1)

/-- `Reads base ts r`: at nesting `base` the tokens `ts` lead to the reading `r`. -/
inductive Reads (base : Nat) : List Token → Reading → Prop
  | operand {ts : List Token} {frames : List Frame} {depth : Nat} :
      Opens base ts frames depth → depth ≤ maxNesting → Reads base ts ⟨frames, depth, .operand⟩
  | inner {ts : List Token} {frames : List Frame} {depth : Nat} :
      (depth < maxNesting → Opens base ts frames (depth + 1)) →
      Reads base ts ⟨frames, depth, .inner⟩
  | operator {ts us : List Token} {frames : List Frame} {depth links demand : Nat} {e : Expr} :
      Opens base ts frames depth → Phrase unaryLevel us e links demand →
      depth + demand ≤ maxNesting →
      Reads base (ts ++ us) ⟨frames, depth, .operator e (startOf us)⟩

/-- What the tokens `ts` and `t` behind them account for: a reading, or an expression that ends in
front of `t`. -/
def LeadsTo (base : Nat) (ts : List Token) (t : Token) : Outcome → Prop
  | .more r => Reads base (ts ++ [t]) r
  | .done e => ∃ links demand, Phrase loosest ts e links demand ∧ base + demand ≤ maxNesting
  | .fault _ => True

theorem Opens.floorOf_le {base : Nat} {ts : List Token} {frames : List Frame} {depth : Nat}
    (h : Opens base ts frames depth) : floorOf frames ≤ unaryLevel := by
  cases h with
  | nil => decide
  | sign => exact Nat.le_refl _
  | group => exact (by decide : loosest ≤ unaryLevel)
  | link _ _ _ _ op _ => exact (Kind.binaryLevel?_bounds op).2

/-! ## Operands -/

theorem operand_sound {base : Nat} {ts : List Token} {frames : List Frame} {depth : Nat}
    (h : Opens base ts frames depth) (within : depth ≤ maxNesting) (t : Token) :
    LeadsTo base ts t (feed ⟨frames, depth, .operand⟩ t) := by
  by_cases sign : t.kind.isSign = true
  · rw [feed_sign sign]
    exact .inner (h.sign sign)
  by_cases opening : t.kind = .mark .openParen
  · rw [feed_open opening]
    exact .inner (h.group opening)
  by_cases name : t.kind = .ident
  · rw [feed_name name]
    exact .operator h (.name name) within
  cases literal : literalKind? t.kind with
  | some kind =>
    rw [feed_literal literal]
    exact .operator h (.literal literal) within
  | none =>
    have refused : feed ⟨frames, depth, .operand⟩ t = .fault (operandFault t) := by
      simp [feed, operand, sign, opening, name, literal, taken]
    rw [refused]
    trivial

/-! ## Operators -/

theorem ends_unaryLevel (t : Token) : Ends unaryLevel t :=
  fun _ _ op => Nat.le_of_lt (Kind.binaryLevel?_bounds op).2

/-- What a link of some level does not take on its right goes on with no phrase of that level. -/
theorem ends_of_rightFloor? {t : Token} {level : Nat} (h : rightFloor? t.kind (level + 1) = none) :
    Ends level t := by
  intro l assoc op
  by_contra tighter
  cases binaryAssoc_left op
  rw [rightFloor?_of_operator op (Nat.not_le.mp tighter)] at h
  cases h

theorem link_sound {base : Nat} {ts us : List Token} {frames : List Frame}
    {depth level floor next links demand : Nat} {e : Expr} {t : Token}
    (h : Opens base ts frames depth) (phrase : Phrase level us e links demand)
    (fits : depth + demand ≤ maxNesting) (ends : Ends level t) (le : floorOf frames ≤ floor)
    (found : rightFloor? t.kind floor = some next) :
    LeadsTo base (ts ++ us) t (link t next frames (depth + links) e (startOf us)) := by
  obtain ⟨m, l, kind, level?, floor_le, rfl⟩ := rightFloor?_eq_some_iff.mp found
  have op : t.kind.binaryLevel? = some (l, .left) := by rw [kind, binaryLevel?_mark, level?]; rfl
  have left : Phrase l us e links demand := phrase.mono (ends l .left op)
  unfold link
  split
  · next room =>
    have opened := h.link (Nat.le_trans le floor_le) left fits op room
    rw [← List.append_assoc] at opened
    exact .operand opened room
  · trivial

theorem settle_sound {base : Nat} {ts us : List Token} {frames : List Frame}
    {depth level links demand : Nat} {e : Expr} {t : Token} (h : Opens base ts frames depth)
    (phrase : Phrase level us e links demand) (fits : depth + demand ≤ maxNesting)
    (floor : floorOf frames ≤ level) (ends : Ends level t) :
    LeadsTo base (ts ++ us) t (settle t frames (depth + links) e (startOf us)) := by
  induction h generalizing us level links demand e with
  | nil =>
    rw [settle]
    cases found : rightFloor? t.kind loosest with
    | some next => exact link_sound .nil phrase fits ends (Nat.le_refl _) found
    | none => exact ⟨links, demand, phrase.mono floor, fits⟩
  | @sign ts frames depth op opened ht room ih =>
    have whole := ih (.sign ht (phrase.mono floor)) (by omega) opened.floorOf_le (ends_unaryLevel t)
    rw [List.append_assoc]
    exact whole
  | @group ts frames depth o opened ho room ih =>
    rw [settle]
    cases found : rightFloor? t.kind loosest with
    | some next => exact link_sound (opened.group ho room) phrase fits ends (Nat.le_refl _) found
    | none =>
      dsimp only
      split
      · next closed =>
        have whole := Phrase.group ho (phrase.mono floor) closed
        have read := Reads.operator opened whole (by omega)
        have tokens : ts ++ [o] ++ us ++ [t] = ts ++ o :: (us ++ [t]) := by simp
        rw [LeadsTo, tokens]
        exact read
      · trivial
  | @link ts ls frames depth level' n d l op opened le left leftFits ht room ih =>
    rw [settle]
    cases found : rightFloor? t.kind (level' + 1) with
    | some next =>
      exact link_sound (opened.link le left leftFits ht room) phrase fits ends (Nat.le_refl _) found
    | none =>
      have whole := ih (left.link ht (phrase.mono floor)) (by omega) le (ends_of_rightFloor? found)
      rw [startOf_append left.ne_nil] at whole
      rw [List.append_assoc, List.append_assoc]
      exact whole

/-! ## Any token -/

theorem feed_sound {base : Nat} {ts : List Token} {r : Reading} (h : Reads base ts r)
    (t : Token) : LeadsTo base ts t (r.feed t) := by
  cases h with
  | operand opened within => exact operand_sound opened within t
  | @inner _ frames depth opened =>
    by_cases room : depth < maxNesting
    · have step : feed ⟨frames, depth, .inner⟩ t = feed ⟨frames, depth + 1, .operand⟩ t :=
        if_pos room
      rw [step]
      exact operand_sound (opened room) room t
    · have step : feed ⟨frames, depth, .inner⟩ t = .fault .tooDeep := if_neg room
      rw [step]
      trivial
  | operator opened phrase fits =>
    have settled := settle_sound opened phrase fits opened.floorOf_le (ends_unaryLevel t)
    rw [phrase.links_eq_zero (Nat.le_refl _)] at settled
    exact settled

/-- Where the expression goes on, the tokens account for the new reading. -/
theorem Reads.more {base : Nat} {ts : List Token} {t : Token} {r r' : Reading}
    (h : Reads base ts r) (more : r.feed t = .more r') : Reads base (ts ++ [t]) r' := by
  have read := feed_sound h t
  rw [more] at read
  exact read

/-- Where the expression ends, the tokens are a phrase within the limit. -/
theorem Reads.done {base : Nat} {ts : List Token} {t : Token} {r : Reading} {e : Expr}
    (h : Reads base ts r) (done : r.feed t = .done e) :
    ∃ links demand, Phrase loosest ts e links demand ∧ base + demand ≤ maxNesting := by
  have read := feed_sound h t
  rw [done] at read
  exact read

theorem reads_start {base : Nat} (within : base ≤ maxNesting) : Reads base [] (.start base) :=
  .operand .nil within

end ImpSyntax.Reading
