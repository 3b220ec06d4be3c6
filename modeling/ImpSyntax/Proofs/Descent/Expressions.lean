import ImpSyntax.Proofs.Descent.Progress
import ImpSyntax.Proofs.Parser.AccountSteps

/-!
# Rules and steps: expressions

What the rules read is what the parser reads that is fed item by item, and what they put down is what
is kept in the account of that parser. A rule that stands at a cursor corresponds to an account that
is about to be given the token ahead; the calls that are under way correspond to the frames and blocks
that are open in its parser. The two are compared by what comes of the text in the end: a rule that
comes to a result leaves the text with the same outcome as before, and one that fails leaves it with
the outcome of a failure at the token ahead.

Main results:

* `Descent.Follows.bind` — the comparison goes on from rule to rule.
* `Descent.follow_within` — the rules of expressions follow the frames of a reading.
-/

namespace ImpSyntax

open Precedence

/-! ## What comes of a text -/

namespace Account

/-- What is seen of a text when it has been read: the statements where nothing came up, the reports,
where statements began, and what went wrong. -/
abbrev Seen := Option (List Stmt) × List Report × List Nat × List Incident

/-- What is seen of the text that the account is of. -/
def seen (a : Account) : Seen :=
  (if a.parser.reports = [] ∧ a.parser.pending = false then some a.parser.body else none,
    a.parser.reports, a.starts, a.incidents)

/-- The account of the items up to the end, with the places counted in tokens from `n` on. The end is
at `pos` if it is not among them. -/
def feedFrom (a : Account) (n : Nat) (pos : Position) : List Item → Account
  | [] => a.feedToken n (.eof pos)
  | .fault fault at_ :: items => (a.feed (.fault fault at_, n)).feedFrom n pos items
  | .token t :: items =>
    if t.kind = .eof then a.feedToken n t else (a.feedToken n t).feedFrom (n + 1) t.pos items

/-- The account with all that the cursor knows of what went wrong and of where statements began. -/
def along (a : Account) (c : Descent.Cursor) : Account :=
  { a with
    parser := { a.parser with pending := c.pending, reports := c.reports }
    starts := c.starts
    incidents := c.incidents }

end Account

namespace Descent

open ImpSyntax.Account ImpSyntax.Reading

variable {α β : Type}

/-! ## The outcome at a cursor -/

/-- What comes of the text if `b` is the account behind the token ahead. -/
def outcomeBehind (b : Account) (c : Cursor) : Seen :=
  (if c.ahead.kind = .eof then b else b.feedFrom (c.taken + 1) c.ahead.pos c.items).seen

/-- What comes of the text if `a` is the account in front of the token ahead. -/
def outcome (a : Account) (c : Cursor) : Seen :=
  outcomeBehind ((a.along c).feedToken c.taken c.ahead) c

/-- What comes of the text if the statement in hand fails at the token ahead. -/
def outcomeOfFault (a : Account) (fault : SyntaxFault) (c : Cursor) : Seen :=
  outcomeBehind ((a.along c).fail c.taken c.ahead fault) c

section Outcome

variable {a b : Account} {goal : Goal} {r r' : Reading} {c : Cursor}

/-- Faults are met in the same order by the parser and by the cursor. -/
theorem seen_feedFrom (kept : b.along c = b) (items : List Item) :
    (b.feedFrom c.taken c.ahead.pos items).seen = outcome b (c.pull items) := by
  induction items generalizing b c with
  | nil =>
    have same : b.along (c.pull []) = b := kept
    rw [outcome, same]
    rfl
  | cons item items ih =>
    cases item with
    | token t =>
      have same : b.along (c.pull (.token t :: items)) = b := kept
      rw [outcome, same]
      rfl
    | fault fault pos =>
      have met : (b.feed (.fault fault pos, c.taken)).along (c.meet fault pos) =
          b.feed (.fault fault pos, c.taken) := by
        rw [← kept]
        rfl
      exact ih met

/-- Behind a token comes the next one. -/
theorem outcomeBehind_eq (more : c.ahead.kind ≠ .eof) (kept : b.along c = b) :
    outcomeBehind b c = outcome b c.advance := by
  rw [outcomeBehind, if_neg more, Cursor.advance, if_neg more]
  exact seen_feedFrom (c := { c with taken := c.taken + 1 }) kept c.items

theorem outcome_step (more : c.ahead.kind ≠ .eof)
    (step : (a.along c).feedToken c.taken c.ahead = b.along c) :
    outcome a c = outcome b c.advance := by
  rw [outcome, step]
  exact outcomeBehind_eq more rfl

theorem outcome_more (h : r.feed c.ahead = .more r') :
    outcome (a.into (.expr goal r)) c = outcome (a.into (.expr goal r')) c.advance := by
  refine outcome_step ?_ ?_
  · intro end_
    have inside := inExpression_of_more h
    rw [end_] at inside
    cases inside
  · rw [feedToken_expr rfl, h]
    rfl

/-- States in which the token ahead comes to the same are the same to the text. -/
theorem outcome_congr (h : r.feed c.ahead = r'.feed c.ahead) :
    outcome (a.into (.expr goal r)) c = outcome (a.into (.expr goal r')) c := by
  have ended (e : Expr) (m : Mode) :
      ((a.into m).along c).complete c.taken c.ahead goal e =
        (a.along c).complete c.taken c.ahead goal e := complete_into (a := a.along c) m goal e
  rw [outcome, outcome, feedToken_expr rfl, feedToken_expr rfl, h]
  cases r'.feed c.ahead with
  | more => rfl
  | done e => exact congrArg (outcomeBehind · c) ((ended e _).trans (ended e _).symm)
  | fault fault => rfl

theorem outcome_fault {fault : SyntaxFault} (h : r.feed c.ahead = .fault fault) :
    outcome (a.into (.expr goal r)) c = outcomeOfFault a fault c := by
  rw [outcome, feedToken_expr rfl, h]
  rfl

theorem outcome_done {e : Expr} (h : r.feed c.ahead = .done e) :
    outcome (a.into (.expr goal r)) c =
      outcomeBehind ((a.along c).complete c.taken c.ahead goal e) c := by
  rw [outcome, feedToken_expr rfl, h]
  exact congrArg (outcomeBehind · c) (complete_into (a := a.along c) _ goal e)

end Outcome

/-! ## Rules that follow the parser -/

/-- Whatever the rule comes to at the cursor agrees with `before`, the outcome in front of it: `on` is
the outcome behind a result, and a report is of the failure that the statement of `a` meets. -/
def Follows (before : Seen) (a : Account) (on : α → Cursor → Seen) (rule : Rule α)
    (c : Cursor) : Prop :=
  ∀ out c', rule c = some (out, c') →
    match out with
    | .ok value => before = on value c'
    | .error r => ∃ fault, r = ⟨.syntactic fault, c'.ahead.pos⟩ ∧
        before = outcomeOfFault a fault c'

section Follows

variable {before : Seen} {a : Account} {c : Cursor} {on : β → Cursor → Seen}

theorem Follows.bind {x : Rule α} {f : α → Rule β} {on₁ : α → Cursor → Seen}
    (hx : Follows before a on₁ x c)
    (hf : ∀ value c₁, x c = some (.ok value, c₁) → before = on₁ value c₁ →
      Follows before a on (f value) c₁) : Follows before a on (x >>= f) c := by
  intro out c' run
  rw [bind_apply] at run
  split at run
  · cases run
  · next value c₁ first => exact hf value c₁ first (hx _ _ first) out c' run
  · next r c₁ first =>
    cases run
    exact hx _ _ first

theorem follows_pure {value : β} (h : before = on value c) :
    Follows before a on (pure value) c := by
  intro out c' run
  cases run
  exact h

theorem follows_fail {fault : SyntaxFault} (h : before = outcomeOfFault a fault c) :
    Follows before a on (fail fault) c := by
  intro out c' run
  cases run
  exact ⟨fault, rfl, h⟩

theorem follows_next {f : Token → Rule β} (h : Follows before a on (f c.ahead) c.advance) :
    Follows before a on (next >>= f) c := h

theorem follows_ahead {f : Token → Rule β} (h : Follows before a on (f c.ahead) c) :
    Follows before a on (ahead >>= f) c := h

theorem follows_get {f : Cursor → Rule β} (h : Follows before a on (f c) c) :
    Follows before a on (get >>= f) c := h

theorem follows_expect {kind : Kind} {expected : Expectation} {f : Token → Rule β}
    (found : c.ahead.kind = kind → Follows before a on (f c.ahead) c.advance)
    (missed : c.ahead.kind ≠ kind → before = outcomeOfFault a (.insteadOf expected c.ahead) c) :
    Follows before a on (expect kind expected >>= f) c := by
  intro out c' run
  rw [bind_apply, expect_apply] at run
  by_cases is : c.ahead.kind = kind
  · rw [if_pos is] at run
    exact found is out c' run
  · rw [if_neg is] at run
    cases run
    exact ⟨_, rfl, missed is⟩

/-- What a rule one level further in comes to, it comes to by itself, unless there is no room. -/
theorem nested_eq_some {rule : Rule α} {out : Except Report α} {c' : Cursor}
    (run : nested rule c = some (out, c')) :
    (c.depth < maxNesting ∧ ∃ c₁ depth, rule (c.atLevel (c.depth + 1)) = some (out, c₁) ∧
      c' = c₁.atLevel depth) ∨
    (¬ c.depth < maxNesting ∧ out = .error ⟨.syntactic .tooDeep, c.ahead.pos⟩ ∧ c' = c) := by
  rw [nested_apply] at run
  by_cases room : c.depth < maxNesting
  · rw [if_pos room, behind_apply, Option.bind_eq_some_iff] at run
    obtain ⟨⟨out₁, c₁⟩, inner, run⟩ := run
    obtain ⟨c₂, lowered, same⟩ := Option.map_eq_some_iff.mp run
    cases same
    refine .inl ⟨room, c₁, c₁.depth - 1, inner, ?_⟩
    dsimp only at lowered
    unfold Cursor.lower at lowered
    split at lowered
    · cases lowered
    · cases lowered
      rfl
  · rw [if_neg room] at run
    cases run
    exact .inr ⟨room, rfl, rfl⟩

/-- The level itself is nothing to the outcome. -/
theorem follows_nested {rule : Rule β} 
    (level : ∀ value c' depth, on value (c'.atLevel depth) = on value c')
    (room : c.depth < maxNesting → Follows before a on rule (c.atLevel (c.depth + 1)))
    (full : ¬ c.depth < maxNesting → before = outcomeOfFault a .tooDeep c) :
    Follows before a on (nested rule) c := by
  intro out c' run
  obtain ⟨fits, c₁, depth, inner, rfl⟩ | ⟨fits, rfl, rfl⟩ := nested_eq_some run
  · have followed := room fits out c₁ inner
    cases out with
    | ok value => exact followed.trans (level value c₁ depth).symm
    | error r => exact followed
  · exact ⟨_, rfl, full fits⟩

end Follows

/-! ## Operators behind an operand -/

section Settle

variable {t : Token} {frames : List Frame}

theorem settle_of_rightFloor? {tighter : Nat} (h : rightFloor? t.kind (floorOf frames) = some tighter)
    (depth : Nat) (e : Expr) (start : Position) :
    settle t frames depth e start = link t tighter frames depth e start := by
  obtain ⟨m, level, kind, level?, le, rfl⟩ := rightFloor?_eq_some_iff.mp h
  exact settle_operator (by rw [kind, binaryLevel?_mark, level?]; rfl) le depth e start

/-- Where no link can be added, it makes no difference how deep one would be. -/
theorem settle_depth (h : rightFloor? t.kind (floorOf frames) = none) (depth depth' : Nat) (e : Expr)
    (start : Position) : settle t frames depth e start = settle t frames depth' e start := by
  cases frames with
  | nil =>
    have floor : rightFloor? t.kind loosest = none := h
    rw [settle, settle, floor]
  | cons frame frames =>
    cases frame with
    | sign => rfl
    | group =>
      have floor : rightFloor? t.kind loosest = none := h
      rw [settle, settle, floor]
    | link _ floor =>
      have floor : rightFloor? t.kind floor = none := h
      rw [settle, settle, floor]

end Settle

/-! ## The ends of chains -/

section Ends

variable {n floor : Nat} {left e : Expr} {start begun : Position} {c c' : Cursor}

/-- A chain ends in front of a token that adds no link. It is its left part alone, or has an operator
on top. -/
theorem links_end (run : links (within n) floor left start c = some (.ok (e, begun), c')) :
    rightFloor? c'.ahead.kind floor = none ∧
      (e = left ∧ c' = c ∨ ∃ op l r pos, e = .binary op l r pos) := by
  induction n generalizing left start c with
  | zero =>
    rw [links_apply] at run
    split at run
    · next none =>
      cases run
      exact ⟨none, .inl ⟨rfl, rfl⟩⟩
    · split at run <;> cases run
  | succ n ih =>
    rw [links_apply] at run
    split at run
    · next none =>
      cases run
      exact ⟨none, .inl ⟨rfl, rfl⟩⟩
    · split at run
      · rw [bind_apply] at run
        split at run
        · cases run
        · obtain ⟨ended, same | top⟩ := ih run
          · exact ⟨ended, .inr ⟨_, _, _, _, same.1⟩⟩
          · exact ⟨ended, .inr top⟩
        · cases run
      · cases run

theorem binary_end (run : binary (within n) floor c = some (.ok (e, begun), c')) :
    rightFloor? c'.ahead.kind floor = none := by
  rw [binary_apply, Option.map_eq_some_iff] at run
  obtain ⟨⟨out, c₂⟩, run, same⟩ := run
  cases same
  rw [bind_apply] at run
  split at run
  · cases run
  · exact (links_end run).1
  · cases run

/-- An expression that begins with a name and is read as a name is that one token. -/
theorem taken_of_location {name : String} {pos : Position}
    (run : expression (within n) c = some (.ok (.location name pos), c'))
    (first : c.ahead.kind = .ident) : c'.taken = c.taken + 1 := by
  unfold expression at run
  rw [bind_apply, binary_apply] at run
  have head : unary (within n) c =
      some (.ok (.location c.ahead.lexeme c.ahead.pos, c.ahead.pos), c.advance) := by
    unfold unary primary
    rw [ahead_bind, if_neg (by simp [first, Kind.isSign]), ahead_bind, if_neg (by simp [first]),
      if_pos first]
    rfl
  rw [bind_apply, head] at run
  dsimp only at run
  cases chain : links (within n) loosest (.location c.ahead.lexeme c.ahead.pos) c.ahead.pos
      c.advance with
  | none => rw [chain] at run; cases run
  | some r =>
    obtain ⟨out, c₂⟩ := r
    rw [chain] at run
    cases out with
    | error => cases run
    | ok r =>
      obtain ⟨e, begun⟩ := r
      cases run
      obtain ⟨-, ⟨-, rfl⟩ | ⟨_, _, _, _, top⟩⟩ := links_end chain
      · exact Cursor.taken_advance (by simp [first])
      · cases top

end Ends

/-! ## Expressions -/

/-- What comes of the text where an operand is due inside the frames, for an expression that is read
for the goal. -/
def due (a : Account) (goal : Goal) (frames : List Frame) (c : Cursor) : Seen :=
  outcome (a.into (.expr goal ⟨frames, c.depth, .operand⟩)) c

/-- What comes of the text behind an operand inside the frames. -/
def read (a : Account) (goal : Goal) (frames : List Frame) (depth : Nat) (operand : Expr × Position)
    (c : Cursor) : Seen :=
  outcome (a.into (.expr goal ⟨frames, depth, .operator operand.1 operand.2⟩)) c

/-- The calls follow the frames of a reading. -/
structure Calls.Follow (n : Nat) (calls : Calls) : Prop where
  unary : ∀ a goal frames c, Fits n c →
    Follows (due a goal frames c) a (read a goal frames c.depth) calls.unary c
  binary : ∀ a goal frames c, Fits n c →
    Follows (due a goal frames c) a (read a goal frames c.depth) (calls.binary (floorOf frames)) c
  links : ∀ a goal frames depth left start c, Fits n c →
    Follows (read a goal frames c.depth (left, start) c) a (read a goal frames depth)
      (calls.links (floorOf frames) left start) c

section Expressions

variable {n : Nat} {a : Account} {goal : Goal} {frames : List Frame} {c : Cursor}

/-- A rule one level further in follows the reading in which an operand is due there. -/
theorem follows_inner (a : Account) (goal : Goal) (frames : List Frame)
    {rule : Rule (Expr × Position)} {depth : Nat} (level : c.depth = depth)
    (inside : depth < maxNesting →
      Follows (due a goal frames (c.atLevel (depth + 1))) a (read a goal frames (depth + 1)) rule
        (c.atLevel (depth + 1))) :
    Follows (outcome (a.into (.expr goal ⟨frames, depth, .inner⟩)) c) a
      (read a goal frames (depth + 1)) (nested rule) c := by
  subst level
  refine follows_nested (fun _ _ _ => rfl) (fun room => ?_) (fun full => ?_)
  · have entered : outcome (a.into (.expr goal ⟨frames, c.depth, .inner⟩)) c =
        due a goal frames (c.atLevel (c.depth + 1)) :=
      outcome_congr (if_pos room)
    rw [entered]
    exact inside room
  · exact outcome_fault (if_neg full)

theorem within_binary_end {floor : Nat} {r : Expr × Position} {c' : Cursor}
    (run : (within n).binary floor c = some (.ok r, c')) :
    rightFloor? c'.ahead.kind floor = none := by
  cases n with
  | zero => cases run
  | succ n => exact binary_end run

theorem follows_primary (h : (within n).Follow n) (fits : Fits (n + 1) c)
    (plain : c.ahead.kind.isSign = false) :
    Follows (due a goal frames c) a (read a goal frames c.depth) (primary (within n)) c := by
  unfold primary
  refine follows_ahead ?_
  split_ifs with opening name
  · rw [due, outcome_more (feed_open opening)]
    refine follows_next ?_
    have inner : Follows _ a _ (nested ((within n).binary loosest)) c.advance :=
      follows_inner a goal (.group c.ahead.pos c.depth :: frames)
        (Cursor.depth_advance c) fun room =>
          h.binary a goal _ _ ⟨(fits.advance (by simp [opening])).left_lt, room⟩
    refine inner.bind fun operand c₁ run before => ?_
    have ended : rightFloor? c₁.ahead.kind loosest = none := by
      obtain ⟨-, c₂, _, inside, rfl⟩ | ⟨-, no, -⟩ := nested_eq_some run
      · have ended := within_binary_end inside
        exact ended
      · cases no
    rw [before, read]
    refine follows_expect (fun closing => follows_pure ?_) fun other => ?_
    · exact outcome_more (settle_close closing)
    · refine outcome_fault ?_
      change settle c₁.ahead _ _ _ _ = _
      rw [settle, ended]
      exact if_neg other
  · rw [due, outcome_more (feed_name name)]
    exact follows_next (follows_pure rfl)
  · split
    · next kind literal =>
      rw [due, outcome_more (feed_literal literal)]
      exact follows_next (follows_pure rfl)
    · next none =>
      refine follows_fail (outcome_fault ?_)
      simp [Reading.feed, operand, plain, opening, name, none, taken]

theorem follows_unary (h : (within n).Follow n) (fits : Fits (n + 1) c) :
    Follows (due a goal frames c) a (read a goal frames c.depth) (unary (within n)) c := by
  unfold unary
  refine follows_ahead ?_
  split_ifs with sign
  · have more := ne_eof_of_startsOperand (show c.ahead.kind.startsOperand = true by
      simp [Kind.startsOperand, sign])
    rw [due, outcome_more (feed_sign sign)]
    refine follows_next ?_
    have inner : Follows _ a _ (nested (within n).unary) c.advance :=
      follows_inner a goal (.sign c.ahead.lexeme c.ahead.pos c.depth :: frames)
        (Cursor.depth_advance c) fun room =>
          h.unary a goal _ _ ⟨(fits.advance more).left_lt, room⟩
    refine inner.bind fun operand c₁ _ before => follows_pure ?_
    rw [before]
    exact outcome_congr rfl
  · exact follows_primary h fits (by simpa using sign)

/-- Where a chain ends, the level is nothing to the outcome. -/
theorem read_depth (ended : rightFloor? c.ahead.kind (floorOf frames) = none) (depth depth' : Nat)
    (operand : Expr × Position) :
    read a goal frames depth operand c = read a goal frames depth' operand c :=
  outcome_congr (settle_depth ended depth depth' operand.1 operand.2)

theorem follows_links (h : (within n).Follow n) (fits : Fits (n + 1) c) (depth : Nat) (left : Expr)
    (start : Position) :
    Follows (read a goal frames c.depth (left, start) c) a (read a goal frames depth)
      (links (within n) (floorOf frames) left start) c := by
  intro out c' run
  rw [links_apply] at run
  split at run
  · next none =>
    cases run
    exact read_depth none c.depth depth _
  · next tighter operator =>
    have more := ne_eof_of_rightFloor? operator
    have linked := settle_of_rightFloor? operator c.depth left start
    split at run
    · next room =>
      let link := Frame.link c.ahead.lexeme tighter left start (c.depth + 1)
      let c₁ := (c.atLevel (c.depth + 1)).advance
      have level₁ : c₁.depth = c.depth + 1 := Cursor.depth_advance _
      have fits₁ : Fits n c₁ := (fits.deeper room).advance more
      have added : Reading.feed ⟨frames, c.depth, .operator left start⟩ c.ahead =
          .more ⟨link :: frames, c.depth + 1, .operand⟩ := linked.trans (if_pos room)
      have entered : read a goal frames c.depth (left, start) c = due a goal (link :: frames) c₁ := by
        have step : read a goal frames c.depth (left, start) (c.atLevel (c.depth + 1)) =
            outcome (a.into (.expr goal ⟨link :: frames, c.depth + 1, .operand⟩)) c₁ :=
          outcome_more added
        rw [due, level₁]
        exact step
      have turn : Follows (due a goal (link :: frames) c₁) a (read a goal frames depth)
          ((within n).binary tighter >>= fun right => (within n).links (floorOf frames)
            (.binary c.ahead.lexeme left right.1 start) start) c₁ := by
        refine (h.binary a goal (link :: frames) c₁ fits₁).bind fun right c₂ inner before => ?_
        have ended : rightFloor? c₂.ahead.kind tighter = none := within_binary_end inner
        obtain ⟨go, level₂⟩ := ((return_within n).binary tighter c₁ fits₁).of_run inner
        -- behind the right side the link is closed, one level further in than its left side
        have closed : read a goal (link :: frames) c₁.depth right c₂ = read a goal frames c₂.depth
            (.binary c.ahead.lexeme left right.1 start, start) c₂ := by
          refine outcome_congr ?_
          change settle c₂.ahead (link :: frames) _ _ _ = settle c₂.ahead frames c₂.depth _ _
          rw [settle, ended, level₂, level₁]
        rw [before, closed]
        exact h.links a goal frames depth _ start c₂ (fits₁.onward go)
      rw [entered]
      exact turn out c' run
    · next full =>
      cases run
      exact ⟨_, rfl, outcome_fault (linked.trans (if_neg full))⟩

theorem follows_binary (frames : List Frame) (h : (within n).Follow n) (fits : Fits (n + 1) c) :
    Follows (due a goal frames c) a (read a goal frames c.depth)
      (binary (within n) (floorOf frames)) c := by
  have chain : Follows (due a goal frames c) a (read a goal frames c.depth)
      (unary (within n) >>= fun r => links (within n) (floorOf frames) r.1 r.2) c := by
    refine (follows_unary h fits).bind fun operand c₁ run before => ?_
    obtain ⟨go, level⟩ := (returns_unary (return_within n) fits).of_run run
    rw [before, ← level]
    exact follows_links h (fits.onward go) c₁.depth operand.1 operand.2
  intro out c' run
  rw [binary_apply, Option.map_eq_some_iff] at run
  obtain ⟨⟨out, c₁⟩, run, same⟩ := run
  cases same
  have followed := chain out c₁ run
  cases out with
  | ok => exact followed
  | error => exact followed

theorem follow_within (n : Nat) : (within n).Follow n := by
  induction n with
  | zero =>
    have none (c : Cursor) (fits : Fits 0 c) : False := Nat.not_lt_zero _ fits.left_lt
    exact ⟨fun _ _ _ c fits => (none c fits).elim, fun _ _ _ c fits => (none c fits).elim,
      fun _ _ _ _ _ _ c fits => (none c fits).elim⟩
  | succ n ih =>
    exact ⟨fun a goal frames c fits => follows_unary ih fits,
      fun a goal frames c fits => follows_binary frames ih fits,
      fun a goal frames depth left start c fits => follows_links ih fits depth left start⟩

/-- What comes of the text behind an expression that was read for the goal. -/
def completed (a : Account) (goal : Goal) (e : Expr) (c : Cursor) : Seen :=
  outcomeBehind ((a.along c).complete c.taken c.ahead goal e) c

/-- A whole expression is followed by what its goal asks for. -/
theorem follows_expression (fits : Fits (n + 1) c) (level : a.parser.blocks.length = c.depth) :
    Follows (outcome (a.expect goal) c) a (completed a goal) (expression (within n)) c := by
  have asked : outcome (a.expect goal) c = due a goal [] c := by
    unfold Account.expect Parser.expect Reading.start
    rw [level]
    rfl
  unfold expression
  rw [asked]
  refine (follows_binary [] (follow_within n) fits).bind fun r c₁ run before => ?_
  refine follows_pure (before.trans (outcome_done ?_))
  have ended : rightFloor? c₁.ahead.kind loosest = none := binary_end run
  change settle c₁.ahead [] _ _ _ = _
  rw [settle, ended]

end Expressions

end Descent

end ImpSyntax
