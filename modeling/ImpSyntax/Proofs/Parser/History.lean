import Mathlib.Tactic.ByContra
import ImpSyntax.Proofs.Parser.Acts

/-!
# The history of a text

Beside the parser an account is kept of what it has come across: where statements began, which of
them are being read, and what went wrong, in order. A statement that fails is put down with the
place of its first token, the place of the token at which it fails, and whether its fault was
reported. Places are counted in items from the beginning of the text.

A lexical fault silences the statements that fail behind it until the next statement begins. So the
account can tell from the places alone which failures were reported.

Main results:

* `Account.sound_of` — what the account of a text says of every failure in it.
* `Account.parser_of` — the account follows the parser.
-/

namespace ImpSyntax

/-! ## Which failures are reported -/

/-- At the place the scanner found something at fault. -/
def FaultAt (items : List Item) (k : Nat) : Prop :=
  ∃ reason pos, items[k]? = some (.fault reason pos)

/-- The failure is one of a statement that began at one of the given places, and it was reported
exactly if every lexical fault behind the beginning of the statement has the beginning of another
behind it that still lies in front of the failure. -/
def Failure.JudgedBy (items : List Item) (starts : List Nat) (f : Failure) : Prop :=
  f.first ∈ starts ∧ f.first ≤ f.place ∧ items[f.place]? = some (.token f.token) ∧
    (f.heard = true ↔ ∀ k, f.first < k → k < f.place → FaultAt items k →
      ∃ j ∈ starts, k < j ∧ j < f.place)

/-- A statement that begins no sooner than the failure makes no difference to it. -/
theorem Failure.JudgedBy.cons {items : List Item} {starts : List Nat} {f : Failure} {n : Nat}
    (h : f.JudgedBy items starts) (le : f.place ≤ n) : f.JudgedBy items (n :: starts) := by
  obtain ⟨begun, order, token, heard⟩ := h
  refine ⟨List.mem_cons_of_mem n begun, order, token, heard.trans ?_⟩
  refine forall_congr' fun k => forall_congr' fun _ => ?_
  refine forall_congr' fun _ => forall_congr' fun _ => ?_
  constructor
  · rintro ⟨j, hj, inside⟩
    exact ⟨j, List.mem_cons_of_mem n hj, inside⟩
  · rintro ⟨j, hj, gt, lt⟩
    rcases List.mem_cons.mp hj with rfl | hj
    · exact absurd le (Nat.not_le_of_lt lt)
    · exact ⟨j, hj, gt, lt⟩

/-! ## Keeping the account -/

/-- The parser, with the places where the statements began that are being read, the innermost first,
the places where any statement began, and the incidents, all with the last one first. -/
structure Account where
  parser : Parser
  opened : List Nat
  starts : List Nat
  incidents : List Incident
deriving DecidableEq, Repr

namespace Account

/-- The account in front of a text. -/
def start : Account := ⟨.start, [], [], []⟩

/-- The failure of the innermost statement at the token `t` at place `n`. -/
def failure (n : Nat) (t : Token) (a : Account) (fault : SyntaxFault) : Failure :=
  ⟨a.opened.headD n, n, t, fault, !a.parser.pending⟩

/-- The incidents with that failure behind them. -/
def fails (n : Nat) (t : Token) (a : Account) (fault : SyntaxFault) : List Incident :=
  .failure (a.failure n t fault) :: a.incidents

/-- The account behind an act of the token `t` at place `n`. -/
def perform (n : Nat) (t : Token) (a : Account) (act : Act) : Account :=
  let parser := a.parser.perform t act
  match act with
  | .begin _ => ⟨parser, n :: a.opened, n :: a.starts, a.incidents⟩
  | .reject fault =>
    ⟨parser, a.opened, n :: a.starts, .failure ⟨n, n, t, fault, true⟩ :: a.incidents⟩
  | .complete _ => ⟨parser, a.opened.tail, a.starts, a.incidents⟩
  | .fail fault => ⟨parser, a.opened.tail, a.starts, a.fails n t fault⟩
  | .lack => ⟨parser, a.opened.tail, a.starts, a.fails n t .lacksEnd⟩
  | .go _ | .enter _ | .leave _ => { a with parser }

/-- The account behind an item at place `n`. -/
def feed (a : Account) : Item × Nat → Account
  | (.token t, n) => (a.parser.acts t).foldl (perform n t) a
  | (.fault reason pos, _) =>
    { a with
      parser := a.parser.feed (.fault reason pos)
      incidents := .lexical reason pos :: a.incidents }

/-- The account of the items. -/
def of (items : List Item) : Account := items.zipIdx.foldl feed start

end Account

/-- The places of the first tokens of all statements that were begun. -/
def starts (source : String) : List Nat := (Account.of (tokenize source)).starts.reverse

/-- All that went wrong, in order. -/
def incidents (source : String) : List Incident := (Account.of (tokenize source)).incidents.reverse

namespace Account

variable {items : List Item} {n : Nat} {t : Token} {a : Account}

/-! ## What the account says -/

/-- The account is right about the items in front of place `n`. -/
structure Sound (items : List Item) (n : Nat) (a : Account) : Prop where
  opened_length : a.opened.length = a.parser.beingRead
  opened_starts : ∀ j ∈ a.opened, j ∈ a.starts
  starts_lt : ∀ j ∈ a.starts, j < n
  starts_clean : ∀ j ∈ a.starts, ¬ FaultAt items j
  pending_iff : a.parser.pending = true ↔ ∃ k < n, FaultAt items k ∧ ∀ j ∈ a.starts, j < k
  reports_eq : a.parser.reports = a.incidents.filterMap Incident.report?
  judged : ∀ f, .failure f ∈ a.incidents → f.place ≤ n ∧ f.JudgedBy items a.starts

theorem parser_perform (act : Act) : (a.perform n t act).parser = a.parser.perform t act := by
  cases act <;> rfl

/-- No statement begins where the scanner found something at fault. -/
theorem not_faultAt_of_token (token : items[n]? = some (.token t)) : ¬ FaultAt items n := by
  rintro ⟨reason, pos, fault⟩
  rw [token] at fault
  cases fault

/-- The fault that is silenced, if one is, lies behind all beginnings of statements. -/
theorem Sound.judgedBy_failure (h : a.Sound items n) (token : items[n]? = some (.token t))
    (busy : a.opened ≠ []) (fault : SyntaxFault) :
    (a.failure n t fault).JudgedBy items a.starts := by
  obtain ⟨first, outer, opened⟩ := List.exists_cons_of_ne_nil busy
  have begun : first ∈ a.starts := h.opened_starts first (by rw [opened]; exact List.mem_cons_self)
  have is : a.failure n t fault = ⟨first, n, t, fault, !a.parser.pending⟩ := by
    rw [failure, opened]
    rfl
  rw [is]
  refine ⟨begun, Nat.le_of_lt (h.starts_lt first begun), token, ?_⟩
  rw [Bool.not_eq_true', ← Bool.not_eq_true, h.pending_iff]
  constructor
  · intro quiet k _ before bad
    by_contra none
    refine quiet ⟨k, before, bad, fun j hj => ?_⟩
    rcases Nat.lt_trichotomy j k with lt | rfl | gt
    · exact lt
    · exact absurd bad (h.starts_clean j hj)
    · exact absurd ⟨j, hj, gt, h.starts_lt j hj⟩ none
  · rintro covered ⟨k, before, bad, behind⟩
    obtain ⟨j, hj, gt, -⟩ := covered k (behind first begun) before bad
    exact absurd (behind j hj) (Nat.lt_asymm gt)

theorem Sound.reports_fails (h : a.Sound items n) (fault : SyntaxFault) :
    a.parser.withFault fault t = (a.fails n t fault).filterMap Incident.report? := by
  rw [Parser.withFault, fails, List.filterMap_cons, Incident.report?, failure, h.reports_eq]
  cases a.parser.pending <;> rfl

theorem Sound.judged_fails (h : a.Sound items n) (token : items[n]? = some (.token t))
    (busy : a.opened ≠ []) (fault : SyntaxFault) :
    ∀ f, .failure f ∈ a.fails n t fault → f.place ≤ n ∧ f.JudgedBy items a.starts := by
  intro f hf
  rcases List.mem_cons.mp hf with same | hf
  · cases same
    exact ⟨Nat.le_refl n, h.judgedBy_failure token busy fault⟩
  · exact h.judged f hf

/-! ## One act -/

theorem opened_length_perform (length : a.opened.length = a.parser.beingRead) {act : Act}
    (allowed : a.parser.Allows act) :
    (a.perform n t act).opened.length = (a.perform n t act).parser.beingRead := by
  have change := Parser.beingRead_perform (t := t) allowed
  rw [parser_perform]
  cases act <;>
    simp only [perform, Act.begun, Act.ended, List.length_cons, List.length_tail] at change ⊢ <;>
    omega

/-- Where a statement fails, one is being read. -/
theorem opened_ne_nil (length : a.opened.length = a.parser.beingRead) {act : Act}
    (allowed : a.parser.Allows act) (ends : act.begun < act.ended) : a.opened ≠ [] := by
  have change := Parser.beingRead_perform (t := default) allowed
  apply List.ne_nil_of_length_pos
  omega

/-- An act that begins no statement keeps the account right. -/
theorem Sound.perform (h : a.Sound items n) (token : items[n]? = some (.token t)) {act : Act}
    (goesOn : act.begins = false) (allowed : a.parser.Allows act) :
    (a.perform n t act).Sound items n := by
  have opened_length := opened_length_perform (n := n) (t := t) h.opened_length allowed
  have opened_starts : ∀ j ∈ a.opened.tail, j ∈ a.starts :=
    fun j hj => h.opened_starts j (List.mem_of_mem_tail hj)
  cases act with
  | begin | reject => cases goesOn
  | go | enter | leave => exact { h with opened_length }
  | complete s => exact { h with opened_length, opened_starts }
  | fail fault =>
    have busy := opened_ne_nil h.opened_length allowed Nat.zero_lt_one
    exact { h with
      opened_length, opened_starts
      reports_eq := h.reports_fails fault
      judged := h.judged_fails token busy fault }
  | lack =>
    have busy := opened_ne_nil h.opened_length allowed Nat.zero_lt_one
    exact { h with
      opened_length, opened_starts
      reports_eq := h.reports_fails .lacksEnd
      judged := h.judged_fails token busy .lacksEnd }

/-- A token behind which no statement began leaves the account right about one item more. -/
theorem Sound.next (h : a.Sound items n) (token : items[n]? = some (.token t)) :
    a.Sound items (n + 1) := by
  refine { h with starts_lt := ?_, pending_iff := h.pending_iff.trans ?_, judged := ?_ }
  · intro j hj
    exact Nat.lt_succ_of_lt (h.starts_lt j hj)
  · constructor
    · rintro ⟨k, lt, bad, behind⟩
      exact ⟨k, Nat.lt_succ_of_lt lt, bad, behind⟩
    · rintro ⟨k, lt, bad, behind⟩
      have other : k ≠ n := by
        rintro rfl
        exact not_faultAt_of_token token bad
      exact ⟨k, by omega, bad, behind⟩
  · intro f hf
    exact ⟨Nat.le_succ_of_le (h.judged f hf).1, (h.judged f hf).2⟩

/-- The account is right behind a token with which a statement begins. -/
theorem Sound.perform_begins (h : a.Sound items n) (token : items[n]? = some (.token t)) {act : Act}
    (begins : act.begins = true) (allowed : a.parser.Allows act) :
    (a.perform n t act).Sound items (n + 1) := by
  have clean := not_faultAt_of_token token
  have opened_length := opened_length_perform (n := n) (t := t) h.opened_length allowed
  have starts_lt : ∀ j ∈ n :: a.starts, j < n + 1 := by
    intro j hj
    rcases List.mem_cons.mp hj with rfl | hj
    · exact Nat.lt_succ_self j
    · exact Nat.lt_succ_of_lt (h.starts_lt j hj)
  have starts_clean : ∀ j ∈ n :: a.starts, ¬ FaultAt items j := by
    intro j hj
    rcases List.mem_cons.mp hj with rfl | hj
    · exact clean
    · exact h.starts_clean j hj
  -- no item lies behind the token that began the statement
  have pending_iff : false = true ↔ ∃ k < n + 1, FaultAt items k ∧ ∀ j ∈ n :: a.starts, j < k := by
    refine ⟨fun no => Bool.noConfusion no, ?_⟩
    rintro ⟨k, lt, -, behind⟩
    have gt := behind n List.mem_cons_self
    omega
  have judged : ∀ f, .failure f ∈ a.incidents →
      f.place ≤ n + 1 ∧ f.JudgedBy items (n :: a.starts) := by
    intro f hf
    obtain ⟨le, before⟩ := h.judged f hf
    exact ⟨Nat.le_succ_of_le le, before.cons le⟩
  cases act with
  | begin mode =>
    refine ⟨opened_length, ?_, starts_lt, starts_clean, pending_iff, h.reports_eq, judged⟩
    intro j hj
    rcases List.mem_cons.mp hj with rfl | hj
    · exact List.mem_cons_self
    · exact List.mem_cons_of_mem n (h.opened_starts j hj)
  | reject fault =>
    refine ⟨opened_length, ?_, starts_lt, starts_clean, pending_iff, ?_, ?_⟩
    · intro j hj
      exact List.mem_cons_of_mem n (h.opened_starts j hj)
    · exact congrArg (List.cons _) h.reports_eq
    · intro f hf
      rcases List.mem_cons.mp hf with same | hf
      · cases same
        have covered : ∀ k, n < k → k < n → FaultAt items k →
            ∃ j ∈ n :: a.starts, k < j ∧ j < n := fun k gt lt => absurd gt (Nat.lt_asymm lt)
        refine ⟨Nat.le_succ n, List.mem_cons_self, Nat.le_refl n, token, ?_⟩
        exact ⟨fun _ => covered, fun _ => rfl⟩
      · exact judged f hf
  | _ => cases begins

/-! ## One item -/

theorem Sound.performs {acts : List Act} {p q : Parser} (h : a.Sound items n)
    (token : items[n]? = some (.token t)) (same : a.parser = p)
    (performs : Parser.Performs t p acts q) :
    (acts.foldl (Account.perform n t) a).Sound items (n + 1) ∧
      (acts.foldl (Account.perform n t) a).parser = q := by
  induction performs generalizing a with
  | nil => exact ⟨h.next token, same⟩
  | begins begins allowed =>
    subst same
    exact ⟨h.perform_begins token begins allowed, parser_perform _⟩
  | cons goesOn allowed _ ih =>
    subst same
    exact ih (h.perform token goesOn allowed) (parser_perform _)

theorem Sound.feed_fault {reason : LexicalFault} {pos : Position} (h : a.Sound items n)
    (fault : items[n]? = some (.fault reason pos)) :
    (a.feed (.fault reason pos, n)).Sound items (n + 1) := by
  refine ⟨h.opened_length, h.opened_starts, ?_, h.starts_clean, ?_, ?_, ?_⟩
  · intro j hj
    exact Nat.lt_succ_of_lt (h.starts_lt j hj)
  · refine ⟨fun _ => ⟨n, Nat.lt_succ_self n, ⟨reason, pos, fault⟩, h.starts_lt⟩, fun _ => rfl⟩
  · exact congrArg (List.cons _) h.reports_eq
  · intro f hf
    rcases List.mem_cons.mp hf with same | hf
    · cases same
    · exact ⟨Nat.le_succ_of_le (h.judged f hf).1, (h.judged f hf).2⟩

theorem Sound.feed {item : Item} (h : a.Sound items n) (at_ : items[n]? = some item) :
    (a.feed (item, n)).Sound items (n + 1) ∧ (a.feed (item, n)).parser = a.parser.feed item := by
  cases item with
  | token t => exact h.performs at_ rfl (a.parser.performs_feedToken t)
  | fault reason pos => exact ⟨h.feed_fault at_, rfl⟩

/-! ## A whole text -/

theorem sound_start : start.Sound items 0 := by
  refine ⟨rfl, ?_, ?_, ?_, ?_, rfl, ?_⟩ <;> simp [start, Parser.start]

/-- Items in a row keep the account right. -/
theorem Sound.foldl {rest : List Item} (h : a.Sound items n) (behind : items.drop n = rest) :
    ((rest.zipIdx n).foldl Account.feed a).Sound items (n + rest.length) ∧
      ((rest.zipIdx n).foldl Account.feed a).parser = rest.foldl Parser.feed a.parser := by
  induction rest generalizing n a with
  | nil => exact ⟨h, rfl⟩
  | cons item rest ih =>
    have at_ : items[n]? = some item := by
      rw [← List.head?_drop, behind]
      rfl
    have next : items.drop (n + 1) = rest := by
      rw [← List.tail_drop, behind]
      rfl
    obtain ⟨sound, parser⟩ := h.feed at_
    have whole := ih sound next
    rw [parser] at whole
    rw [List.zipIdx_cons, List.foldl_cons, List.foldl_cons, List.length_cons,
      Nat.add_comm rest.length, ← Nat.add_assoc]
    exact whole

theorem sound_of (items : List Item) : (of items).Sound items items.length := by
  have whole := (sound_start.foldl (List.drop_zero (l := items))).1
  rwa [Nat.zero_add] at whole

theorem parser_of (items : List Item) : (of items).parser = items.foldl Parser.feed .start :=
  (sound_start.foldl (List.drop_zero (l := items))).2

end Account

end ImpSyntax
