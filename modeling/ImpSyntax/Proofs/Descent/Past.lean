import ImpSyntax.Parser.Descent

/-!
# What lies behind a cursor

A rule looks at the token ahead, at the items behind it and at the nesting. How many tokens were
taken before, what was reported, and where statements began or failed makes no difference to it: with
another past behind the cursor a rule comes to the same, and the cursor that it leaves is the same but
for that past. So a statement is read as if it was the first one, whatever stands in front of it.

Main results:

* `Descent.Carries.bind` — what is carried from rule to rule is carried by all of them in a row.
* `Descent.carries_within`, `Descent.carries_statement` — the rules carry a past along.
* `Descent.pass_after`, `Descent.statements_after` — so does the loop over statements.
* `Descent.pass_eq_first` — a pass of the loop is one at the first token of a text.
-/

namespace ImpSyntax.Descent

open Precedence

variable {α β : Type}

/-! ## The past of a cursor -/

/-- What lies behind a cursor and no rule looks at. -/
structure Past where
  taken : Nat
  errors : Nat
  reports : List Report
  starts : List Nat
  incidents : List Incident
  levels : List Nat

namespace Cursor

/-- The cursor with the past behind its own. -/
def after (c : Cursor) (past : Past) : Cursor :=
  { c with
    taken := past.taken + c.taken
    errors := past.errors + c.errors
    reports := c.reports ++ past.reports
    starts := c.starts.map (past.taken + ·) ++ past.starts
    incidents := c.incidents.map (.renumber (past.taken + ·)) ++ past.incidents
    levels := c.levels ++ past.levels }

/-- The past of the cursor. -/
def past (c : Cursor) : Past := ⟨c.taken, c.errors, c.reports, c.starts, c.incidents, c.levels⟩

/-- The cursor in front of the first token of all, `ahead`, at the level `depth`. -/
def first (depth : Nat) (ahead : Token) (items : List Item) : Cursor :=
  { ahead, items, depth, taken := 0, errors := 0, pending := false, reports := [], starts := [],
    incidents := [], levels := [] }

section After

variable (c : Cursor) (past : Past)

@[simp] theorem ahead_after : (c.after past).ahead = c.ahead := rfl

@[simp] theorem depth_after : (c.after past).depth = c.depth := rfl

@[simp] theorem taken_after : (c.after past).taken = past.taken + c.taken := rfl

/-- The past that is left behind is put back. -/
theorem begin_first_after : ((first c.depth c.ahead c.items).after c.past).begin = c.begin := by
  simp [first, after, Cursor.past, begin]

theorem pull_after (items : List Item) : (c.after past).pull items = (c.pull items).after past := by
  induction items generalizing c with
  | nil => rfl
  | cons item items ih =>
    cases item with
    | token t => rfl
    | fault fault pos => exact ih (c.meet fault pos)

@[simp] theorem advance_after : (c.after past).advance = c.advance.after past := by
  by_cases end_ : c.ahead.kind = .eof
  · have end' : (c.after past).ahead.kind = .eof := end_
    rw [advance, advance, if_pos end_, if_pos end']
  · have more : (c.after past).ahead.kind ≠ .eof := end_
    rw [advance, advance, if_neg end_, if_neg more]
    exact pull_after { c with taken := c.taken + 1 } past c.items

theorem atLevel_after (depth : Nat) :
    (c.after past).atLevel depth = (c.atLevel depth).after past := rfl

theorem lower_after : (c.after past).lower = c.lower.map fun d => d.after past := by
  unfold lower
  rw [depth_after]
  split <;> rfl

@[simp] theorem begin_after : (c.after past).begin = c.begin.after past := by
  simp [begin, after]

theorem report_after (r : Report) : (c.after past).report r = (c.report r).after past := by
  change (if c.pending then c.after past else (c.emit r).after past) = (c.report r).after past
  unfold report
  split <;> rfl

theorem incident_after (first : Nat) (r : Report) :
    (c.after past).incident (past.taken + first) r =
      (c.incident first r).renumber (past.taken + ·) := by
  unfold incident
  cases r.fault <;> rfl

theorem fails_after (first : Nat) (r : Report) :
    (c.after past).fails (past.taken + first) r = (c.fails first r).after past := by
  unfold fails
  rw [report_after, incident_after]
  rfl

end After

end Cursor

/-! ## Rules that carry a past along -/

/-- With the past behind the cursor `rule'` comes to what `rule` comes to without it, and leaves the
past behind. -/
def Carries (past : Past) (rule rule' : Rule α) : Prop :=
  ∀ c : Cursor, rule' (c.after past) = (rule c).map fun r => (r.1, r.2.after past)

section Carries

variable {past : Past}

theorem Carries.bind {x x' : Rule α} {f f' : α → Rule β} (hx : Carries past x x')
    (hf : ∀ a, Carries past (f a) (f' a)) : Carries past (x >>= f) (x' >>= f') := by
  intro c
  rw [bind_apply, bind_apply, hx c]
  rcases x c with _ | ⟨_ | a, c₁⟩
  · rfl
  · rfl
  · exact hf a c₁

theorem carries_pure (a : α) : Carries past (pure a : Rule α) (pure a) := fun _ => rfl

theorem carries_ahead {f f' : Token → Rule β} (h : ∀ t, Carries past (f t) (f' t)) :
    Carries past (ahead >>= f) (ahead >>= f') := fun c => h c.ahead c

/-- What a rule does with the cursor as a whole has to be the same with the past behind it. -/
theorem carries_get {f f' : Cursor → Rule β} (h : ∀ d, Carries past (f d) (f' (d.after past))) :
    Carries past (get >>= f) (get >>= f') := fun c => h c c

theorem carries_ite {p : Prop} [Decidable p] {a a' b b' : Rule α} (yes : p → Carries past a a')
    (no : ¬ p → Carries past b b') :
    Carries past (if p then a else b) (if p then a' else b') := by
  by_cases holds : p
  · rw [if_pos holds, if_pos holds]
    exact yes holds
  · rw [if_neg holds, if_neg holds]
    exact no holds

theorem carries_next : Carries past next next := by
  intro c
  rw [next_apply, next_apply, Cursor.advance_after]
  rfl

theorem carries_fail (fault : SyntaxFault) :
    Carries past (fail fault : Rule α) (fail fault) := fun _ => rfl

theorem carries_expect (kind : Kind) (expected : Expectation) :
    Carries past (expect kind expected) (expect kind expected) :=
  carries_ahead fun _ => carries_ite (fun _ => carries_next) fun _ => carries_fail _

theorem carries_deepen : Carries past deepen deepen := by
  intro c
  rw [deepen_apply, deepen_apply, Cursor.depth_after]
  split <;> rfl

theorem Carries.behind {rule rule' : Rule α} (h : Carries past rule rule')
    {act act' : Cursor → Option Cursor}
    (acts : ∀ c : Cursor, act' (c.after past) = (act c).map fun d => d.after past) :
    Carries past (behind rule act) (behind rule' act') := by
  intro c
  rw [behind_apply, behind_apply, h c]
  rcases rule c with _ | ⟨out, c₁⟩
  · rfl
  · simp [acts]
    rfl

theorem Carries.nested {rule rule' : Rule α} (h : Carries past rule rule') :
    Carries past (nested rule) (nested rule') :=
  carries_deepen.bind fun _ => h.behind fun c => c.lower_after past

theorem Carries.levelled {rule rule' : Rule α} (h : Carries past rule rule') :
    Carries past (levelled rule) (levelled rule') := by
  intro c
  exact h.behind (fun d => congrArg some (d.atLevel_after past c.depth)) c

/-- What cannot fail carries the past along as a rule, if it does so by itself. -/
theorem carries_lift {x x' : StateT Cursor Option α}
    (h : ∀ c : Cursor, x' (c.after past) = (x c).map fun r => (r.1, r.2.after past)) :
    Carries past (ExceptT.lift x) (ExceptT.lift x') := by
  intro c
  rw [lift_apply, lift_apply, h c, Option.map_map, Option.map_map]
  rfl

end Carries

/-! ## Expressions -/

/-- The calls carry the past along. -/
structure Calls.Carry (past : Past) (calls : Calls) : Prop where
  unary : Carries past calls.unary calls.unary
  binary : ∀ floor, Carries past (calls.binary floor) (calls.binary floor)
  links : ∀ floor left start,
    Carries past (calls.links floor left start) (calls.links floor left start)

section Expressions

variable {past : Past} {calls : Calls}

theorem carries_primary (h : calls.Carry past) : Carries past (primary calls) (primary calls) := by
  unfold primary
  refine carries_ahead fun t => carries_ite (fun _ => ?_) fun _ => ?_
  · refine carries_next.bind fun opening => ?_
    refine (h.binary Reading.loosest).nested.bind fun inner => ?_
    exact (carries_expect _ _).bind fun _ => carries_pure _
  · refine carries_ite (fun _ => carries_next.bind fun name => carries_pure _) fun _ => ?_
    cases Reading.literalKind? t.kind with
    | some kind => exact carries_next.bind fun literal => carries_pure _
    | none => exact carries_fail _

theorem carries_unary (h : calls.Carry past) : Carries past (unary calls) (unary calls) := by
  unfold unary
  refine carries_ahead fun t => carries_ite (fun _ => ?_) fun _ => carries_primary h
  refine carries_next.bind fun sign => ?_
  exact h.unary.nested.bind fun operand => carries_pure _

theorem carries_links (h : calls.Carry past) (floor : Nat) (left : Expr) (start : Position) :
    Carries past (links calls floor left start) (links calls floor left start) := by
  unfold links
  refine carries_ahead fun t => ?_
  cases Reading.rightFloor? t.kind floor with
  | none => exact carries_pure _
  | some tighter =>
    refine carries_deepen.bind fun _ => carries_next.bind fun operator => ?_
    exact (h.binary tighter).bind fun right => h.links _ _ _

theorem carries_binary (h : calls.Carry past) (floor : Nat) :
    Carries past (binary calls floor) (binary calls floor) :=
  ((carries_unary h).bind fun _ => carries_links h floor _ _).levelled

theorem carries_expression (h : calls.Carry past) :
    Carries past (expression calls) (expression calls) :=
  (carries_binary h _).bind fun _ => carries_pure _

/-- The rules of expressions carry every past along, with any number of calls. -/
theorem carries_within (past : Past) (n : Nat) : (within n).Carry past := by
  induction n with
  | zero => exact ⟨fun _ => rfl, fun _ _ => rfl, fun _ _ _ _ => rfl⟩
  | succ n ih => exact ⟨carries_unary ih, carries_binary ih, carries_links ih⟩

end Expressions

/-! ## Statements -/

section Statements

variable {past : Past} {expression : Rule Expr} {body : Rule (List Stmt)}

theorem carries_semicolon (s : Stmt) :
    Carries past (do let _ ← expect (.mark .semicolon) .semicolon; return s)
      (do let _ ← expect (.mark .semicolon) .semicolon; return s) :=
  (carries_expect _ _).bind fun _ => carries_pure s

theorem carries_declaredName : Carries past declaredName declaredName := by
  refine (carries_expect _ _).bind fun first => carries_ahead fun t => ?_
  refine carries_ite (fun _ => ?_) fun _ => carries_pure _
  exact carries_next.bind fun name => carries_pure _

theorem carries_initialValue (value : Carries past expression expression) (binding : Binding)
    (type : Option TypeName) :
    Carries past (initialValue expression binding type) (initialValue expression binding type) := by
  unfold initialValue
  refine carries_ahead fun t => carries_ite (fun _ => ?_) fun _ => ?_
  · exact carries_next.bind fun _ => value.bind fun e => carries_pure _
  · exact carries_ite (fun _ => carries_pure _) fun _ => carries_fail _

theorem carries_declaration (value : Carries past expression expression) (binding : Binding) :
    Carries past (declaration expression binding) (declaration expression binding) := by
  refine carries_next.bind fun word => carries_declaredName.bind fun name => ?_
  exact (carries_initialValue value binding _).bind fun init => carries_semicolon _

theorem carries_block (inside : Carries past body body) :
    Carries past (block body) (block body) := by
  refine (carries_expect _ _).bind fun _ => inside.nested.bind fun statements => ?_
  exact (carries_expect _ _).bind fun _ => carries_pure _

theorem carries_ifStatement (value : Carries past expression expression)
    (inside : Carries past body body) :
    Carries past (ifStatement expression body) (ifStatement expression body) := by
  refine carries_next.bind fun word => value.bind fun condition => ?_
  refine (carries_block inside).bind fun thenBody => carries_ahead fun t => ?_
  refine carries_ite (fun _ => ?_) fun _ => carries_pure _
  exact carries_next.bind fun _ => (carries_block inside).bind fun elseBody => carries_pure _

theorem carries_whileStatement (value : Carries past expression expression)
    (inside : Carries past body body) :
    Carries past (whileStatement expression body) (whileStatement expression body) := by
  refine carries_next.bind fun word => value.bind fun condition => ?_
  exact (carries_block inside).bind fun statements => carries_pure _

/-- The tokens of an expression are counted from where it begins. -/
theorem carries_expressionStatement (value : Carries past expression expression) :
    Carries past (expressionStatement expression) (expressionStatement expression) := by
  refine carries_get fun c => value.bind fun e => carries_ahead fun t => ?_
  refine carries_ite (fun _ => carries_get fun d => ?_) fun _ => carries_semicolon _
  have same : (d.after past).taken - (c.after past).taken = d.taken - c.taken :=
    Nat.add_sub_add_left past.taken d.taken c.taken
  rw [same, Cursor.ahead_after]
  cases target? c.ahead (d.taken - c.taken) e with
  | none => exact carries_fail _
  | some target =>
    exact carries_next.bind fun _ => value.bind fun e => carries_semicolon _

theorem carries_statement (value : Carries past expression expression)
    (inside : Carries past body body) :
    Carries past (statement expression body) (statement expression body) := by
  refine carries_ahead fun t => ?_
  unfold statementOf
  split
  · exact carries_next.bind fun word => value.bind fun e => carries_semicolon _
  · exact carries_declaration value _
  · exact carries_declaration value _
  · exact carries_ifStatement value inside
  · exact carries_whileStatement value inside
  · exact carries_next.bind fun word => carries_semicolon _
  · exact carries_next.bind fun word => carries_semicolon _
  · exact carries_expressionStatement value

end Statements

/-! ## Several statements -/

section Loop

variable {expression : Rule Expr} {body : Rule (List Stmt)}

theorem synchronize_after (closing : Kind) (c : Cursor) (past : Past) :
    synchronize closing (c.after past) = (synchronize closing c).after past := by
  fun_induction synchronize closing c with
  | case1 c semicolon =>
    rw [synchronize, Cursor.ahead_after, if_pos semicolon, Cursor.advance_after]
  | case2 c other stops =>
    rw [synchronize, Cursor.ahead_after, if_neg other, if_pos stops]
  | case3 c other goesOn ih =>
    rw [synchronize, Cursor.ahead_after, if_neg other, if_neg goesOn, Cursor.advance_after, ih]

theorem resume_after (closing : Kind) (before : Nat) (c : Cursor) (past : Past) :
    resume closing (past.taken + before) (c.after past) = (resume closing before c).after past := by
  have same : past.taken + c.taken = past.taken + before ↔ c.taken = before := by omega
  unfold resume
  rw [Cursor.taken_after, ← synchronize_after]
  simp only [same]
  split
  · rw [Cursor.advance_after]
  · rfl

theorem pass_after (value : ∀ past, Carries past expression expression)
    (inside : ∀ past, Carries past body body) (closing : Kind) (c : Cursor) (past : Past) :
    pass expression body closing (c.after past) =
      (pass expression body closing c).map fun r => (r.1, r.2.after past) := by
  have stmt := carries_statement (value past) (inside past) c.begin
  unfold pass
  rw [Cursor.begin_after, stmt]
  rcases statement expression body c.begin with _ | ⟨_ | s, c₁⟩
  · rfl
  · simp [Cursor.fails_after, resume_after]
  · rfl

theorem statements_after (value : ∀ past, Carries past expression expression) (n : Nat)
    (closing : Kind) (read : List Stmt) (c : Cursor) (past : Past) :
    statements expression n closing read (c.after past) =
      (statements expression n closing read c).map fun r => (r.1, r.2.after past) := by
  induction n generalizing closing read c past with
  | zero => rfl
  | succ n ih =>
    have inside : ∀ past, Carries past
        (ExceptT.lift (statements expression n (.mark .closeBrace) []))
        (ExceptT.lift (statements expression n (.mark .closeBrace) [])) :=
      fun past => carries_lift fun c => ih _ [] c past
    rw [statements]
    dsimp only
    rw [Cursor.ahead_after]
    split
    · rfl
    · rw [pass_after value inside]
      rcases pass expression _ closing c with _ | ⟨s, c₁⟩
      · rfl
      · exact ih closing _ c₁ past

/-- A pass of the loop is one at the first token of a text, with the past of the cursor behind it. -/
theorem pass_eq_first (value : ∀ past, Carries past expression expression)
    (inside : ∀ past, Carries past body body) (closing : Kind) (c : Cursor) :
    pass expression body closing c =
      (pass expression body closing (.first c.depth c.ahead c.items)).map fun r =>
        (r.1, r.2.after c.past) := by
  have begun : pass expression body closing c =
      pass expression body closing ((Cursor.first c.depth c.ahead c.items).after c.past) := by
    unfold pass
    rw [Cursor.begin_first_after]
    rfl
  rw [begun]
  exact pass_after value inside closing _ _

end Loop

end ImpSyntax.Descent
