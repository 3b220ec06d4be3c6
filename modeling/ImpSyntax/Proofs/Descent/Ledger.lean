import ImpSyntax.Proofs.Descent.Termination

/-!
# What the rules put down

The rules count what they report, and put down where a statement begins and where and why one fails.
The count is the number of the reports, so a program comes out exactly if it is zero. What is put
down is what the account of the text says that the parser keeps: the same beginnings and the same
failures, silenced or not, in the same order. The account counts places in items and the rules count
them in tokens, which makes no difference to the places of tokens.

Main results:

* `Descent.run_counts` — the count at the end, and what it decides.
* `Descent.pass_puts_down` — what a pass of the loop over statements adds to the record.
* `Descent.run_keeps_account` — the record at the end is the account of the text.
-/

namespace ImpSyntax

/-! ## Places of tokens -/

theorem Item.tokensBefore_lt {items : List Item} {j k : Nat} {t : Token}
    (token : items[j]? = some (.token t)) (lt : j < k) :
    tokensBefore items j < tokensBefore items k := by
  have behind : tokensBefore items (j + 1) = tokensBefore items j + 1 := tokensBefore_succ token
  have le : tokensBefore items (j + 1) ≤ tokensBefore items k :=
    ((List.take_prefix_take_left lt).sublist.filterMap token?).length_le
  omega

/-- Tokens at different places have different numbers of tokens in front of them. -/
theorem Item.tokensBefore_inj {items : List Item} {j k : Nat} {t u : Token}
    (ht : items[j]? = some (.token t)) (hu : items[k]? = some (.token u))
    (same : tokensBefore items j = tokensBefore items k) : j = k := by
  rcases Nat.lt_trichotomy j k with lt | eq | gt
  · exact absurd same (Nat.ne_of_lt (tokensBefore_lt ht lt))
  · exact eq
  · exact absurd same (Nat.ne_of_gt (tokensBefore_lt hu gt))

namespace Descent

/-! ## The count of the reports -/

/-- The rules count what they report; a program comes out exactly if they have counted nothing. -/
theorem run_counts {items : List Item} {n : Nat} (enough : Item.countTokens items < n) :
    ∃ parsed c, run n items = some (parsed, c) ∧ c.errors = parsed.reports.length ∧
      parsed.program? = if 0 < c.errors then none else some parsed.program := by
  obtain ⟨body, c, found, -, go, -⟩ := run_returns enough
  have nothing : (Cursor.blank .start).Counted := rfl
  have counted : c.errors = c.reports.length := go.counted (nothing.pull items)
  refine ⟨_, c, found, ?_, ?_⟩
  · rw [List.length_reverse]
    exact counted
  · rw [counted]
    cases c.reports <;> simp [Parsed.program?]

/-! ## What a pass puts down -/

/-- From the one cursor to the other no statement began, and only lexical faults were met. -/
def Skips (c c' : Cursor) : Prop :=
  c'.starts = c.starts ∧ ∃ met : List (LexicalFault × Position),
    c'.incidents = met.map (fun fault => .lexical fault.1 fault.2) ++ c.incidents

section Skips

variable {c c' c'' : Cursor}

theorem Skips.refl (c : Cursor) : Skips c c := ⟨rfl, [], rfl⟩

theorem Skips.trans (h : Skips c c') (h' : Skips c' c'') : Skips c c'' := by
  obtain ⟨starts, met, incidents⟩ := h
  obtain ⟨starts', met', incidents'⟩ := h'
  refine ⟨starts'.trans starts, met' ++ met, ?_⟩
  rw [incidents', incidents, List.map_append, List.append_assoc]

theorem skips_pull (c : Cursor) (items : List Item) : Skips c (c.pull items) := by
  induction items generalizing c with
  | nil => exact ⟨rfl, [], rfl⟩
  | cons item items ih =>
    cases item with
    | token t => exact ⟨rfl, [], rfl⟩
    | fault fault pos =>
      have met : Skips c (c.meet fault pos) := ⟨rfl, [(fault, pos)], rfl⟩
      exact met.trans (ih _)

theorem skips_advance (c : Cursor) : Skips c c.advance := by
  unfold Cursor.advance
  split
  · exact .refl c
  · exact skips_pull { c with taken := c.taken + 1 } c.items

theorem skips_synchronize (closing : Kind) (c : Cursor) : Skips c (synchronize closing c) := by
  fun_induction synchronize closing c with
  | case1 c semicolon => exact skips_advance c
  | case2 c _ stops => exact .refl c
  | case3 c _ goesOn ih => exact (skips_advance c).trans ih

theorem skips_resume (closing : Kind) (before : Nat) (c : Cursor) :
    Skips c (resume closing before c) := by
  unfold resume
  split
  · exact (skips_advance c).trans (skips_synchronize closing _)
  · exact skips_synchronize closing c

end Skips

/-- A pass puts down where its statement begins. If that fails, the pass puts down the failure behind
all that was put down inside the statement: where it began, the token that was left ahead, the fault,
and whether it is reported. From there to the next pass no statement begins and none fails. -/
theorem pass_puts_down {m n : Nat} (le : n ≤ m) {c : Cursor} (fits : Fits (n + 1) c)
    (more : c.ahead.kind ≠ .eof) (closing : Kind) :
    let value := expression (within m)
    ∃ out c₁ s c', statement value (inner value n) c.begin = some (out, c₁) ∧
      c.begin.starts = c.taken :: c.starts ∧
      pass value (inner value n) closing c = some (s, c') ∧
      match out with
      | .ok stmt => s = some stmt ∧ c' = c₁
      | .error r => s = none ∧ ∃ fault, r = ⟨.syntactic fault, c₁.ahead.pos⟩ ∧
          (c₁.fails c.taken r).incidents =
            .failure ⟨c.taken, c₁.taken, c₁.ahead, fault, !c₁.pending⟩ :: c₁.incidents ∧
          Skips (c₁.fails c.taken r) c' := by
  intro value
  have models := models_within m
  have inside : ReadsBody n (inner value n) := readsBody_statements models (Nat.le_succ_of_le le)
  have models := models.mono (Nat.succ_le_succ le)
  obtain ⟨s, c', run, -⟩ := pass_returns closing models.toReads inside.returns more fits
  have whole := run
  unfold pass at run
  obtain ⟨⟨out, c₁⟩, first, run⟩ := Option.bind_eq_some_iff.mp run
  refine ⟨out, c₁, s, c', first, rfl, whole, ?_⟩
  cases out with
  | ok stmt =>
    cases run
    exact ⟨rfl, rfl⟩
  | error r =>
    cases run
    have fits : Fits (n + 1) c.begin := ⟨fits.left_lt, fits.depth_le⟩
    obtain ⟨fault, rfl⟩ := fault_of_statement models inside fits first
    exact ⟨rfl, fault, rfl, rfl, skips_resume closing c.taken _⟩

/-! ## The record of a text -/

theorem Incident.report?_renumber (number : Nat → Nat) (incident : Incident) :
    (incident.renumber number).report? = incident.report? := by
  cases incident <;> rfl

/-- At the end of a text the record of the rules is the account of the text. The beginnings of
statements and all that went wrong are the same, in the same order, with the places numbered in
another way that keeps those of tokens apart. The reports are those of the failures that are heard
and of the lexical faults. -/
theorem run_keeps_account {source : String} {n : Nat} (enough : (words source).length < n) :
    ∃ parsed c, run n (tokenize source) = some (parsed, c) ∧
      c.starts.reverse = (starts source).map (Item.tokensBefore (tokenize source)) ∧
      c.incidents.reverse =
        (incidents source).map (.renumber (Item.tokensBefore (tokenize source))) ∧
      (∀ j k t u, (tokenize source)[j]? = some (.token t) →
        (tokenize source)[k]? = some (.token u) →
        Item.tokensBefore (tokenize source) j = Item.tokensBefore (tokenize source) k → j = k) ∧
      parsed.reports = c.incidents.reverse.filterMap Incident.report? := by
  rw [← countTokens_tokenize] at enough
  obtain ⟨body, c, found, looped, -, ended⟩ := run_returns enough
  have same := seen_of_run (fun _ => ne_eof_of_mem_frontOf) (tokenize_eq_front_append source) enough
    looped ended
  have reports : (Account.of (tokenize source)).parser.reports = c.reports := congrArg (·.2.1) same
  have begun : (Account.of (tokenize source)).starts.map (Item.tokensBefore (tokenize source)) =
      c.starts := congrArg (·.2.2.1) same
  have wrong : (Account.of (tokenize source)).incidents.map
      (.renumber (Item.tokensBefore (tokenize source))) = c.incidents := congrArg (·.2.2.2) same
  refine ⟨_, c, found, ?_, ?_, fun _ _ _ _ => Item.tokensBefore_inj, ?_⟩
  · rw [← begun, starts, List.map_reverse]
  · rw [← wrong, incidents, List.map_reverse]
  · have kept : Incident.report? ∘ .renumber (Item.tokensBefore (tokenize source)) =
        Incident.report? := funext (Incident.report?_renumber _)
    rw [← wrong, List.filterMap_reverse, List.filterMap_map, kept,
      ← (Account.sound_of (tokenize source)).reports_eq, reports]

end Descent

end ImpSyntax
