import ImpSyntax.Diagnostics
import ImpSyntax.Proofs.Lines
import ImpSyntax.Proofs.Lexical.Lines
import ImpSyntax.Proofs.Lexical.Tiling
import ImpSyntax.Proofs.Parser.Acts

/-!
# Listings

Listings have one entry on a line. The entries speak of pieces of the text, of tokens and of faults,
and none of these goes over the end of a line; only comments do, and they are never spoken of. A
syntactic fault speaks of no other text than the token at which it was found.

Main results:

* `oneLine_of_mem_tokenize` — every item of a text is listed on one line.
* `Parser.speakOf_acts` — what a fault at a token speaks of.
* `newline_not_mem_of_mem_reports` — every report is a sentence on one line.
* `splitLines_listings` — the lines of both kinds of listings.
-/

namespace ImpSyntax

/-! ## Tokens and lexical faults -/

theorem Kind.newline_not_mem_name (k : Kind) : '\n' ∉ k.name.toList := by
  cases k with
  | keyword w => cases w <;> decide
  | mark m => cases m <;> decide
  | _ => decide

/-- A fault that is found in a piece of the text is told on one line. -/
theorem LexicalFault.Spans.newline_not_mem_message {fault : LexicalFault} {text rest : List Char}
    (h : fault.Spans text rest) : '\n' ∉ fault.message.toList := by
  cases fault with
  | illegal c =>
    have text : (illegal c).message = "Illegal character " ++ Text.quoted c := rfl
    rw [text, String.toList_append, List.mem_append, not_or]
    exact ⟨by simp, Text.newline_not_mem_quoted c⟩
  | unclosedComment => exact (by simp : '\n' ∉ "Unterminated comment".toList)
  | unclosedChar => exact (by simp : '\n' ∉ "Unterminated character constant".toList)
  | malformedChar quoted =>
    obtain ⟨rfl, -, body, rfl, within⟩ := h
    have quotable : '\n' ∉ body := fun mem => by cases within '\n' mem
    have text : ∀ quoted, (malformedChar quoted).message =
      "Malformed character constant " ++ quoted := fun _ => rfl
    rw [text, String.toList_append, String.toList_ofList, List.mem_append, not_or]
    exact ⟨by simp, by simp [quotable]⟩

/-! ## Items -/

/-- The item has no newline in what it speaks of. -/
def Item.OneLine : Item → Prop
  | token t => '\n' ∉ t.lexeme.toList
  | fault reason _ => '\n' ∉ reason.message.toList

theorem Item.OneLine.newline_not_mem_toString {item : Item} (h : item.OneLine) :
    '\n' ∉ item.toString.toList := by
  cases item with
  | token t =>
    have text : (token t).toString = t.kind.name ++ " '" ++ t.lexeme ++ "' @ " ++ t.pos.toString := rfl
    have lexeme : '\n' ∉ t.lexeme.toList := h
    simp [text, t.kind.newline_not_mem_name, lexeme, t.pos.newline_not_mem_toString]
  | fault reason pos =>
    have text : (fault reason pos).toString =
        "error: " ++ reason.message ++ " @ " ++ pos.toString := rfl
    have message : '\n' ∉ reason.message.toList := h
    simp [text, message, pos.newline_not_mem_toString]

theorem Piece.oneLine_of_mem_item? {c : Char} {cs : List Char} {pos : Position} {item : Item}
    (h : item ∈ ((Piece.first c cs).item? pos).toList) : item.OneLine := by
  have looks := Piece.first_looks c cs
  unfold Piece.item? at h
  unfold Piece.Looks at looks
  split at h <;> rename_i verdict <;> rw [verdict] at looks
  · cases h
  · cases List.mem_singleton.mp h
    simpa [Item.OneLine] using looks.newline_not_mem
  · cases List.mem_singleton.mp h
    exact looks.newline_not_mem_message

theorem Scanner.oneLine_of_mem_items {text : List Char} {pos : Position} {item : Item}
    (h : item ∈ (⟨text, pos, false⟩ : Scanner).items) : item.OneLine := by
  induction text using Piece.induction generalizing pos with
  | nil =>
    rw [items_nil] at h
    rw [List.mem_singleton.mp h]
    exact (by decide : '\n' ∉ "".toList)
  | piece c cs ih =>
    rw [items_first, List.mem_append] at h
    rcases h with h | h
    · exact Piece.oneLine_of_mem_item? h
    · exact ih h

theorem oneLine_of_mem_tokenize {source : String} {item : Item} (h : item ∈ tokenize source) :
    item.OneLine := Scanner.oneLine_of_mem_items h

/-! ## What syntactic faults speak of -/

namespace SyntaxFault

/-- The fault speaks of no other piece of the text than the token. -/
def SpeaksOf (t : Token) : SyntaxFault → Prop
  | missing _ found | unexpectedToken found => found = t.lexeme
  | unexpectedEnd _ | invalidTarget | tooDeep => True

variable {t : Token} {fault : SyntaxFault}

theorem speaksOf_insteadOf (expected : Expectation) : (insteadOf expected t).SpeaksOf t := by
  unfold insteadOf
  split
  · trivial
  · rfl

theorem newline_not_mem_describe (expected : Expectation) :
    '\n' ∉ expected.describe.toList := by
  cases expected <;> decide

theorem SpeaksOf.newline_not_mem_message (h : fault.SpeaksOf t)
    (lexeme : '\n' ∉ t.lexeme.toList) : '\n' ∉ fault.message.toList := by
  cases fault with
  | missing expected found =>
    obtain rfl : found = t.lexeme := h
    have text : (missing expected t.lexeme).message =
        "expected " ++ expected.describe ++ ", got '" ++ t.lexeme ++ "'" := rfl
    simp [text, newline_not_mem_describe, lexeme]
  | unexpectedEnd expected =>
    have text : (unexpectedEnd expected).message =
        "unexpected end of input, expected " ++ expected.describe := rfl
    simp [text, newline_not_mem_describe]
  | unexpectedToken found =>
    obtain rfl : found = t.lexeme := h
    have text : (unexpectedToken t.lexeme).message =
        "syntax error near the symbol '" ++ t.lexeme ++ "'" := rfl
    simp [text, lexeme]
  | invalidTarget => exact (by simp : '\n' ∉ "left-hand side of '=' must be a location".toList)
  | tooDeep =>
    have text : tooDeep.message = "nesting exceeds " ++ Precedence.maxNesting.repr ++ " levels" := rfl
    simp [text, not_mem_toDigits]

end SyntaxFault

namespace Reading

variable {t : Token} {fault : SyntaxFault}

theorem speaksOf_of_operand {frames : List Frame} {depth : Nat}
    (h : operand frames depth t = .error fault) : fault.SpeaksOf t := by
  unfold operand at h
  split at h
  · cases h
  split at h
  · cases h
  split at h
  · cases h
  split at h
  · cases h
  · cases h
    unfold operandFault
    split
    · trivial
    · rfl

theorem speaksOf_of_link {floor depth : Nat} {frames : List Frame} {e : Expr} {start : Position}
    (h : link t floor frames depth e start = .fault fault) : fault.SpeaksOf t := by
  unfold link at h
  split at h
  · cases h
  · cases h
    trivial

theorem speaksOf_of_settle {frames : List Frame} {depth : Nat} {e : Expr} {start : Position}
    (h : settle t frames depth e start = .fault fault) : fault.SpeaksOf t := by
  induction frames generalizing depth e start with
  | nil =>
    unfold settle at h
    split at h
    · exact speaksOf_of_link h
    · cases h
  | cons frame frames ih =>
    cases frame with
    | sign op pos outer => exact ih h
    | link op floor left begun outer =>
      unfold settle at h
      split at h
      · exact speaksOf_of_link h
      · exact ih h
    | group pos outer =>
      unfold settle at h
      split at h
      · exact speaksOf_of_link h
      split at h
      · cases h
      · cases h
        exact SyntaxFault.speaksOf_insteadOf _

theorem speaksOf_of_feed {r : Reading} (h : r.feed t = .fault fault) : fault.SpeaksOf t := by
  have begun : ∀ {frames depth}, taken (operand frames depth t) = .fault fault →
      fault.SpeaksOf t := by
    intro frames depth h
    cases made : operand frames depth t with
    | ok r => rw [made] at h; cases h
    | error other => rw [made] at h; cases h; exact speaksOf_of_operand made
  unfold feed at h
  split at h
  · split at h
    · exact begun h
    · cases h
      trivial
  · exact begun h
  · exact speaksOf_of_settle h

end Reading

/-- The fault with which a statement fails in the act. -/
def Act.fault? : Act → Option SyntaxFault
  | reject fault | fail fault => some fault
  | lack => some .lacksEnd
  | begin _ | go _ | enter _ | leave _ | complete _ => none

namespace Parser

variable {p : Parser} {t : Token}

/-- The faults in the acts speak of no other piece of the text than the token. -/
def SpeakOf (t : Token) (acts : List Act) : Prop :=
  ∀ act ∈ acts, ∀ fault ∈ act.fault?, fault.SpeaksOf t

theorem speakOf_cons {act : Act} {acts : List Act} :
    SpeakOf t (act :: acts) ↔ (∀ fault ∈ act.fault?, fault.SpeaksOf t) ∧ SpeakOf t acts :=
  List.forall_mem_cons

theorem speakOf_singleton {act : Act} (h : ∀ fault ∈ act.fault?, fault.SpeaksOf t) :
    SpeakOf t [act] := List.forall_mem_singleton.mpr h

/-- An act in which nothing fails. -/
theorem speakOf_quiet {act : Act} (h : act.fault? = none) : SpeakOf t [act] :=
  speakOf_singleton fun fault mem => by rw [h] at mem; cases mem

theorem speakOf_betweenActs (p : Parser) (t : Token) : SpeakOf t (p.betweenActs t) := by
  unfold betweenActs
  split
  · intro act mem
    rcases List.mem_append.mp mem with mem | mem
    · obtain ⟨_, -, rfl⟩ := List.mem_map.mp mem
      rintro _ ⟨⟩
      trivial
    · exact speakOf_quiet rfl act mem
  · unfold closeActs
    dsimp only
    split
    · exact speakOf_quiet rfl
    · exact speakOf_cons.mpr ⟨by rintro _ ⟨⟩, speakOf_quiet rfl⟩
    · exact speakOf_cons.mpr ⟨by rintro _ ⟨⟩, speakOf_quiet rfl⟩
  · unfold beginActs
    split
    · exact speakOf_quiet rfl
    · split
      · exact speakOf_quiet rfl
      · next refused =>
        refine speakOf_singleton ?_
        rintro _ ⟨⟩
        exact Reading.speaksOf_of_operand refused

theorem speakOf_failActs {fault : SyntaxFault} (h : fault.SpeaksOf t) :
    SpeakOf t (p.failActs fault t) := by
  refine speakOf_cons.mpr ⟨by rintro _ ⟨⟩; exact h, ?_⟩
  unfold recoverActs
  split
  · exact speakOf_quiet rfl
  split
  · exact speakOf_betweenActs _ t
  · exact speakOf_quiet rfl

theorem speakOf_finishStmtActs {s : Stmt} : SpeakOf t (p.finishStmtActs s t) := by
  unfold finishStmtActs
  split
  · exact speakOf_quiet rfl
  · exact speakOf_failActs (SyntaxFault.speaksOf_insteadOf _)

theorem speakOf_openBlockActs {head : BlockHead} : SpeakOf t (p.openBlockActs head t) := by
  unfold openBlockActs
  split
  · exact speakOf_quiet rfl
  · exact speakOf_failActs (SyntaxFault.speaksOf_insteadOf _)

theorem speakOf_completeActs {goal : Goal} {e : Expr} : SpeakOf t (p.completeActs goal e t) := by
  unfold completeActs
  cases goal with
  | print | assign | init => exact speakOf_finishStmtActs
  | ifCondition | whileCondition => exact speakOf_openBlockActs
  | value fromName pos =>
    dsimp only
    split
    · split
      · exact speakOf_quiet rfl
      · exact speakOf_failActs trivial
    · exact speakOf_finishStmtActs

/-- What fails at a token is told with no other piece of the text than the token. -/
theorem speakOf_acts (p : Parser) (t : Token) : SpeakOf t (p.acts t) := by
  have instead : ∀ expected, SpeakOf t (p.failActs (.insteadOf expected t) t) :=
    fun _ => speakOf_failActs (SyntaxFault.speaksOf_insteadOf _)
  unfold acts
  dsimp only
  split
  · exact speakOf_betweenActs p t
  · unfold recoverActs
    split
    · exact speakOf_quiet rfl
    split
    · exact speakOf_betweenActs p t
    · exact speakOf_quiet rfl
  · split
    · exact speakOf_quiet rfl
    · exact speakOf_completeActs
    · next fails => exact speakOf_failActs (Reading.speaksOf_of_feed fails)
  · exact speakOf_finishStmtActs
  · split
    · exact speakOf_quiet rfl
    · exact instead _
  · split
    · exact speakOf_quiet rfl
    split
    · exact speakOf_quiet rfl
    · exact instead _
  · split
    · exact speakOf_quiet rfl
    split
    · exact speakOf_finishStmtActs
    · exact instead _
  · split
    · exact speakOf_cons.mpr ⟨by rintro _ ⟨⟩, speakOf_betweenActs _ t⟩
    · exact speakOf_failActs trivial
  · split
    · exact speakOf_quiet rfl
    · exact speakOf_cons.mpr ⟨by rintro _ ⟨⟩, speakOf_betweenActs _ t⟩
  · exact speakOf_openBlockActs

/-! ## Reports -/

theorem mem_reports_perform {act : Act} {r : Report} (h : r ∈ (p.perform t act).reports) :
    r ∈ p.reports ∨ ∃ fault ∈ act.fault?, r = ⟨.syntactic fault, t.pos⟩ := by
  have held : ∀ {fault}, r ∈ p.withFault fault t →
      r ∈ p.reports ∨ r = ⟨.syntactic fault, t.pos⟩ := by
    intro fault mem
    unfold withFault at mem
    split at mem
    · exact .inl mem
    · exact (List.mem_cons.mp mem).symm
  cases act with
  | reject fault =>
    rcases List.mem_cons.mp h with rfl | mem
    · exact .inr ⟨fault, rfl, rfl⟩
    · exact .inl mem
  | fail fault => exact (held h).imp_right fun is => ⟨fault, rfl, is⟩
  | lack => exact (held h).imp_right fun is => ⟨.lacksEnd, rfl, is⟩
  | _ => exact .inl h

theorem Performs.mem_reports {acts : List Act} {q : Parser} (h : Performs t p acts q)
    {r : Report} (mem : r ∈ q.reports) :
    r ∈ p.reports ∨ ∃ act ∈ acts, ∃ fault ∈ act.fault?, r = ⟨.syntactic fault, t.pos⟩ := by
  induction h with
  | nil => exact .inl mem
  | begins =>
    exact (mem_reports_perform mem).imp_right fun is => ⟨_, List.mem_cons_self, is⟩
  | cons _ _ _ ih =>
    rcases ih mem with mem | ⟨act, among, is⟩
    · exact (mem_reports_perform mem).imp_right fun is => ⟨_, List.mem_cons_self, is⟩
    · exact .inr ⟨act, List.mem_cons_of_mem _ among, is⟩

end Parser

/-- The report is about the item: about a lexical fault, or about a syntactic one at a token that
speaks of no other piece of the text. -/
def Report.About (r : Report) : Item → Prop
  | .token t => ∃ fault, r = ⟨.syntactic fault, t.pos⟩ ∧ fault.SpeaksOf t
  | .fault reason pos => r = ⟨.lexical reason, pos⟩

theorem Parser.about_of_mem_feed {p : Parser} {item : Item} {r : Report}
    (mem : r ∈ (p.feed item).reports) : r ∈ p.reports ∨ r.About item := by
  cases item with
  | token t =>
    refine ((performs_feedToken p t).mem_reports mem).imp_right ?_
    rintro ⟨act, among, fault, is, rfl⟩
    exact ⟨fault, rfl, speakOf_acts p t act among fault is⟩
  | fault reason pos => exact (List.mem_cons.mp mem).symm

theorem Parser.about_of_mem_foldl {p : Parser} {items : List Item} {r : Report}
    (mem : r ∈ (items.foldl feed p).reports) : r ∈ p.reports ∨ ∃ item ∈ items, r.About item := by
  induction items generalizing p with
  | nil => exact .inl mem
  | cons item items ih =>
    rcases ih mem with mem | ⟨other, among, about⟩
    · exact (about_of_mem_feed mem).imp_right fun about => ⟨item, List.mem_cons_self, about⟩
    · exact .inr ⟨other, List.mem_cons_of_mem item among, about⟩

/-- Every report is about an item of the text. -/
theorem exists_about_of_mem_reports {source : String} {r : Report}
    (mem : r ∈ (parse source).reports) : ∃ item ∈ tokenize source, r.About item := by
  rcases Parser.about_of_mem_foldl (List.mem_reverse.mp mem) with none | found
  · cases none
  · exact found

theorem newline_not_mem_of_mem_reports {source : String} {r : Report}
    (mem : r ∈ (parse source).reports) : '\n' ∉ r.toString.toList := by
  have message : '\n' ∉ r.message.toList := by
    obtain ⟨item, among, about⟩ := exists_about_of_mem_reports mem
    have oneLine := oneLine_of_mem_tokenize among
    cases item with
    | token t =>
      obtain ⟨fault, rfl, speaks⟩ := about
      exact speaks.newline_not_mem_message oneLine
    | fault reason pos =>
      obtain rfl : r = ⟨.lexical reason, pos⟩ := about
      exact oneLine
  have text : r.toString = r.message ++ " at line " ++ r.pos.line.repr ++ ", column " ++
    r.pos.column.repr := rfl
  simp [text, message, not_mem_toDigits]

/-! ## Listings of items and of reports -/

/-- The reports of the texts, one text after the other. -/
def Diagnostics.ofSources (sources : List String) : Diagnostics :=
  sources.foldl (fun d source => (d.parse source).2) .empty

theorem Diagnostics.reports_ofSources (sources : List String) :
    (ofSources sources).reports =
      sources.flatMap fun source => (ImpSyntax.parse source).reports := by
  have added : ∀ d : Diagnostics, (sources.foldl (fun d source => (d.parse source).2) d).reports =
      d.reports ++ sources.flatMap fun source => (ImpSyntax.parse source).reports := by
    induction sources with
    | nil => intro d; simp
    | cons source sources ih =>
      intro d
      rw [List.foldl_cons, ih, List.flatMap_cons, ← List.append_assoc]
      rfl
  exact (added .empty).trans (List.nil_append _)

/-- A listing of a text has one line for each item, with a newline behind it. The reports of any texts
are collected in order, and written down one on a line, with newlines between them. -/
theorem splitLines_listings (source : String) (sources : List String) :
    Text.splitLines (scan source) = (tokenize source).map Item.toString ++ [""] ∧
      (Diagnostics.ofSources sources).reports = sources.flatMap (fun s => (parse s).reports) ∧
      ((Diagnostics.ofSources sources).reports = [] ∧
          (Diagnostics.ofSources sources).toString = "" ∨
        (Diagnostics.ofSources sources).reports ≠ [] ∧
          Text.splitLines (Diagnostics.ofSources sources).toString =
            (Diagnostics.ofSources sources).reports.map Report.toString) := by
  refine ⟨?_, Diagnostics.reports_ofSources sources, ?_⟩
  · have lines : ∀ line ∈ (tokenize source).map Item.toString, '\n' ∉ line.toList :=
      List.forall_mem_map.mpr fun item mem =>
        (oneLine_of_mem_tokenize mem).newline_not_mem_toString
    rw [← Text.splitLines_join lines, List.map_map]
    rfl
  · have sentences : ∀ line ∈ (Diagnostics.ofSources sources).reports.map Report.toString,
        '\n' ∉ line.toList := by
      refine List.forall_mem_map.mpr fun r mem => ?_
      rw [Diagnostics.reports_ofSources] at mem
      obtain ⟨_, -, mem⟩ := List.mem_flatMap.mp mem
      exact newline_not_mem_of_mem_reports mem
    by_cases none : (Diagnostics.ofSources sources).reports = []
    · exact .inl ⟨none, by rw [Diagnostics.toString, none]; rfl⟩
    · exact .inr ⟨none, Text.splitLines_intercalate (by simpa using none) sentences⟩

end ImpSyntax
