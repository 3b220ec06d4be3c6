import Mathlib
import ImpSyntax.Proofs.SourceText.RoundTrip

/-!
# What canonical text leaves out

The canonical text of a program that was parsed has the words of the text that it was parsed from, in
their order, without some pairs of parentheses: a level of the grammar is left out in the tree where it
is passed through without parentheses, so that an operand is put in parentheses only if it stood in
some.

Main results:

* `ShedsParens` — words that are left when pairs of parentheses are taken out.
* `Grammar.Phrase.shedsParens`, `Grammar.Derives.shedsParens` — the words of what is derived.
* `words_source_of_parse` — the words of the text of a program that was parsed.
-/

namespace ImpSyntax

open Precedence Grammar Reading

/-! ## Taking out parentheses -/

/-- Whether the kind is that of a parenthesis. -/
def Kind.isParen (k : Kind) : Bool := k == .mark .openParen || k == .mark .closeParen

@[simp] theorem Kind.isParen_openParen : (mark .openParen).isParen = true := rfl

@[simp] theorem Kind.isParen_closeParen : (mark .closeParen).isParen = true := rfl

/-- `ShedsParens ts us`: the parentheses in `ts` match each other, and `us` is what is left when some
of the matching pairs are taken out. -/
inductive ShedsParens : List Token → List Token → Prop
  | nil : ShedsParens [] []
  | word {t : Token} {ts us : List Token} :
      t.kind.isParen = false → ShedsParens ts us → ShedsParens (t :: ts) (t :: us)
  | kept {o c : Token} {ts us ts' us' : List Token} :
      o.kind = .mark .openParen → ShedsParens ts us → c.kind = .mark .closeParen →
      ShedsParens ts' us' → ShedsParens (o :: (ts ++ c :: ts')) (o :: (us ++ c :: us'))
  | dropped {o c : Token} {ts us ts' us' : List Token} :
      o.kind = .mark .openParen → ShedsParens ts us → c.kind = .mark .closeParen →
      ShedsParens ts' us' → ShedsParens (o :: (ts ++ c :: ts')) (us ++ us')

namespace ShedsParens

variable {t : Token} {ts us ts' us' : List Token}

theorem append (h : ShedsParens ts us) (h' : ShedsParens ts' us') :
    ShedsParens (ts ++ ts') (us ++ us') := by
  induction h with
  | nil => exact h'
  | word other _ ih => exact .word other ih
  | kept ho inner hc _ _ ih => simpa using kept ho inner hc ih
  | dropped ho inner hc _ _ ih => simpa using dropped ho inner hc ih

/-- Nothing is added, and nothing changes its place. -/
theorem sublist (h : ShedsParens ts us) : us.Sublist ts := by
  induction h with
  | nil => exact .slnil
  | word _ _ ih => exact ih.cons_cons _
  | kept _ _ _ _ inner rest => exact (inner.append (rest.cons_cons _)).cons_cons _
  | dropped _ _ _ _ inner rest => exact (inner.append (rest.cons _)).cons _

/-- Nothing else is taken out. -/
theorem filter_eq (h : ShedsParens ts us) :
    us.filter (!·.kind.isParen) = ts.filter (!·.kind.isParen) := by
  induction h with
  | nil => rfl
  | word other _ ih => simp [other, ih]
  | kept ho _ hc _ inner rest => simp [ho, hc, inner, rest]
  | dropped ho _ hc _ inner rest => simp [ho, hc, inner, rest]

/-! ### Words that stay -/

section Stay

variable (rest : ShedsParens ts us)
include rest

theorem name (h : t.kind = .ident) : ShedsParens (t.erase :: ts) (nameWord t.lexeme :: us) := by
  have same : t.erase = nameWord t.lexeme := by rw [Token.erase, Token.relocate, h]; rfl
  rw [same]
  exact .word rfl rest

variable (spelled : t.kind.Spells t.lexeme.toList)
include spelled

theorem keyword {w : Keyword} (h : t.kind = .keyword w) :
    ShedsParens (t.erase :: ts) (w.token :: us) := by
  rw [Token.erase_keyword h spelled]
  exact .word rfl rest

theorem mark {m : Mark} (h : t.kind = .mark m) (other : (Kind.mark m).isParen = false) :
    ShedsParens (t.erase :: ts) (m.token :: us) := by
  rw [Token.erase_mark h spelled]
  exact .word other rest

theorem literal {kind : LiteralKind} (h : literalKind? t.kind = some kind) :
    ShedsParens (t.erase :: ts) (⟨kind.wordKind t.lexeme, t.lexeme, .unknown⟩ :: us) := by
  have other : t.kind.isParen = false := by
    cases kind : t.kind with
    | mark m => rw [kind] at h; cases h
    | _ => rfl
  rw [LiteralKind.wordKind_eq h spelled]
  exact .word other rest

theorem sign (h : t.kind.isSign = true) :
    ShedsParens (t.erase :: ts) (operatorWord t.lexeme :: us) := by
  cases kind : t.kind with
  | mark m =>
    rw [kind] at h
    have other : (Kind.mark m).isParen = false := by cases m <;> first | rfl | cases h
    have stays := rest.mark spelled kind other
    rw [Token.lexeme_mark kind spelled, operatorWord_sign h]
    exact stays
  | _ => rw [kind] at h; cases h

theorem operator {level : Nat} {assoc : Assoc} (h : t.kind.binaryLevel? = some (level, assoc)) :
    ShedsParens (t.erase :: ts) (operatorWord t.lexeme :: us) := by
  obtain ⟨m, kind, found⟩ := Kind.exists_mark_of_binaryLevel? h
  have other : (Kind.mark m).isParen = false := by cases m <;> first | rfl | cases found
  have stays := rest.mark spelled kind other
  rw [Token.lexeme_mark kind spelled, operatorWord_level found]
  exact stays

end Stay

end ShedsParens

/-! ## The words of what is derived -/

/-- No operator has a level below the least one. -/
theorem Expr.enclosedWords_zero (e : Expr) : enclosedWords (e.isLooserThan 0) e.words = e.words := by
  have bare : e.isLooserThan 0 = false := by cases e <;> simp [isLooserThan]
  rw [bare]
  rfl

/-- A level that is passed through asks for no parentheses that are not there. -/
theorem Grammar.Phrase.shedsParens {level links demand : Nat} {ts : List Token} {e : Expr}
    (h : Phrase level ts e links demand) (spelled : ∀ t ∈ ts, t.kind.Spells t.lexeme.toList)
    {bound : Nat} (le : bound ≤ level) :
    ShedsParens (ts.map Token.erase) (Expr.enclosedWords (e.isLooserThan bound) e.words) := by
  induction h generalizing bound with
  | name ht => exact ShedsParens.nil.name ht
  | literal ht => exact ShedsParens.nil.literal (spelled _ List.mem_cons_self) ht
  | @group o c ts e links demand ho _ hc ih =>
    simp only [List.forall_mem_cons, List.forall_mem_append] at spelled
    obtain ⟨spelledO, spelled, spelledC, -⟩ := spelled
    -- Inside the parentheses the words are those of the bare operand.
    have inner := ih spelled (Nat.zero_le _)
    rw [Expr.enclosedWords_zero] at inner
    have words : (o :: (ts ++ [c])).map Token.erase =
        Mark.openParen.token :: (ts.map Token.erase ++ [Mark.closeParen.token]) := by
      simp [Token.erase_mark ho spelledO, Token.erase_mark hc spelledC]
    rw [words]
    cases e.isLooserThan bound with
    | true => exact .kept rfl inner rfl .nil
    | false => simpa [Expr.enclosedWords] using ShedsParens.dropped rfl inner rfl .nil
  | @sign t ts e links demand ht _ ih =>
    simp only [List.forall_mem_cons] at spelled
    have bare : (Expr.unary t.lexeme e t.pos).isLooserThan bound = false := by
      simpa [Expr.isLooserThan] using le
    rw [bare]
    exact (ih spelled.2 (Nat.le_refl _)).sign spelled.1 ht
  | @link level t ls rs l r n d n' d' _ op _ ihl ihr =>
    simp only [List.forall_mem_cons, List.forall_mem_append] at spelled
    obtain ⟨spelledL, spelledT, spelledR⟩ := spelled
    have same : binaryLevel t.lexeme = (level, .left) := binaryLevel_lexeme op spelledT
    have bare : (Expr.binary t.lexeme l r (startOf ls)).isLooserThan bound = false := by
      simpa [Expr.isLooserThan, same] using le
    have left := ihl spelledL (Nat.le_refl _)
    have right := (ihr spelledR (Nat.le_refl _)).operator spelledT op
    rw [bare, List.map_append, List.map_cons]
    show ShedsParens _ (Expr.binary t.lexeme l r (startOf ls)).words
    rw [Expr.words, same]
    exact left.append right
  | tighter _ ih => exact ih spelled (Nat.le_succ_of_le le)

theorem Grammar.Phrase.shedsParens_words {level links demand : Nat} {ts : List Token} {e : Expr}
    (h : Phrase level ts e links demand) (spelled : ∀ t ∈ ts, t.kind.Spells t.lexeme.toList) :
    ShedsParens (ts.map Token.erase) e.words := by
  have bare := h.shedsParens spelled (Nat.zero_le _)
  rw [Expr.enclosedWords_zero] at bare
  exact bare

theorem Grammar.TypePart.shedsParens {tt : List Token} {type : Option TypeName}
    (h : TypePart tt type) : ShedsParens (tt.map Token.erase) (Stmt.typeWords type) := by
  cases h with
  | absent => exact .nil
  | present ht => exact ShedsParens.nil.name ht

theorem Grammar.InitPart.shedsParens {ti : List Token} {init : Option Expr} {demand : Nat}
    (h : InitPart ti init demand) (spelled : ∀ t ∈ ti, t.kind.Spells t.lexeme.toList) :
    ShedsParens (ti.map Token.erase) (Stmt.initWords init) := by
  cases h with
  | absent => exact .nil
  | present heq phrase =>
    rw [List.forall_mem_cons] at spelled
    exact (phrase.shedsParens_words spelled.2).mark spelled.1 heq rfl

/-- The words of the construct. -/
def Grammar.Construct.words : Construct → List Token
  | statement s => s.words
  | statements body => Stmt.wordsList body
  | block body => Stmt.blockWords (Stmt.wordsList body)
  | otherwise body => Stmt.wordsElse body

theorem Grammar.Derives.shedsParens {c : Construct} {ts : List Token} {demand : Nat}
    (h : Derives c ts demand) (spelled : ∀ t ∈ ts, t.kind.Spells t.lexeme.toList) :
    ShedsParens (ts.map Token.erase) c.words := by
  induction h with
  | print ht phrase hs =>
    simp only [List.forall_mem_cons, List.forall_mem_append, List.map_cons, List.map_append] at spelled ⊢
    obtain ⟨spelledT, spelledE, spelledS, -⟩ := spelled
    have semi := ShedsParens.nil.mark spelledS hs rfl
    exact ((phrase.shedsParens_words spelledE).append semi).keyword spelledT ht
  | assign hn heq phrase hs =>
    simp only [List.forall_mem_cons, List.forall_mem_append, List.map_cons, List.map_append] at spelled ⊢
    obtain ⟨-, spelledEq, spelledE, spelledS, -⟩ := spelled
    have semi := ShedsParens.nil.mark spelledS hs rfl
    exact (((phrase.shedsParens_words spelledE).append semi).mark spelledEq heq rfl).name hn
  | declare ht htype hn hinit _ hs =>
    simp only [List.forall_mem_cons, List.forall_mem_append, List.map_cons, List.map_append] at spelled ⊢
    obtain ⟨spelledT, -, -, spelledI, spelledS, -⟩ := spelled
    have semi := ShedsParens.nil.mark spelledS hs rfl
    have named := ((hinit.shedsParens spelledI).append semi).name hn
    exact (htype.shedsParens.append named).keyword spelledT ht
  | jump ht hs =>
    simp only [List.forall_mem_cons, List.map_cons] at spelled ⊢
    obtain ⟨spelledT, spelledS, -⟩ := spelled
    exact (ShedsParens.nil.mark spelledS hs rfl).keyword spelledT ht
  | expr phrase hs =>
    simp only [List.forall_mem_cons, List.forall_mem_append, List.map_cons, List.map_append] at spelled ⊢
    obtain ⟨spelledE, spelledS, -⟩ := spelled
    exact (phrase.shedsParens_words spelledE).append (ShedsParens.nil.mark spelledS hs rfl)
  | ifElse ht phrase _ _ ihb ihe =>
    simp only [List.forall_mem_cons, List.forall_mem_append, List.map_cons, List.map_append] at spelled ⊢
    obtain ⟨spelledT, spelledC, spelledB, spelledE⟩ := spelled
    have behind := (ihb spelledB).append (ihe spelledE)
    exact ((phrase.shedsParens_words spelledC).append behind).keyword spelledT ht
  | whileLoop ht phrase _ ih =>
    simp only [List.forall_mem_cons, List.forall_mem_append, List.map_cons, List.map_append] at spelled ⊢
    obtain ⟨spelledT, spelledC, spelledB⟩ := spelled
    exact ((phrase.shedsParens_words spelledC).append (ih spelledB)).keyword spelledT ht
  | nil => exact .nil
  | cons _ _ ihs ihr =>
    simp only [List.forall_mem_append, List.map_append] at spelled ⊢
    exact (ihs spelled.1).append (ihr spelled.2)
  | block ho _ hc ih =>
    simp only [List.forall_mem_cons, List.forall_mem_append, List.map_cons, List.map_append] at spelled ⊢
    obtain ⟨spelledO, spelledB, spelledC, -⟩ := spelled
    have close := ShedsParens.nil.mark spelledC hc rfl
    exact ((ih spelledB).append close).mark spelledO ho rfl
  | absent => exact .nil
  | otherwise ht _ ih =>
    simp only [List.forall_mem_cons, List.map_cons] at spelled ⊢
    exact (ih spelled.2).keyword spelled.1 ht

/-! ## The words of canonical text -/

/-- The text of a program that was read has the words of the text it was read from, without some of
its pairs of parentheses. -/
theorem words_source_of_parse {source : String} {p : Program}
    (accepted : (parse source).program? = some p) :
    FaultFree p.source ∧ ShedsParens (words source) (words p.source) ∧
      (words p.source).Sublist (words source) ∧
      (words p.source).filter (!·.kind.isParen) = (words source).filter (!·.kind.isParen) := by
  obtain ⟨ts, demand, -, spelled, read, derived, -⟩ := derives_of_parse accepted
  obtain ⟨clean, written⟩ := p.words_source (Program.wellFormed_of_parse accepted)
  have shed : ShedsParens (words source) (words p.source) := by
    rw [read, written]
    exact derived.shedsParens spelled
  exact ⟨clean, shed, shed.sublist, shed.filter_eq⟩

/-- One of the pairs is needed, the others are not. -/
theorem words_source_of_product :
    ∃ p, (parse "x = ((a + b)) * (c); // product").program? = some p ∧
      p.source = "x = (a + b) * c;\n" ∧
      ShedsParens (words "x = ((a + b)) * (c); // product") (words "x = (a + b) * c;\n") := by
  have made : (parse "x = ((a + b)) * (c); // product").program?.map Program.source =
      some "x = (a + b) * c;\n" := by cbv
  obtain ⟨p, accepted, text⟩ := Option.map_eq_some_iff.mp made
  refine ⟨p, accepted, text, ?_⟩
  rw [← text]
  exact (words_source_of_parse accepted).2.1

end ImpSyntax
