import Mathlib
import ImpSyntax.Proofs.Language
import ImpSyntax.Proofs.Tree.Preorder

/-!
# Where the nodes of a parsed tree stand

A tree that is derived from tokens holds them in order. Every node is placed at one of the tokens it is
derived from: a statement and a two-place operation at the first one, parentheses included, and what is
written as a single word at that word. Nodes in order therefore follow the order of the tokens, and no
two single words stand at one place.

Main results:

* `Grammar.Phrase.holds`, `Grammar.Derives.holds` — the tokens of a construct hold its nodes.
* `Holds.preorder_of_parse` — so do the tokens of a text that is accepted.
* `positions_of_parse` — the positions of the nodes of its program.
-/

namespace ImpSyntax

open Precedence Grammar Reading

/-! ## Nodes and their tokens -/

/-- What is written as a single word of the text: literals, names and types, and the operators in front
of an operand. -/
def Node.word? : Node → Option String
  | .expr (.literal _ value _) => some value
  | .expr (.location name _) => some name
  | .expr (.unary op _ _) => some op
  | .type t => some t.name
  | _ => none

/-- The word with its position. -/
def Node.placedWord? (n : Node) : Option (String × Position) := n.word?.map fun text => (text, n.pos)

/-- The text of the token with its position. -/
def Token.placed (t : Token) : String × Position := (t.lexeme, t.pos)

/-- The statement is derived from some of the tokens, which stand together, and placed at the first
of them. -/
def Stmt.BeginsIn (s : Stmt) (ts : List Token) : Prop :=
  ∃ (first : Token) (rest : List Token) (demand : Nat), first :: rest <:+: ts ∧
    Derives (.statement s) (first :: rest) demand ∧ s.pos = first.pos

/-- The operation `l op r` at `pos` is derived from some of the tokens, which stand together: those of
its left operand, the operator, and those of its right operand. It is placed at the first of them. -/
def OperationBeginsIn (op : String) (l r : Expr) (pos : Position) (ts : List Token) : Prop :=
  ∃ (level : Nat) (first t : Token) (left right : List Token) (n d n' d' : Nat),
    first :: left ++ t :: right <:+: ts ∧ Phrase level (first :: left) l n d ∧
      t.kind.binaryLevel? = some (level, .left) ∧ t.lexeme = op ∧
      Phrase (level + 1) right r n' d' ∧ pos = first.pos

/-- What is placed at its first token is so. -/
def Node.BeginsIn (ts : List Token) : Node → Prop
  | .stmt s => s.BeginsIn ts
  | .expr (.binary op l r pos) => OperationBeginsIn op l r pos ts
  | _ => True

theorem Node.BeginsIn.mono {ts us : List Token} (within : ts <:+: us) {n : Node}
    (h : n.BeginsIn ts) : n.BeginsIn us := by
  match n with
  | .stmt s =>
    obtain ⟨first, rest, demand, part, derived⟩ := h
    exact ⟨first, rest, demand, part.trans within, derived⟩
  | .expr (.binary op l r pos) =>
    obtain ⟨level, first, t, left, right, n, d, n', d', part, derived⟩ := h
    exact ⟨level, first, t, left, right, n, d, n', d', part.trans within, derived⟩
  | .expr (.unary ..) | .expr (.literal ..) | .expr (.location ..) | .program _ | .type _ =>
    trivial

/-- The tokens come in the order of their positions. -/
def InOrder (ts : List Token) : Prop := ts.Pairwise fun a b => a.pos < b.pos

/-- `Holds ts ns`: the nodes `ns` are placed at some of the tokens `ts`, one after the other. -/
structure Holds (ts : List Token) (ns : List Node) : Prop where
  placed : ∀ n ∈ ns, ∃ t ∈ ts, n.pos = t.pos
  ordered : InOrder ts → ns.Pairwise fun a b => a.pos ≤ b.pos
  words : (ns.filterMap Node.placedWord?).Sublist (ts.map Token.placed)
  begins : ∀ n ∈ ns, n.BeginsIn ts

namespace Holds

variable {t : Token} {ts us : List Token} {n : Node} {ns ms : List Node}

/-- Any tokens hold no nodes. -/
theorem nil (ts : List Token) : Holds ts [] where
  placed := by simp
  ordered _ := .nil
  words := List.nil_sublist _
  begins := by simp

theorem append (h : Holds ts ns) (h' : Holds us ms) : Holds (ts ++ us) (ns ++ ms) where
  placed := by
    intro n mem
    rcases List.mem_append.mp mem with mem | mem
    · obtain ⟨t, among, same⟩ := h.placed n mem
      exact ⟨t, List.mem_append_left _ among, same⟩
    · obtain ⟨t, among, same⟩ := h'.placed n mem
      exact ⟨t, List.mem_append_right _ among, same⟩
  ordered := by
    intro sorted
    obtain ⟨sortedLeft, sortedRight, across⟩ := List.pairwise_append.mp sorted
    refine List.pairwise_append.mpr ⟨h.ordered sortedLeft, h'.ordered sortedRight, ?_⟩
    intro a ha b hb
    obtain ⟨t, left, here⟩ := h.placed a ha
    obtain ⟨u, right, there⟩ := h'.placed b hb
    rw [here, there]
    exact Position.le_of_lt (across t left u right)
  words := by
    rw [List.filterMap_append, List.map_append]
    exact h.words.append h'.words
  begins := by
    intro n mem
    rcases List.mem_append.mp mem with mem | mem
    · exact (h.begins n mem).mono (List.prefix_append ts us).isInfix
    · exact (h'.begins n mem).mono (List.suffix_append ts us).isInfix

/-- Tokens in front take no part. -/
theorem skip (h : Holds ts ns) (t : Token) : Holds (t :: ts) ns := (nil [t]).append h

/-- Tokens behind take no part. -/
theorem followed (h : Holds ts ns) (us : List Token) : Holds (ts ++ us) ns := by
  have whole := h.append (nil us)
  rwa [List.append_nil] at whole

/-- A node that is a single word, in front of nodes behind that word. -/
theorem word {text : String} (h : Holds ts ns) (is : n.word? = some text) (same : t.lexeme = text)
    (pos : n.pos = t.pos) : Holds (t :: ts) (n :: ns) where
  placed := by
    intro m mem
    rcases List.mem_cons.mp mem with rfl | mem
    · exact ⟨t, List.mem_cons_self, pos⟩
    · exact (h.skip t).placed m mem
  ordered := by
    intro sorted
    obtain ⟨front, sorted⟩ := List.pairwise_cons.mp sorted
    refine List.pairwise_cons.mpr ⟨fun m mem => ?_, h.ordered sorted⟩
    obtain ⟨u, among, there⟩ := h.placed m mem
    rw [pos, there]
    exact Position.le_of_lt (front u among)
  words := by
    have placed : n.placedWord? = some t.placed := by
      rw [Node.placedWord?, is, pos, ← same]
      rfl
    rw [List.filterMap_cons_some placed, List.map_cons]
    exact h.words.cons_cons _
  begins := by
    intro m mem
    rcases List.mem_cons.mp mem with rfl | mem
    · match m with
      | .expr (.unary ..) | .expr (.literal ..) | .expr (.location ..) | .type _ => trivial
      | .expr (.binary ..) | .stmt _ | .program _ => cases is
    · exact (h.skip t).begins m mem

/-- A node that is placed at the first token, in front of the nodes below it. -/
theorem root (h : Holds (t :: ts) ns) (no : n.word? = none) (pos : n.pos = t.pos)
    (begins : n.BeginsIn (t :: ts)) : Holds (t :: ts) (n :: ns) where
  placed := by
    intro m mem
    rcases List.mem_cons.mp mem with rfl | mem
    · exact ⟨t, List.mem_cons_self, pos⟩
    · exact h.placed m mem
  ordered := by
    intro sorted
    refine List.pairwise_cons.mpr ⟨fun m mem => ?_, h.ordered sorted⟩
    obtain ⟨u, among, there⟩ := h.placed m mem
    rw [pos, there]
    rcases List.mem_cons.mp among with rfl | among
    · exact u.pos.le_after []
    · exact Position.le_of_lt ((List.pairwise_cons.mp sorted).1 u among)
  words := by
    have none : n.placedWord? = none := by rw [Node.placedWord?, no]; rfl
    rw [List.filterMap_cons_none none]
    exact h.words
  begins := by
    intro m mem
    rcases List.mem_cons.mp mem with rfl | mem
    · exact begins
    · exact h.begins m mem

/-- A statement in front of the nodes below it. -/
theorem stmt {s : Stmt} {demand : Nat} (h : Holds ts ns) (derived : Derives (.statement s) ts demand)
    (pos : s.pos = startOf ts) : Holds ts (.stmt s :: ns) := by
  obtain ⟨first, rest, rfl⟩ := List.exists_cons_of_ne_nil derived.ne_nil
  exact h.root rfl pos ⟨first, rest, demand, List.infix_rfl, derived, pos⟩

end Holds

/-! ## What is derived -/

theorem Grammar.Phrase.holds {level links demand : Nat} {ts : List Token} {e : Expr}
    (h : Phrase level ts e links demand) : Holds ts (Node.expr e).preorder := by
  induction h with
  | @name t =>
    rw [Node.preorder_location]
    exact (Holds.nil []).word rfl rfl rfl
  | literal =>
    rw [Node.preorder_literal]
    exact (Holds.nil []).word rfl rfl rfl
  | @group o c _ _ _ _ _ _ _ ih => exact (ih.followed [c]).skip o
  | sign _ _ ih =>
    rw [Node.preorder_unary]
    exact ih.word rfl rfl rfl
  | @link level t ls rs l r n d n' d' left op right ihl ihr =>
    obtain ⟨first, rest, rfl⟩ := List.exists_cons_of_ne_nil left.ne_nil
    rw [Node.preorder_binary]
    exact (ihl.append (ihr.skip t)).root rfl rfl
      ⟨level, first, t, rest, rs, n, d, n', d', List.infix_rfl, left, op, rfl, right, rfl⟩
  | tighter _ ih => exact ih

theorem Grammar.TypePart.holds {tt : List Token} {type : Option TypeName} (h : TypePart tt type) :
    Holds tt (type.toList.map Node.type) := by
  cases h with
  | absent => exact .nil []
  | present => exact (Holds.nil []).word rfl rfl rfl

theorem Grammar.InitPart.holds {ti : List Token} {init : Option Expr} {demand : Nat}
    (h : InitPart ti init demand) :
    Holds ti (init.toList.flatMap fun e => (Node.expr e).preorder) := by
  cases h with
  | absent => exact .nil []
  | @present t ts e _ _ _ phrase =>
    have value := phrase.holds.skip t
    simpa using value

/-- The nodes of the construct, in order. -/
def Grammar.Construct.nodes : Construct → List Node
  | statement s => (Node.stmt s).preorder
  | statements body | block body => Node.ofStmts body
  | otherwise body => Node.ofStmts (body.getD [])

theorem Grammar.Derives.holds {c : Construct} {ts : List Token} {demand : Nat}
    (h : Derives c ts demand) : Holds ts c.nodes := by
  induction h with
  | @print t semi _ _ _ _ ht phrase hs =>
    rw [Construct.nodes, Node.preorder_print]
    exact ((phrase.holds.followed [semi]).skip t).stmt (.print ht phrase hs) rfl
  | @assign name eq semi _ _ _ _ hn heq phrase hs =>
    rw [Construct.nodes, Node.preorder_assign]
    have target := ((phrase.holds.followed [semi]).skip eq).word (t := name)
      (n := .expr (.location name.lexeme name.pos)) rfl rfl rfl
    exact target.stmt (.assign hn heq phrase hs) rfl
  | @declare t name semi binding _ _ _ _ _ ht htype hn hinit given hs =>
    rw [Construct.nodes, Node.preorder_declare]
    have parts := htype.holds.append ((hinit.holds.followed [semi]).skip name)
    exact (parts.skip t).stmt (.declare ht htype hn hinit given hs) rfl
  | jump ht hs =>
    rw [Construct.nodes, Node.preorder_jump]
    exact (Holds.nil _).stmt (.jump ht hs) rfl
  | @expr semi _ _ _ _ phrase hs =>
    rw [Construct.nodes, Node.preorder_expr]
    exact (phrase.holds.followed [semi]).stmt (.expr phrase hs)
      (startOf_append phrase.ne_nil _).symm
  | @ifElse t _ _ _ _ _ _ _ _ _ _ ht phrase hb he ihb ihe =>
    rw [Construct.nodes, Node.preorder_ifElse]
    exact ((phrase.holds.append (ihb.append ihe)).skip t).stmt (.ifElse ht phrase hb he) rfl
  | @whileLoop t _ _ _ _ _ _ _ ht phrase hb ih =>
    rw [Construct.nodes, Node.preorder_whileLoop]
    exact ((phrase.holds.append ih).skip t).stmt (.whileLoop ht phrase hb) rfl
  | nil => exact .nil []
  | cons _ _ ihs ihr => exact ihs.append ihr
  | @block o c _ _ _ _ _ _ ih => exact (ih.followed [c]).skip o
  | absent => exact .nil []
  | @otherwise t _ _ _ _ _ ih => exact ih.skip t

/-! ## What is parsed -/

/-- The item of the text at the position. -/
def itemAt? (source : String) (pos : Position) : Option Item :=
  (tokenize source).find? fun item => item.pos = pos

theorem itemAt?_eq_of_mem {source : String} {item : Item} (h : item ∈ tokenize source) :
    itemAt? source item.pos = some item := by
  obtain ⟨before, behind, split⟩ := List.append_of_mem h
  have sorted := pairwise_pos_tokenize source
  rw [split, List.pairwise_append] at sorted
  rw [itemAt?, split, List.find?_append, List.find?_eq_none.mpr, Option.none_or,
    List.find?_cons_of_pos (by simp)]
  intro other mem same
  have less := sorted.2.2 other mem item List.mem_cons_self
  rw [of_decide_eq_true same, Position.lt_iff] at less
  omega

theorem Program.pos_of_parse {source : String} {p : Program}
    (accepted : (parse source).program? = some p) : p.pos = Item.firstPos (tokenize source) := by
  obtain ⟨-, rfl⟩ := Parsed.program?_eq_some_iff.mp accepted
  rfl

/-- The tokens of an accepted text, the end included, hold the nodes of its program. -/
theorem Holds.preorder_of_parse {source : String} {p : Program}
    (accepted : (parse source).program? = some p) :
    ∃ ts : List Token, tokenize source = ts.map .token ∧ InOrder ts ∧
      Holds ts (Node.program p).preorder := by
  obtain ⟨ts, demand, front, -, -, derived, -⟩ := derives_of_parse accepted
  have scanned : tokenize source = (ts ++ [Token.eof (endOf source)]).map .token := by
    rw [tokenize_eq_front_append, front, List.map_append]
    rfl
  refine ⟨_, scanned, ?_, ?_⟩
  · have sorted := pairwise_pos_tokenize source
    rw [scanned, List.pairwise_map] at sorted
    exact sorted
  · have below := derived.holds.followed [Token.eof (endOf source)]
    have first := Program.pos_of_parse accepted
    rw [Node.preorder_program]
    generalize tokens : ts ++ [Token.eof (endOf source)] = all at scanned below
    cases all with
    | nil => simp at tokens
    | cons t others =>
      rw [scanned] at first
      exact below.root rfl first trivial

/-- Single words stand behind one another. -/
theorem Holds.pairwise_words {ts : List Token} {ns : List Node} (h : Holds ts ns)
    (sorted : InOrder ts) :
    (ns.filter (·.word?.isSome)).Pairwise fun a b => a.pos < b.pos := by
  have placed : (ts.map Token.placed).Pairwise fun a b => a.2 < b.2 := List.pairwise_map.mpr sorted
  have words := List.pairwise_filterMap.mp (placed.sublist h.words)
  refine List.pairwise_filter.mpr (words.imp fun {a b} apart isWord isWord' => ?_)
  obtain ⟨text, is⟩ := Option.isSome_iff_exists.mp isWord
  obtain ⟨text', is'⟩ := Option.isSome_iff_exists.mp isWord'
  exact apart (text, a.pos) (by rw [Node.placedWord?, is]; rfl) (text', b.pos)
    (by rw [Node.placedWord?, is']; rfl)

/-- A single word is the token at its position. -/
theorem Holds.exists_token {ts : List Token} {ns : List Node} (h : Holds ts ns) {n : Node}
    (mem : n ∈ ns) {text : String} (is : n.word? = some text) :
    ∃ t ∈ ts, t.pos = n.pos ∧ t.lexeme = text := by
  have placed : (text, n.pos) ∈ ns.filterMap Node.placedWord? :=
    List.mem_filterMap.mpr ⟨n, mem, by rw [Node.placedWord?, is]; rfl⟩
  obtain ⟨t, among, same⟩ := List.mem_map.mp (h.words.subset placed)
  obtain ⟨lexeme, pos⟩ := Prod.mk.inj same
  exact ⟨t, among, pos, lexeme⟩

/-- The nodes of a program that was read, parents first, are in the order of their positions. A node
with a word of its own is at that word, and no two such nodes are at one place. A statement is at
its first token, and an operation at the first token of its left operand. -/
theorem positions_of_parse {source : String} {p : Program}
    (accepted : (parse source).program? = some p) :
    (Node.program p).preorder.Pairwise (fun a b => a.pos ≤ b.pos) ∧
      (∀ n ∈ (Node.program p).preorder, ∀ text ∈ n.word?,
        ∃ t, itemAt? source n.pos = some (.token t) ∧ t.lexeme = text) ∧
      ((Node.program p).preorder.filter (·.word?.isSome)).Pairwise (fun a b => a.pos < b.pos) ∧
      ∃ ts : List Token, tokenize source = ts.map .token ∧
        (∀ s, .stmt s ∈ (Node.program p).preorder → s.BeginsIn ts) ∧
        ∀ op l r pos, .expr (.binary op l r pos) ∈ (Node.program p).preorder →
          OperationBeginsIn op l r pos ts := by
  obtain ⟨ts, scanned, sorted, holds⟩ := Holds.preorder_of_parse accepted
  refine ⟨holds.ordered sorted, ?_, holds.pairwise_words sorted, ts, scanned, ?_, ?_⟩
  · intro n mem text is
    obtain ⟨t, among, pos, lexeme⟩ := holds.exists_token mem is
    have item : Item.token t ∈ tokenize source := scanned ▸ List.mem_map_of_mem among
    have found := itemAt?_eq_of_mem item
    rw [Item.pos, pos] at found
    exact ⟨t, found, lexeme⟩
  · intro s mem
    exact holds.begins _ mem
  · intro op l r pos mem
    exact holds.begins _ mem

/-- A product begins with the parenthesis around the sum on its left, and the sum behind it. -/
theorem positions_of_product :
    let sum : Expr := .binary "+" (.location "a" ⟨1, 2⟩) (.location "b" ⟨1, 6⟩) ⟨1, 2⟩
    let negative : Expr := .unary "-" (.literal .int "3" ⟨2, 4⟩) ⟨2, 3⟩
    let p : Program := ⟨[.expr (.binary "*" sum negative ⟨1, 1⟩) ⟨1, 1⟩], ⟨1, 1⟩⟩
    (parse "(a + b)\n* -3;").program? = some p ∧
      (Node.program p).preorder.Pairwise (fun a b => a.pos ≤ b.pos) ∧
      (∃ t, itemAt? "(a + b)\n* -3;" ⟨2, 3⟩ = some (.token t) ∧ t.lexeme = "-") ∧
      ∃ ts : List Token, tokenize "(a + b)\n* -3;" = ts.map .token ∧
        OperationBeginsIn "*" sum negative ⟨1, 1⟩ ts := by
  intro sum negative p
  have accepted : (parse "(a + b)\n* -3;").program? = some p := by cbv
  obtain ⟨ordered, words, -, ts, scanned, -, operations⟩ := positions_of_parse accepted
  refine ⟨accepted, ordered, words (.expr negative) ?_ "-" rfl, ts, scanned, operations _ _ _ _ ?_⟩
  · simp [p, Node.preorder_program, negative, Node.ofStmts]
  · simp [p, Node.preorder_program, Node.ofStmts]

end ImpSyntax
