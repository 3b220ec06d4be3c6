import Mathlib
import ImpSyntax.Proofs.Language
import ImpSyntax.Proofs.Lexical.Cutting
import ImpSyntax.Proofs.Parser.Braces

/-!
# Programs that are cut off

A program that is cut off behind any of its tokens is reported as incomplete and as nothing else: at
the end of what is left there is one report for each block that is open, and one more if a statement
is left in the middle. Where nothing is lacking, what is left is a program.

Main results:

* `parse_cutBehind` — what is reported on a program that is cut off.
-/

namespace ImpSyntax

open Precedence

namespace Parser

/-- How many ends the tokens lack: those of the blocks that are open, and that of a statement in the
middle of which they end. -/
def missingEnds (ts : List Token) : Int := openBraces ts + (endsInside ts).toNat

theorem missingEnds_erase (ts : List Token) : missingEnds (ts.map Token.erase) = missingEnds ts := by
  have braces (m : Mark) : (ts.map Token.erase).countP (·.kind == .mark m) =
      ts.countP (·.kind == .mark m) := List.countP_map
  have inside : endsInside (ts.map Token.erase) = endsInside ts := by
    rw [endsInside, endsInside, List.getLast?_map]
    cases ts.getLast? <;> rfl
  rw [missingEnds, missingEnds, openBraces, openBraces, braces, braces, inside]

/-- What is reported where tokens that are read without a report end early. -/
theorem lacks_take {ts : List Token} {last t : Token} (goesOn : ∀ u ∈ ts, u.kind ≠ .eof)
    (quiet : ((ts ++ [last]).foldl feedToken start).reports = []) (eof : t.kind = .eof) (k : Nat) :
    ∃ n : Nat, (n : Int) = missingEnds (ts.take k) ∧
      Lacks t.pos n start ((ts.take k ++ [t]).foldl feedToken start) := by
  have split : ts ++ [last] = ts.take k ++ (ts.drop k ++ [last]) := by
    rw [← List.append_assoc, List.take_append_drop]
  have goesOn' : ∀ u ∈ ts.take k, u.kind ≠ .eof := fun u mem => goesOn u (List.mem_of_mem_take mem)
  rw [split, List.foldl_append] at quiet
  have quiet' := quiet_of_foldl quiet
  have account := accounts_of_quiet goesOn' quiet'
  have room := hasRoom_of_quiet account.1 (by simp) quiet
  obtain ⟨level, boundary⟩ := level_foldl goesOn' quiet'
  obtain ⟨new, reports, length, all⟩ := lacks_feedToken eof account.1 room
  rw [quiet'] at reports
  refine ⟨_, ?_, new, ?_, length, all⟩
  · rw [boundary, Bool.not_not, Int.natCast_add, level, missingEnds]
  · rw [List.foldl_append]
    exact reports

end Parser

/-! ## The reports on a program that is cut off -/

/-- An accepted text is cut off behind its first `k` tokens. On what is left there are as many
reports as ends are missing, each one at the end and for it. Where none is missing it is accepted.
-/
theorem parse_cutBehind {source : String} {p : Program}
    (accepted : (parse source).program? = some p) {k : Nat}
    (within : k ≤ (words source).length) :
    (cutBehind source k).toList <+: source.toList ∧
      tokenize (cutBehind source k) =
        (tokenize source).take k ++ [.token (.eof (endOf (cutBehind source k)))] ∧
      ((parse (cutBehind source k)).reports.length : Int) =
        Parser.missingEnds ((words source).take k) ∧
      (∀ r ∈ (parse (cutBehind source k)).reports, ∃ expected,
        r = ⟨.syntactic (.unexpectedEnd expected), endOf (cutBehind source k)⟩) ∧
      (Parser.missingEnds ((words source).take k) = 0 →
        ∃ q, (parse (cutBehind source k)).program? = some q) := by
  have clean := faultFree_of_parse accepted
  have cut := tokenize_cutBehind clean within
  obtain ⟨ts, front, goesOn, tokens⟩ := clean.exists_tokens
  have whole : tokenize source = (ts ++ [Token.eof (endOf source)]).map .token := by
    rw [tokenize_eq_front_append, front, List.map_append, List.map_singleton]
  have quiet : ((ts ++ [Token.eof (endOf source)]).foldl Parser.feedToken .start).reports = [] := by
    have none := (Parsed.program?_eq_some_iff.mp accepted).1
    rw [parse, Parser.run, whole, Parser.foldl_feed_tokens] at none
    exact List.reverse_eq_nil_iff.mp none
  have left : tokenize (cutBehind source k) =
      (ts.take k ++ [Token.eof (endOf (cutBehind source k))]).map .token := by
    rw [tokens, List.length_map] at within
    rw [cut, whole, ← List.map_take, List.take_append_of_le_length within, List.map_append,
      List.map_singleton]
  have missing : Parser.missingEnds ((words source).take k) = Parser.missingEnds (ts.take k) := by
    rw [tokens, ← List.map_take, Parser.missingEnds_erase]
  obtain ⟨n, count, new, made, length, all⟩ :=
    Parser.lacks_take goesOn quiet (t := .eof (endOf (cutBehind source k))) rfl k
  have reports : (parse (cutBehind source k)).reports = new.reverse := by
    rw [parse, Parser.run, left, Parser.foldl_feed_tokens, made]
    exact congrArg List.reverse (List.append_nil new)
  rw [missing, ← count, reports, List.length_reverse, length]
  refine ⟨isPrefix_cutBehind source k, cut, rfl, fun r mem => all r (List.mem_reverse.mp mem),
    fun none => ?_⟩
  have empty : new = [] := List.length_eq_zero_iff.mp (by omega)
  refine ⟨_, Parsed.program?_eq_some_iff.mpr ⟨?_, rfl⟩⟩
  rw [reports, empty, List.reverse_nil]

/-- The value is missing, and so is the end of the block. -/
theorem parse_cutBehind_print :
    ∃ p, (parse "while x \x7b print y; \x7d").program? = some p ∧
      4 ≤ (words "while x \x7b print y; \x7d").length ∧
      cutBehind "while x \x7b print y; \x7d" 4 = "while x \x7b print" ∧
      (parse "while x \x7b print").reports.length = 2 ∧
      ∀ r ∈ (parse "while x \x7b print").reports, ∃ expected,
        r = ⟨.syntactic (.unexpectedEnd expected), endOf "while x \x7b print"⟩ := by
  have accepted : ((parse "while x \x7b print y; \x7d").program?).isSome = true := by cbv
  have within : 4 ≤ (words "while x \x7b print y; \x7d").length := by
    have long : (words "while x \x7b print y; \x7d").length = 7 := by cbv
    omega
  have cut : cutBehind "while x \x7b print y; \x7d" 4 = "while x \x7b print" := by cbv
  have missing : Parser.missingEnds ((words "while x \x7b print y; \x7d").take 4) = 2 := by cbv
  obtain ⟨p, accepted⟩ := Option.isSome_iff_exists.mp accepted
  obtain ⟨-, -, count, all, -⟩ := parse_cutBehind accepted within
  rw [cut] at count all
  rw [missing] at count
  exact ⟨p, accepted, within, cut, by omega, all⟩

end ImpSyntax
