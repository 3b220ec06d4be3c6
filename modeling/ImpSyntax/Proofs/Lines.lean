import ImpSyntax.Position

/-!
# Texts and their lines

A text is split at its newlines. Texts without newlines come back out of a text that they were put
into, whether a newline stands behind each of them or between any two.

Main results:

* `Text.splitLines_join`, `Text.splitLines_intercalate` — texts on lines of their own are read back.
* `Position.newline_not_mem_toString` — a position is written on one line.
-/

namespace ImpSyntax

namespace Text

/-- The parts of the text in front of, between and behind its newlines. -/
def splitLines (text : String) : List String := (text.toList.splitOn '\n').map String.ofList

theorem splitLines_intercalate {lines : List String} (nonempty : lines ≠ [])
    (h : ∀ line ∈ lines, '\n' ∉ line.toList) : splitLines ("\n".intercalate lines) = lines := by
  have parts : ∀ part ∈ lines.map String.toList, '\n' ∉ part := List.forall_mem_map.mpr h
  have text : ("\n".intercalate lines).toList = ['\n'].intercalate (lines.map String.toList) :=
    String.toList_intercalate
  rw [splitLines, text, List.splitOn_intercalate '\n' parts (by simpa using nonempty), List.map_map]
  exact (List.map_congr_left fun line _ => String.ofList_toList).trans lines.map_id

/-- With a newline behind each of them, nothing stands behind the last newline. -/
theorem splitLines_join {lines : List String} (h : ∀ line ∈ lines, '\n' ∉ line.toList) :
    splitLines (String.join (lines.map (· ++ "\n"))) = lines ++ [""] := by
  have text : String.join (lines.map (· ++ "\n")) = "\n".intercalate (lines ++ [""]) := by
    clear h
    induction lines with
    | nil => rfl
    | cons line lines ih =>
      cases lines with
      | nil => simp [String.join]
      | cons other lines =>
        rw [List.map_cons, String.join_cons, ih]
        simp [String.intercalate_cons_cons, String.append_assoc]
  rw [text, splitLines_intercalate (by simp)]
  exact List.forall_mem_append.mpr ⟨h, by simp⟩

end Text

theorem not_mem_toDigits {c : Char} (h : c.isDigit = false) (n : Nat) : c ∉ Nat.toDigits 10 n := by
  intro mem
  rw [Nat.isDigit_of_mem_toDigits (by decide) (by decide) mem] at h
  cases h

theorem Position.newline_not_mem_toString (p : Position) : '\n' ∉ p.toString.toList := by
  have text : p.toString = p.line.repr ++ ":" ++ p.column.repr := rfl
  simp [text, not_mem_toDigits]

end ImpSyntax
