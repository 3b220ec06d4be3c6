import ImpSyntax.Text.Unprintable

/-!
# Quoted characters

A character shown in a message stands between single quotes. What would not be seen there, or would
end the quotation, is written as an escape.

Main results:

* `newline_not_mem_quoted` — a quoted character stands on one line.
-/

namespace ImpSyntax.Text

/-- The number in base sixteen, lower case, without leading zeros. -/
def hex (n : Nat) : String := String.ofList (Nat.toDigits 16 n)

/-- The character as it stands between quotes: an escape of two characters where there is one, the
code point in braces for any other unprintable character, and else the character itself. -/
def escaped (c : Char) : String :=
  match c with
  | '\x00' => "\\0"
  | '\t' => "\\t"
  | '\r' => "\\r"
  | '\n' => "\\n"
  | '\\' => "\\\\"
  | '\'' => "\\'"
  | c => if isUnprintable c then "\\u\x7b" ++ hex c.toNat ++ "\x7d" else c.toString

/-- The character between single quotes. -/
def quoted (c : Char) : String := "'" ++ escaped c ++ "'"

theorem newline_ne_digitChar (n : Nat) : '\n' ≠ Nat.digitChar n := by
  grind [Nat.digitChar]

theorem newline_not_mem_toDigitsCore (fuel n : Nat) (seen : List Char) (h : '\n' ∉ seen) :
    '\n' ∉ Nat.toDigitsCore 16 fuel n seen := by
  induction fuel generalizing n seen with
  | zero => exact h
  | succ fuel ih =>
    have cons : '\n' ∉ Nat.digitChar (n % 16) :: seen := by
      simp [h, newline_ne_digitChar]
    simp only [Nat.toDigitsCore]
    split
    · exact cons
    · exact ih _ _ cons

theorem newline_not_mem_hex (n : Nat) : '\n' ∉ (hex n).toList := by
  simpa [hex, Nat.toDigits] using newline_not_mem_toDigitsCore (n + 1) n [] (by simp)

theorem newline_not_mem_quoted (c : Char) : '\n' ∉ (quoted c).toList := by
  have inner : '\n' ∉ (escaped c).toList := by
    unfold escaped
    split
    case h_7 _ _ _ hn _ _ =>
      split
      · simpa using newline_not_mem_hex c.toNat
      · simpa [Char.toString, eq_comm] using hn
    all_goals simp
  simpa [quoted] using inner

end ImpSyntax.Text
