/-!
# Blank characters

A character is blank when it has the Unicode property `White_Space`: 25 code points in ten ranges (`blankRanges`).
Every character that core calls whitespace is blank (`isBlank_of_isWhitespace`); the converse fails, for instance at the
form feed and at the ideographic space.
-/

namespace Stepwise.Text

/-- The inclusive ranges of code points with the property `White_Space`, in ascending order. -/
def blankRanges : List (Nat × Nat) :=
  [(0x09, 0x0D), (0x20, 0x20), (0x85, 0x85), (0xA0, 0xA0), (0x1680, 0x1680), (0x2000, 0x200A), (0x2028, 0x2029),
    (0x202F, 0x202F), (0x205F, 0x205F), (0x3000, 0x3000)]

/-- Separates atoms within a line. -/
def isBlank (c : Char) : Bool := blankRanges.any fun r => r.1 ≤ c.toNat && c.toNat ≤ r.2

theorem isBlank_of_isWhitespace (c : Char) (h : c.isWhitespace = true) : isBlank c = true := by
  simp only [Char.isWhitespace, Bool.or_eq_true, decide_eq_true_eq] at h
  obtain ((rfl | rfl) | rfl) | rfl := h <;> decide

example : (blankRanges.map fun r => r.2 - r.1 + 1).sum = 25 := by decide

example : isBlank '\u3000' = true ∧ isBlank '\x0c' = true ∧ isBlank '\u200b' = false := by decide

end Stepwise.Text
