/-
# Blank characters

The characters that Unicode gives the property `White_Space`, and trimming
them off both ends of a text. Texts are worked on as lists of characters.

Key definitions: `Text.isBlank`, `Text.trim`.
-/

namespace LiveRules
namespace Text

/-- The code points with the property `White_Space`, as ranges. -/
def blankRanges : List (Nat × Nat) :=
  [(0x09, 0x0D), (0x20, 0x20), (0x85, 0x85), (0xA0, 0xA0), (0x1680, 0x1680), (0x2000, 0x200A),
   (0x2028, 0x2029), (0x202F, 0x202F), (0x205F, 0x205F), (0x3000, 0x3000)]

def isBlank (c : Char) : Bool :=
  blankRanges.any fun r => r.1 ≤ c.toNat && c.toNat ≤ r.2

/-- There are 25 blank characters. -/
example : (blankRanges.map fun r => r.2 + 1 - r.1).sum = 25 := by decide

def trimLeft (cs : List Char) : List Char :=
  cs.dropWhile isBlank

def trimRight (cs : List Char) : List Char :=
  (cs.reverse.dropWhile isBlank).reverse

/-- The text without the blanks at its two ends. -/
def trim (cs : List Char) : List Char :=
  trimRight (trimLeft cs)

end Text
end LiveRules
