/-!
# White space

`isBlank` is the Unicode property White_Space: the five ASCII controls from
tab to carriage return, the space, next line, no-break space, and the wider
blanks and separators.
-/
namespace DocumentQuery.Text

/-- The code points of the property White_Space, as ranges with both ends included. -/
def blankRanges : List (Nat × Nat) :=
  [(0x09, 0x0D), (0x20, 0x20), (0x85, 0x85), (0xA0, 0xA0), (0x1680, 0x1680), (0x2000, 0x200A),
    (0x2028, 0x2029), (0x202F, 0x202F), (0x205F, 0x205F), (0x3000, 0x3000)]

/-- Whether the character is white space. -/
def isBlank (c : Char) : Bool :=
  blankRanges.any fun r => r.1 ≤ c.toNat && c.toNat ≤ r.2

end DocumentQuery.Text
