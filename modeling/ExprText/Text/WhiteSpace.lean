/-! # White space

The characters with the Unicode property White_Space, and trimming by them. -/

namespace ExprText.Text

/-- First and last code point of each run of white space. -/
def whiteSpaceRuns : List (Nat × Nat) :=
  [(0x9, 0xD), (0x20, 0x20), (0x85, 0x85), (0xA0, 0xA0), (0x1680, 0x1680), (0x2000, 0x200A),
    (0x2028, 0x2029), (0x202F, 0x202F), (0x205F, 0x205F), (0x3000, 0x3000)]

def isWhiteSpace (c : Char) : Bool :=
  whiteSpaceRuns.any fun (first, last) => first ≤ c.toNat && c.toNat ≤ last

/-- `cs` without the white space it starts with. -/
def trimStart (cs : List Char) : List Char :=
  cs.dropWhile isWhiteSpace

/-- `cs` without the white space it ends with. -/
def trimEnd (cs : List Char) : List Char :=
  (cs.reverse.dropWhile isWhiteSpace).reverse

def trim (cs : List Char) : List Char :=
  trimEnd (trimStart cs)

end ExprText.Text
