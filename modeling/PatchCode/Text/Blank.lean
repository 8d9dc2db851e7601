/-! White space. A blank is any character with the Unicode property `White_Space`, and trimming
removes blanks at both ends of a text. -/

namespace PatchCode.Text

/-- Code points with the Unicode property `White_Space`. -/
def isBlank (c : Char) : Bool :=
  (0x09 ≤ c.toNat && c.toNat ≤ 0x0D) || c.toNat == 0x20 || c.toNat == 0x85 || c.toNat == 0xA0 ||
    c.toNat == 0x1680 || (0x2000 ≤ c.toNat && c.toNat ≤ 0x200A) || c.toNat == 0x2028 ||
    c.toNat == 0x2029 || c.toNat == 0x202F || c.toNat == 0x205F || c.toNat == 0x3000

def trimStart (cs : List Char) : List Char := cs.dropWhile isBlank

def trimEnd (cs : List Char) : List Char := (cs.reverse.dropWhile isBlank).reverse

def trim (cs : List Char) : List Char := trimEnd (trimStart cs)

end PatchCode.Text
