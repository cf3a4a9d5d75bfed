import Changeover.Text.Cut

/-!
# White space

Blank characters are those with the Unicode property `White_Space`. Words are the non-empty
pieces between them, and trimming removes them from both ends.
-/

namespace Changeover.Text

/-- The property `White_Space`. -/
def isBlank (c : Char) : Bool :=
  let n := c.toNat
  (0x09 ≤ n && n ≤ 0x0d) || n == 0x20 || n == 0x85 || n == 0xa0 || n == 0x1680 ||
    (0x2000 ≤ n && n ≤ 0x200a) || n == 0x2028 || n == 0x2029 || n == 0x202f || n == 0x205f ||
    n == 0x3000

def trimEnd (cs : List Char) : List Char := (cs.reverse.dropWhile isBlank).reverse

def trimmed (cs : List Char) : List Char := trimEnd (cs.dropWhile isBlank)

def trim (s : String) : String := String.ofList (trimmed s.toList)

def wordsOf (cs : List Char) : List (List Char) := (cut isBlank cs).filter (!·.isEmpty)

def words (s : String) : List String := (wordsOf s.toList).map String.ofList

def padRight (width : Nat) (s : String) : String :=
  s ++ String.ofList (List.replicate (width - s.length) ' ')

end Changeover.Text
