import Changeover.Shell.Syntax

/-!
# Numerals

Whole numbers as the shell writes them: decimal digits, or octal ones after a zero, or hexadecimal
ones after `0x`.
-/

namespace Changeover.Shell

def isOctal (c : Char) : Bool := '0' ≤ c && c ≤ '7'

def isHexDigit (c : Char) : Bool := c.isDigit || "abcdefABCDEF".toList.contains c

def digitValue (c : Char) : Nat := if c.isDigit then c.toNat - 48 else c.toLower.toNat - 87

def digitsValue (base : Nat) (ds : Octets) : Nat := ds.foldl (fun n d => n * base + digitValue d) 0

def numeral (cs : Octets) : Nat × Octets :=
  let read (base : Nat) (isDigit : Char → Bool) (cs : Octets) : Nat × Octets :=
    let ds := cs.takeWhile isDigit
    (digitsValue base ds, cs.drop ds.length)
  match cs with
  | '0' :: x :: d :: r =>
    if (x == 'x' || x == 'X') && isHexDigit d then read 16 isHexDigit (d :: r)
    else read 8 isOctal cs
  | '0' :: _ => read 8 isOctal cs
  | _ => read 10 Char.isDigit cs

/-- The number in front of a text, which may have blanks and a sign before it. Without a digit
nothing is taken. -/
def signedNumeral (cs : Octets) : Int × Octets :=
  let trimmed := cs.dropWhile fun c => c == ' ' || c == '\t' || c == '\n'
  let (negative, digits) := match trimmed with
    | '-' :: r => (true, r)
    | '+' :: r => (false, r)
    | r => (false, r)
  if digits.head?.any Char.isDigit then
    let (v, r) := numeral digits
    (if negative then -(v : Int) else v, r)
  else (0, cs)

def number (cs : Octets) : Int :=
  let magnitude (ds : Octets) : Nat := digitsValue 10 (ds.takeWhile Char.isDigit)
  match cs with
  | '-' :: r => - (magnitude r : Int)
  | '+' :: r => magnitude r
  | r => magnitude r

end Changeover.Shell
