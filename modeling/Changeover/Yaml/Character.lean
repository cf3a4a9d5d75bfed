/-!
# Characters of YAML

Which characters a document may hold, which of them end a line, and where in a text a character
stands. Every way to end a line but the line and the paragraph separator is one line feed.
-/

namespace Changeover.Yaml

def isAllowed (c : Char) : Bool :=
  let n := c.toNat
  n == 0x09 || n == 0x0a || n == 0x0d || (0x20 ≤ n && n ≤ 0x7e) || n == 0x85 ||
    (0xa0 ≤ n && n ≤ 0xd7ff) || (0xe000 ≤ n && n ≤ 0xfffd) || 0x10000 ≤ n

/-- Carriage returns, with a line feed or without, and next-line characters become line feeds. -/
def joinBreaks : List Char → List Char
  | [] => []
  | '\r' :: '\n' :: cs => '\n' :: joinBreaks cs
  | c :: cs => (if c == '\r' || c.toNat == 0x85 then '\n' else c) :: joinBreaks cs

def byteOrderMark : Char := Char.ofNat 0xfeff

def isBreak (c : Char) : Bool := c == '\n' || c.toNat == 0x2028 || c.toNat == 0x2029

def isSpace (c : Char) : Bool := c == ' ' || c == '\t'

def isGap (c : Char) : Bool := isSpace c || isBreak c

def endsWord : List Char → Bool
  | [] => true
  | c :: _ => isGap c

def isNameChar (c : Char) : Bool := c.isAlphanum || c == '_' || c == '-'

def isDelimiter (cs : List Char) : Bool :=
  (cs.take 3 == ['-', '-', '-'] || cs.take 3 == ['.', '.', '.']) && endsWord (cs.drop 3)

structure Mark where
  index : Nat := 0
  line : Nat := 0
  column : Nat := 0
  deriving DecidableEq

namespace Mark

def after (m : Mark) (c : Char) : Mark :=
  if isBreak c then ⟨m.index + 1, m.line + 1, 0⟩ else ⟨m.index + 1, m.line, m.column + 1⟩

def afterAll (m : Mark) (cs : List Char) : Mark := cs.foldl after m

end Mark

structure Cursor where
  rest : List Char
  mark : Mark := {}
  deriving DecidableEq

namespace Cursor

def skip (c : Cursor) (n : Nat) : Cursor := ⟨c.rest.drop n, c.mark.afterAll (c.rest.take n)⟩

def run (c : Cursor) (p : Char → Bool) : List Char × Cursor :=
  let cs := c.rest.takeWhile p
  (cs, ⟨c.rest.dropWhile p, c.mark.afterAll cs⟩)

def pass (c : Cursor) (p : Char → Bool) : Cursor := (c.run p).2

def passLine (c : Cursor) : Cursor := c.pass (!isBreak ·)

/-- Past the rest of a line that may hold nothing but spaces and a comment. -/
def endLine? (c : Cursor) : Option Cursor :=
  let c := c.pass isSpace
  let c := if c.rest.head? = some '#' then c.passLine else c
  match c.rest with
  | [] => some c
  | b :: _ => if isBreak b then some (c.skip 1) else none

end Cursor

end Changeover.Yaml
