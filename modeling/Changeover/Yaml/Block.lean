import Changeover.Yaml.Plain

/-!
# Block scalars

The header of a block scalar tells how line breaks at its end are kept and, if need be, how far it
is indented; otherwise its first line that is not blank does. A literal scalar keeps its lines. A
folded one joins neighbouring lines, unless one of them begins with a space.
-/

namespace Changeover.Yaml.Block

inductive Chomping where
  | strip | clip | keep
  deriving DecidableEq

structure Header where
  chomping : Chomping := .clip
  increment : Option Nat := none

def chomping? (c : Char) : Option Chomping :=
  if c == '+' then some .keep else if c == '-' then some .strip else none

def increment? (c : Char) : Option Nat :=
  if '1' ≤ c ∧ c ≤ '9' then some (c.toNat - '0'.toNat) else none

/-- The header: at most one sign and one digit in any order, and how many characters they are. -/
def header : List Char → Header × Nat
  | a :: b :: _ =>
    match chomping? a, increment? a, chomping? b, increment? b with
    | some k, _, _, some n => (⟨k, some n⟩, 2)
    | _, some n, some k, _ => (⟨k, some n⟩, 2)
    | some k, _, _, _ => (⟨k, none⟩, 1)
    | _, some n, _, _ => (⟨.clip, some n⟩, 1)
    | _, _, _, _ => ({}, 0)
  | [a] =>
    match chomping? a, increment? a with
    | some k, _ => (⟨k, none⟩, 1)
    | _, some n => (⟨.clip, some n⟩, 1)
    | _, _ => ({}, 0)
  | [] => ({}, 0)

structure Lead where
  breaks : List Char
  deepest : Nat
  next : Cursor

/-- Blank lines, and the next line's spaces up to the indentation if it is known. A tab cannot
indent. -/
def leadFrom (indent : Option Nat) (breaks : List Char) (deepest : Nat) :
    List Char → Mark → Option Lead
  | [], m => some ⟨breaks, max deepest m.column, ⟨[], m⟩⟩
  | c :: cs, m =>
    let below := match indent with
      | some n => m.column < n
      | none => true
    if below && c == ' ' then leadFrom indent breaks deepest cs (m.after c)
    else if below && c == '\t' then none
    else if isBreak c then leadFrom indent (c :: breaks) (max deepest m.column) cs (m.after c)
    else some ⟨breaks, max deepest m.column, ⟨c :: cs, m⟩⟩

def lead? (indent : Option Nat) (c : Cursor) : Option Lead := leadFrom indent [] 0 c.rest c.mark

structure Lines where
  /-- The text so far, the last character first. -/
  text : List Char := []
  lastBreak : Option Char := none
  /-- The breaks of the blank lines after it, the last first. -/
  blank : List Char := []
  spaced : Bool := false

namespace Lines

def joint (literal : Bool) (l : Lines) (spaced : Bool) : List Char :=
  if !literal && l.lastBreak == some '\n' && !l.spaced && !spaced then
    if l.blank.isEmpty then [' '] else l.blank
  else l.blank ++ l.lastBreak.toList

def finish (l : Lines) : Chomping → String
  | .strip => String.ofList l.text.reverse
  | .clip => String.ofList (l.lastBreak.toList ++ l.text).reverse
  | .keep => String.ofList (l.blank ++ l.lastBreak.toList ++ l.text).reverse

end Lines

def linesFrom (literal : Bool) (indent : Nat) : Nat → Lines → Cursor → Option (Lines × Cursor)
  | 0, l, c => some (l, c)
  | fuel + 1, l, c =>
    match c.rest with
    | [] => some (l, c)
    | first :: _ =>
      if c.mark.column ≠ indent then some (l, c)
      else do
        let spaced := isSpace first
        let (line, c) := c.run (!isBreak ·)
        let text := line.reverse ++ l.joint literal spaced ++ l.text
        let lastBreak := c.rest.head?
        let next ← lead? indent (c.skip 1)
        linesFrom literal indent fuel ⟨text, lastBreak, next.breaks, spaced⟩ next.next

/-- A scalar after its indicator. The margin is one more than the column of the collection around
it. -/
def scan? (literal : Bool) (margin : Nat) (c : Cursor) : Option Reading := do
  let (h, n) := header c.rest
  let c ← (c.skip n).endLine?
  let told := h.increment.map (margin - 1 + ·)
  let first ← lead? told c
  let indent := told.getD (max (max first.deepest margin) 1)
  let (l, c) ← linesFrom literal indent (c.rest.length + 1) ⟨[], none, first.breaks, false⟩
    first.next
  pure ⟨l.finish h.chomping, false, c⟩

end Changeover.Yaml.Block
