import Changeover.Shell.Syntax

/-!
# Patterns

A star stands for any text, a question mark for one character, and brackets for one of several. A
backslash takes the meaning from the character after it.
-/

namespace Changeover.Shell.Pattern

def quote (cs : Octets) : Octets := cs.flatMap fun c => ['\\', c]

def listed (c : Char) : Octets → Bool
  | a :: '-' :: b :: r => (a ≤ c && c ≤ b) || listed c r
  | a :: r => a == c || listed c r
  | [] => false

/-- What stands between brackets, after the opening one, and what follows the closing one. The
first character is never the closing bracket. -/
def bracketed? : Octets → Option (Octets × Octets)
  | [] => none
  | a :: r =>
    let inner := r.takeWhile (· != ']')
    match r.drop inner.length with
    | _ :: r => some (a :: inner, r)
    | [] => none

def admits (inner : Octets) (c : Char) : Bool :=
  match inner with
  | '!' :: rest => !listed c rest
  | rest => listed c rest

/-- Whether a pattern fits a text; the bound is on the two together. -/
def fitsFrom : Nat → Octets → Octets → Bool
  | 0, _, _ => false
  | _, [], cs => cs.isEmpty
  | n + 1, '*' :: p, cs =>
    fitsFrom n p cs || (match cs with
      | [] => false
      | _ :: cs => fitsFrom n ('*' :: p) cs)
  | n + 1, '?' :: p, _ :: cs => fitsFrom n p cs
  | n + 1, '[' :: p, c :: cs =>
    match bracketed? p with
    | some (inner, p) => admits inner c && fitsFrom n p cs
    | none => c == '[' && fitsFrom n p cs
  | n + 1, '\\' :: a :: p, c :: cs => a == c && fitsFrom n p cs
  | n + 1, a :: p, c :: cs => a == c && fitsFrom n p cs
  | _, _ :: _, [] => false

def fits (pattern cs : Octets) : Bool := fitsFrom (pattern.length + cs.length + 1) pattern cs

def without (atStart longest : Bool) (pattern cs : Octets) : Octets :=
  let lengths := List.range (cs.length + 1)
  let lengths := if longest then lengths.reverse else lengths
  let part (n : Nat) : Octets := if atStart then cs.take n else cs.drop (cs.length - n)
  match lengths.find? fun n => fits pattern (part n) with
  | some n => if atStart then cs.drop n else cs.take (cs.length - n)
  | none => cs

end Changeover.Shell.Pattern
