import Changeover.Json.Tree

/-!
# Reading JSON

The grammar of JSON: one value with blanks around it and nothing else. Escaped surrogates must
pair up for a string to be a text; a string in which they do not is kept apart and not refused.
Numbers are recognised and not converted.
-/

namespace Changeover.JsonTree

def isGap (c : Char) : Bool := c == ' ' || c == '\n' || c == '\t' || c == '\r'

def skipGaps (cs : List Char) : List Char := cs.dropWhile isGap

/-- A part of a string: a character as it is, or a code unit given by four hexadecimal digits. -/
inductive Piece where
  | char (c : Char)
  | unit (n : Nat)
  deriving DecidableEq

def hexValue? (c : Char) : Option Nat :=
  if '0' ≤ c ∧ c ≤ '9' then some (c.toNat - '0'.toNat)
  else if 'a' ≤ c ∧ c ≤ 'f' then some (c.toNat - 'a'.toNat + 10)
  else if 'A' ≤ c ∧ c ≤ 'F' then some (c.toNat - 'A'.toNat + 10)
  else none

def hexValue4? (a b c d : Char) : Option Nat := do
  pure ((((← hexValue? a) * 16 + (← hexValue? b)) * 16 + (← hexValue? c)) * 16 + (← hexValue? d))

def escaped? (c : Char) : Option Char :=
  if c == '"' || c == '\\' || c == '/' then some c
  else if c == 'b' then some '\x08'
  else if c == 'f' then some '\x0c'
  else if c == 'n' then some '\n'
  else if c == 'r' then some '\r'
  else if c == 't' then some '\t'
  else none

def pieces : List Char → Option (List Piece × List Char)
  | [] => none
  | '"' :: r => some ([], r)
  | '\\' :: 'u' :: a :: b :: c :: d :: r =>
    match hexValue4? a b c d, pieces r with
    | some n, some (ps, r') => some (.unit n :: ps, r')
    | _, _ => none
  | '\\' :: c :: r =>
    match escaped? c, pieces r with
    | some e, some (ps, r') => some (.char e :: ps, r')
    | _, _ => none
  | c :: r =>
    if c.toNat < 0x20 || c == '\\' then none
    else match pieces r with
      | some (ps, r') => some (.char c :: ps, r')
      | none => none

def isHigh (n : Nat) : Bool := 0xd800 ≤ n && n ≤ 0xdbff

def isLow (n : Nat) : Bool := 0xdc00 ≤ n && n ≤ 0xdfff

/-- The text of the parts of a string, if every surrogate has its other half. -/
def joinPieces : List Piece → Option (List Char)
  | [] => some []
  | .char c :: ps => (joinPieces ps).map (c :: ·)
  | .unit n :: ps =>
    if isHigh n then
      match ps with
      | .unit m :: ps' =>
        if isLow m then
          (joinPieces ps').map (Char.ofNat ((n - 0xd800) * 0x400 + (m - 0xdc00) + 0x10000) :: ·)
        else none
      | _ => none
    else if isLow n then none
    else (joinPieces ps).map (Char.ofNat n :: ·)

def string? (cs : List Char) : Option (JsonString × List Char) :=
  (pieces cs).map fun (ps, r) => ((joinPieces ps).map String.ofList, r)

def digits? (cs : List Char) : Option (List Char × List Char) :=
  let ds := cs.takeWhile Char.isDigit
  if ds.isEmpty then none else some (ds, cs.dropWhile Char.isDigit)

/-- A whole part: a single zero, or digits that do not start with one. -/
def whole? : List Char → Option (List Char × List Char)
  | '0' :: r => if (r.head?.any Char.isDigit) then none else some (['0'], r)
  | cs => digits? cs

def fraction? : List Char → Option (List Char × List Char)
  | '.' :: r => (digits? r).map fun (ds, r') => ('.' :: ds, r')
  | cs => some ([], cs)

def exponent? : List Char → Option (List Char × List Char)
  | c :: r =>
    if c == 'e' || c == 'E' then
      match r with
      | s :: r' =>
        if s == '+' || s == '-' then (digits? r').map fun (ds, r'') => (c :: s :: ds, r'')
        else (digits? r).map fun (ds, r'') => (c :: ds, r'')
      | [] => none
    else some ([], c :: r)
  | [] => some ([], [])

def number? (cs : List Char) : Option (List Char × List Char) := do
  let (sign, cs) := match cs with
    | '-' :: r => (['-'], r)
    | _ => ([], cs)
  let (w, cs) ← whole? cs
  let (f, cs) ← fraction? cs
  let (e, cs) ← exponent? cs
  pure (sign ++ w ++ f ++ e, cs)

mutual

/-- One value, with at most `n` values and lists of them inside each other. -/
def value? : Nat → List Char → Option (JsonTree × List Char)
  | 0, _ => none
  | n + 1, cs =>
    match skipGaps cs with
    | 'n' :: 'u' :: 'l' :: 'l' :: r => some (.null, r)
    | 't' :: 'r' :: 'u' :: 'e' :: r => some (.bool true, r)
    | 'f' :: 'a' :: 'l' :: 's' :: 'e' :: r => some (.bool false, r)
    | '"' :: r => (string? r).map fun (s, r') => (.string s, r')
    | '[' :: r =>
      match skipGaps r with
      | ']' :: r' => some (.array [], r')
      | _ => (items? n r).map fun (ts, r') => (.array ts, r')
    | '{' :: r =>
      match skipGaps r with
      | '}' :: r' => some (.object [], r')
      | _ => (members? n r).map fun (ms, r') => (.object ms, r')
    | cs' => (number? cs').map fun (l, r) => (.number l, r)

def items? : Nat → List Char → Option (List JsonTree × List Char)
  | 0, _ => none
  | n + 1, cs =>
    match value? n cs with
    | none => none
    | some (t, r) =>
      match skipGaps r with
      | ']' :: r' => some ([t], r')
      | ',' :: r' => (items? n r').map fun (ts, r'') => (t :: ts, r'')
      | _ => none

def members? : Nat → List Char → Option (List (JsonString × JsonTree) × List Char)
  | 0, _ => none
  | n + 1, cs =>
    match skipGaps cs with
    | '"' :: r =>
      match string? r with
      | none => none
      | some (k, r') =>
        match skipGaps r' with
        | ':' :: r'' =>
          match value? n r'' with
          | none => none
          | some (t, r₃) =>
            match skipGaps r₃ with
            | '}' :: r₄ => some ([(k, t)], r₄)
            | ',' :: r₄ => (members? n r₄).map fun (ms, r₅) => ((k, t) :: ms, r₅)
            | _ => none
        | _ => none
    | _ => none

end

def parse? (s : String) : Option JsonTree :=
  match value? (2 * s.length + 2) s.toList with
  | some (t, r) => if (skipGaps r).isEmpty then some t else none
  | none => none

end Changeover.JsonTree
