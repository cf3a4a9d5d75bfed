import Changeover.Yaml.Plain

/-!
# Quoted scalars

Between single quotes a quote is written twice and all else stands for itself. Between double
quotes a backslash begins an escape: a letter, the number of a character, or the end of the line,
which then stands for nothing. Line breaks are folded in both.
-/

namespace Changeover.Yaml.Quoted

def escaped? (c : Char) : Option Char :=
  ([('0', 0x00), ('a', 0x07), ('b', 0x08), ('t', 0x09), ('\t', 0x09), ('n', 0x0a), ('v', 0x0b),
    ('f', 0x0c), ('r', 0x0d), ('e', 0x1b), (' ', 0x20), ('"', 0x22), ('/', 0x2f), ('\\', 0x5c),
    ('N', 0x85), ('_', 0xa0), ('L', 0x2028), ('P', 0x2029)].lookup c).map Char.ofNat

def digits? (c : Char) : Option Nat := [('x', 2), ('u', 4), ('U', 8)].lookup c

def hexValue? (c : Char) : Option Nat :=
  if '0' ≤ c ∧ c ≤ '9' then some (c.toNat - '0'.toNat)
  else if 'a' ≤ c ∧ c ≤ 'f' then some (c.toNat - 'a'.toNat + 10)
  else if 'A' ≤ c ∧ c ≤ 'F' then some (c.toNat - 'A'.toNat + 10)
  else none

def character? (n : Nat) : Option Char := if n.isValidChar then some (Char.ofNat n) else none

inductive State where
  | text
  /-- After a single quote, which closes the scalar unless another one follows. -/
  | quote
  | escape
  /-- Inside the number of a character: the digits still to come, and the number so far. -/
  | number (owed value : Nat)
  deriving DecidableEq

/-- The state and the gap after a backslash and this character, and the character it stands for. -/
def escape? (c : Char) : Option (State × Gap × List Char) :=
  if isBreak c then some (.text, .over none [], [])
  else match digits? c with
    | some n => some (.number n 0, .none, [])
    | none => (escaped? c).map fun e => (.text, .none, [e])

def number? (owed value : Nat) (c : Char) : Option (State × List Char) := do
  let value := value * 16 + (← hexValue? c)
  if owed ≤ 1 then pure (.text, [← character? value]) else pure (.number (owed - 1) value, [])

def scanFrom (single : Bool) (s : State) (text : List Char) (g : Gap) :
    List Char → Mark → Option Reading
  | [], m => if s = .quote then some ⟨String.ofList text.reverse, false, ⟨[], m⟩⟩ else none
  | c :: cs, m =>
    match s with
    | .quote =>
      if c == '\'' then scanFrom single .text (c :: text) .none cs (m.after c)
      else some ⟨String.ofList text.reverse, false, ⟨c :: cs, m⟩⟩
    | .escape => do
      let (s, g, es) ← escape? c
      scanFrom single s (es ++ text) g cs (m.after c)
    | .number owed value => do
      let (s, es) ← number? owed value c
      scanFrom single s (es ++ text) .none cs (m.after c)
    | .text =>
      if isGap c then scanFrom single .text text (g.push c) cs (m.after c)
      else if m.column == 0 && isDelimiter (c :: cs) then none
      else
        let text := g.folded ++ text
        if single then
          if c == '\'' then scanFrom single .quote text .none cs (m.after c)
          else scanFrom single .text (c :: text) .none cs (m.after c)
        else if c == '"' then some ⟨String.ofList text.reverse, false, ⟨cs, m.after c⟩⟩
        else if c == '\\' then scanFrom single .escape text .none cs (m.after c)
        else scanFrom single .text (c :: text) .none cs (m.after c)

def scan? (single : Bool) (c : Cursor) : Option Reading :=
  scanFrom single .text [] .none c.rest c.mark

end Changeover.Yaml.Quoted
