/-!
# Shell scripts

The part of the POSIX shell language that maintenance scripts use: simple commands with
redirections, pipelines, lists, conditionals, loops and functions. Text is kept as octets, one
character below 256 for each byte, because a script may print bytes that are no text.
-/

namespace Changeover.Shell

/-- Text as octets: every character is below 256. -/
abbrev Octets := List Char

def ofText (s : String) : Octets := s.toUTF8.toList.map fun b => Char.ofNat b.toNat

def ofBytes (b : ByteArray) : Octets := b.toList.map fun b => Char.ofNat b.toNat

def toBytes (cs : Octets) : ByteArray := ⟨(cs.map fun c => c.toNat.toUInt8).toArray⟩

/-- The text of octets, or octets taken for characters where they are no text. -/
def toText (cs : Octets) : String := (String.fromUTF8? (toBytes cs)).getD (String.ofList cs)

inductive Modifier where
  | orText
  /-- Another text if the variable is unset, which is then its value. -/
  | orAssign
  | insteadText
  | orComplain
  /-- The value without a part at its start or at its end that a pattern fits, the shortest or the
  longest one. -/
  | without (atStart longest : Bool)
  deriving DecidableEq

/-- A part of a word. What stands in double quotes is not split. -/
inductive WordPart where
  | text (cs : Octets) (quoted : Bool)
  | parameter (name : Octets) (quoted : Bool)
  /-- A modified value. `emptyCounts` takes an empty value for an unset one. -/
  | modified (name : Octets) (emptyCounts : Bool) (modifier : Modifier) (operand : Octets)
      (quoted : Bool)
  | length (name : Octets) (quoted : Bool)
  /-- All arguments, joined by blanks or each for itself. -/
  | arguments (joined quoted : Bool)
  | arithmetic (source : Octets) (quoted : Bool)
  | output (source : Octets) (quoted : Bool)
  deriving DecidableEq

def WordPart.isQuoted : WordPart → Bool
  | .text _ q | .parameter _ q | .modified _ _ _ _ q | .length _ q | .arguments _ q
  | .arithmetic _ q | .output _ q => q

abbrev Word := List WordPart

inductive Target where
  | truncate (file : Word)
  | append (file : Word)
  | input (file : Word)
  | document (text : Word)
  | duplicate (descriptor : Nat)
  | close

structure Redirection where
  descriptor : Nat
  target : Target

inductive Command where
  /-- `later` counts the line ends that follow in the script. -/
  | simple (later : Nat) (assignments : List (Octets × Word)) (words : List Word)
      (redirections : List Redirection)
  | pipeline (commands : List Command)
  | negated (command : Command)
  | both (first second : Command)
  | either (first second : Command)
  | list (commands : List Command)
  | background (command : Command)
  | forEach (name : Octets) (words : Option (List Word)) (body : Command)
  | loop (wanted : Bool) (condition body : Command)
  | choose (condition consequence otherwise : Command)
  | select (word : Word) (cases : List (List Word × Command))
  | group (subshell : Bool) (body : Command)
  | define (name : Octets) (body : Command)
  | redirected (command : Command) (redirections : List Redirection)
  deriving Inhabited

end Changeover.Shell
