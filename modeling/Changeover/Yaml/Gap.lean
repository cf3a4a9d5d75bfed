import Changeover.Yaml.Character

/-!
# Gaps between words

A plain or quoted scalar may run over several lines. What stands between two of its words is read
as a gap and folded: spaces within a line stay, and a single line feed becomes one space.
-/

namespace Changeover.Yaml

inductive Gap where
  /-- Spaces within a line, the last first. -/
  | within (spaces : List Char)
  /-- The first line break, if it counts, and the further ones, the last first. -/
  | over (first : Option Char) (more : List Char)
  deriving DecidableEq

namespace Gap

def none : Gap := .within []

def isOver : Gap → Bool
  | .within _ => false
  | .over _ _ => true

/-- With one more space or line break. Spaces at the end and at the start of a line are dropped. -/
def push (g : Gap) (c : Char) : Gap :=
  match g with
  | .within spaces => if isBreak c then .over (some c) [] else .within (c :: spaces)
  | .over first more => if isBreak c then .over first (c :: more) else g

def folded : Gap → List Char
  | .within spaces => spaces
  | .over (some '\n') [] => [' ']
  | .over (some '\n') more => more
  | .over first more => more ++ first.toList

end Gap

end Changeover.Yaml
