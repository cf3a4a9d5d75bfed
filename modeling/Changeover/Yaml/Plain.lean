import Changeover.Yaml.Gap

/-!
# Plain scalars

A plain scalar ends before a comment, before a colon that ends a word, within brackets before any
indicator of theirs, and where the text is indented too little.
-/

namespace Changeover.Yaml

structure Reading where
  text : String
  overLine : Bool := false
  next : Cursor

namespace Plain

def isFlowIndicator (c : Char) : Bool :=
  c == ',' || c == '[' || c == ']' || c == '{' || c == '}'

/-- Whether a colon stands before an indicator, which is refused within brackets. -/
def isStuckColon : List Char → Bool
  | ':' :: c :: _ => c == '?' || isFlowIndicator c
  | _ => false

def ends (flow : Bool) : List Char → Bool
  | [] => true
  | ':' :: cs => endsWord cs
  | c :: _ => flow && isFlowIndicator c

def endsAfter (flow : Bool) (margin : Nat) (g : Gap) (cs : List Char) (m : Mark) : Bool :=
  (g.isOver && !flow && m.column < margin) || (m.column == 0 && isDelimiter cs) ||
    (g ≠ .none && cs.head? = some '#')

/-- What is left of a scalar, given its text so far, the last character first. -/
def scanFrom (flow : Bool) (margin : Nat) (text : List Char) (g : Gap) :
    List Char → Mark → Option Reading
  | [], m => some ⟨String.ofList text.reverse, g.isOver, ⟨[], m⟩⟩
  | c :: cs, m =>
    if isGap c then
      if g.isOver && c == '\t' && m.column < margin then none
      else scanFrom flow margin text (g.push c) cs (m.after c)
    else if endsAfter flow margin g (c :: cs) m then
      some ⟨String.ofList text.reverse, g.isOver, ⟨c :: cs, m⟩⟩
    else if flow && isStuckColon (c :: cs) then none
    else if ends flow (c :: cs) then
      some ⟨String.ofList text.reverse, g.isOver, ⟨c :: cs, m⟩⟩
    else scanFrom flow margin (c :: (g.folded ++ text)) .none cs (m.after c)

def scan? (flow : Bool) (margin : Nat) (c : Cursor) : Option Reading :=
  scanFrom flow margin [] .none c.rest c.mark

end Plain

end Changeover.Yaml
