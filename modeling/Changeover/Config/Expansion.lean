import Changeover.Environment
import Changeover.Text.Alphanumeric

/-!
# Variables in paths

A path may name variables of the environment, with a value for when they are unset, and may begin
with a tilde for the home directory. The value of a variable is not expanded again; in particular
a tilde it begins with stays.
-/

namespace Changeover

namespace Expansion

def isVariableChar (c : Char) : Bool := Text.isAlphanumeric c || c == '_'

def splitDefault? : List Char → Option (List Char × List Char)
  | [] => none
  | ':' :: '-' :: cs => some ([], cs)
  | c :: cs => (splitDefault? cs).map fun (before, after) => (c :: before, after)

/-- The name between braces, and the value for when it is unset. A value needs a name. -/
def nameAndDefault (cs : List Char) : String × Option (List Char) :=
  match splitDefault? cs with
  | some (c :: name, value) => (String.ofList (c :: name), some value)
  | _ => (String.ofList cs, none)

def value (e : Environment) (name : String) (unset : Option (List Char)) :
    Except String (List Char) :=
  match e.get? name, unset with
  | some v, _ => .ok v.toList
  | none, some v => .ok v
  | none, none => .error name

/-- With the values of variables in place of their names. The error is the name of a variable that
is unset. A dollar sign that begins no name stays, and two of them make one. -/
def substitute (e : Environment) : List Char → Except String (List Char)
  | [] => .ok []
  | '$' :: '{' :: cs =>
    match h : cs.dropWhile (· != '}') with
    | [] => do pure ('$' :: '{' :: (← substitute e cs))
    | _ :: rest => do
      let (name, unset) := nameAndDefault (cs.takeWhile (· != '}'))
      let v ← value e name unset
      have : rest.length < cs.length := by
        have := (List.dropWhile_suffix (l := cs) (· != '}')).length_le
        rw [h, List.length_cons] at this
        omega
      pure (v ++ (← substitute e rest))
  | '$' :: '$' :: cs => do pure ('$' :: (← substitute e cs))
  | '$' :: c :: cs =>
    if isVariableChar c then do
      let v ← value e (String.ofList (c :: cs.takeWhile isVariableChar)) none
      have := (List.dropWhile_suffix (l := cs) isVariableChar).length_le
      pure (v ++ (← substitute e (cs.dropWhile isVariableChar)))
    else do pure ('$' :: (← substitute e (c :: cs)))
  | c :: cs => do pure (c :: (← substitute e cs))
termination_by cs => cs.length

def tilde (e : Environment) : List Char → List Char
  | ['~'] => e.home.toList
  | '~' :: '/' :: cs => e.home.toList ++ '/' :: cs
  | cs => cs

def expand (e : Environment) (s : String) : Except String String := do
  let cs ← substitute e s.toList
  let fromVariable := s.toList.head? ≠ some '~'
  pure (String.ofList (if fromVariable then cs else tilde e cs))

end Expansion

end Changeover
