import Changeover.Text.Cut

/-!
# Paths as written

A path is a text. Its components forget repeated and trailing slashes and every `.` that does not
open a relative path; `..` stays. Joining and taking the parent work on the text, because the text
is what is shown and hashed. Nothing here looks at a file system.
-/

namespace Changeover

inductive Component where
  | root
  | here
  | up
  | name (s : String)
  deriving DecidableEq

structure Path where
  text : String
  deriving DecidableEq, Inhabited

namespace Path

open Text

def isAbsolute (p : Path) : Bool := p.text.toList.head? == some '/'

def isIdle (piece : List Char) : Bool := piece == [] || piece == ['.']

def step (piece : List Char) : Component :=
  if piece == ['.', '.'] then .up else .name (String.ofList piece)

def startsHere (p : Path) : Bool :=
  !p.isAbsolute && (cut (· == '/') p.text.toList).head? == some ['.']

/-- The part of the text before the steps: the leading slash or the leading `.`. -/
def head (p : Path) : List Char :=
  if p.isAbsolute then ['/'] else if p.startsHere then ['.'] else []

def pieces (p : Path) : List (List Char) := cut (· == '/') (p.text.toList.drop p.head.length)

def steps (p : Path) : List Component := (p.pieces.filter (!isIdle ·)).map step

def components (p : Path) : List Component :=
  (if p.isAbsolute then [.root] else if p.startsHere then [.here] else []) ++ p.steps

/-- Paths are the same when their components are. -/
def same (p q : Path) : Bool := p.components == q.components

def trimmedPieces (ps : List (List Char)) : List (List Char) :=
  (ps.reverse.dropWhile isIdle).reverse

/-- The path without its last component. The root and the empty path have no parent. -/
def parent? (p : Path) : Option Path :=
  let ps := trimmedPieces p.pieces
  if ps.isEmpty then
    if p.startsHere then some ⟨""⟩ else none
  else
    some ⟨String.ofList (p.head ++ glue '/' (trimmedPieces ps.dropLast))⟩

/-- The name the path ends with, unless it ends with `..`, `.` or the root. -/
def fileName? (p : Path) : Option String :=
  match p.steps.getLast? with
  | some (.name s) => some s
  | _ => none

/-- A path inside another one. An absolute path replaces what it is joined to. -/
def join (p q : Path) : Path :=
  if q.isAbsolute then q
  else if p.text.isEmpty || p.text.toList.getLast? == some '/' then ⟨p.text ++ q.text⟩
  else ⟨p.text ++ "/" ++ q.text⟩

instance : HDiv Path String Path := ⟨fun p s => p.join ⟨s⟩⟩

end Path

namespace Component

def text : Component → String
  | .root => "/"
  | .here => "."
  | .up => ".."
  | .name s => s

end Component

end Changeover
