import Changeover.Shell.State
import Changeover.Text.Blank

/-!
# Programs

A program is one of the small tools, the shell, or an executable file that names one of them in
its first line.
-/

namespace Changeover.Shell

inductive Program where
  | tool (name : String)
  /-- A file to be run by an interpreter, which is called by some text and may have an argument of
  its own. -/
  | script (interpreter called : String) (option : Option String)
  deriving DecidableEq

namespace Program

def isShell (name : String) : Bool := name == "sh" || name == "dash"

def isTool (name : String) : Bool :=
  isShell name ||
    ["true", "false", "echo", "printf", "cat", "wc", "tr", "sleep", "test", "["].contains name

def toolDirectories : List (List String) := [["usr", "bin"], ["bin"]]

def namesFromRoot? (path : String) : Option (List String) :=
  let p : Path := ⟨path⟩
  if p.isAbsolute then
    some (p.steps.foldl (fun names c => match c with
      | .name s => names ++ [s]
      | .up => names.dropLast
      | _ => names) [])
  else none

def toolAt? (path : String) : Option String := do
  let names ← namesFromRoot? path
  if toolDirectories.contains names.dropLast then names.getLast?.filter isTool else none

def isToolDirectory (path : String) : Bool :=
  (namesFromRoot? path).any fun names => toolDirectories.any (names.isPrefixOf ·)

def interpreter? (content : ByteArray) : Option (String × String × Option String) :=
  let isGap (c : Char) : Bool := c == ' ' || c == '\t'
  match ofBytes content with
  | '#' :: '!' :: r =>
    let line := State.strip [' ', '\t'] (r.takeWhile (· != '\n'))
    let path := line.takeWhile (!isGap ·)
    let option := (line.drop path.length).dropWhile isGap
    if path.isEmpty then none
    else if path == "/usr/bin/env".toList then
      some ("/usr/bin/" ++ toText option, toText option, none)
    else some (toText path, toText path, if option.isEmpty then none else some (toText option))
  | _ => none

def inFile (fs : FileSystem) (path : String) : Except OsError Program := do
  match ← fs.stat ⟨path⟩ with
  | .directory => throw .denied
  | .file content x =>
    if !x then throw .denied
    match interpreter? content with
    | none => throw .badFormat
    | some (i, called, option) =>
      match toolAt? i with
      | some name => pure (.script name called option)
      | none => throw .notFound

def atPath (fs : FileSystem) (path : String) : Except OsError Program :=
  match inFile fs path, toolAt? path with
  | .error .notFound, some name => .ok (.tool name)
  | .error .notFound, none => .error (if isToolDirectory path then .denied else .notFound)
  | r, _ => r

/-- The first of several paths at which there is a program. A program that may not be run is only
reported if there is no other. -/
def firstOf (fs : FileSystem) :
    List String → Option OsError → Except OsError (String × Program)
  | [], denied => .error (denied.getD .notFound)
  | path :: paths, denied =>
    match atPath fs path with
    | .ok p => .ok (path, p)
    | .error .badFormat => .error .badFormat
    | .error .denied => firstOf fs paths (some .denied)
    | .error _ => firstOf fs paths denied

/-- Look a program up: by path if the name has a slash, else in the directories of a search
path. -/
def find (fs : FileSystem) (searchPath : String) (name : String) :
    Except OsError (String × Program) :=
  if name.isEmpty then .error .notFound
  else if name.toList.contains '/' then (atPath fs name).map (name, ·)
  else
    let directories := Text.splitAt ':' searchPath
    firstOf fs (directories.map fun d => if d.isEmpty then name else d ++ "/" ++ name) none

end Program

end Changeover.Shell
