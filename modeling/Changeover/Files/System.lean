import Changeover.Files.Tree
import Changeover.Path

/-!
# File systems

A file tree together with the working directory. Paths are resolved step by step: each step but
the last must lead through a directory, `..` goes back up, and a trailing slash asks for a
directory. There are no links, and every operation that the tree allows is permitted.
-/

namespace Changeover

inductive OsError where
  | notFound
  | denied
  | alreadyExists
  | notDirectory
  | isDirectory
  | nameTooLong
  | badFormat
  | notText
  | nulByte
  | nulInCommand
  | wholeTree
  | notPermitted
  | tooManyDrafts
  deriving DecidableEq, Inhabited

def OsError.message : OsError → String
  | .notFound => "No such file or directory (os error 2)"
  | .denied => "Permission denied (os error 13)"
  | .alreadyExists => "File exists (os error 17)"
  | .notDirectory => "Not a directory (os error 20)"
  | .isDirectory => "Is a directory (os error 21)"
  | .nameTooLong => "File name too long (os error 36)"
  | .badFormat => "Exec format error (os error 8)"
  | .notText => "stream did not contain valid UTF-8"
  | .nulByte => "file name contained an unexpected NUL byte"
  | .nulInCommand => "nul byte found in provided data"
  | .wholeTree => "failed to create whole tree"
  | .notPermitted => "Operation not permitted (os error 1)"
  | .tooManyDrafts => "too many temporary files exist"

structure FileSystem where
  tree : FileTree := {}
  directory : Location := []
  deriving Inhabited

namespace FileSystem

def enter (t : FileTree) (l : Location) : Except OsError Unit :=
  match t.node? l with
  | none => .error .notFound
  | some (.file ..) => .error .notDirectory
  | some .directory => .ok ()

/-- Walk down from a location, which must be a directory as long as there are steps left. A step to
the root begins anew. -/
def walk (t : FileTree) : Location → List Component → Except OsError Location
  | l, [] => .ok l
  | _, .root :: cs => walk t [] cs
  | l, .here :: cs => do
    enter t l
    walk t l cs
  | l, .up :: cs => do
    enter t l
    walk t l.dropLast cs
  | l, .name s :: cs => do
    enter t l
    if s.utf8ByteSize > 255 then throw .nameTooLong
    walk t (l ++ [s]) cs

/-- The components to walk: a trailing slash or `.` asks for one more step in place. -/
def walkSteps (p : Path) : List Component :=
  let idleEnd := match p.pieces.getLast? with
    | some piece => isIdleEnd piece p
    | none => false
  p.components ++ if idleEnd then [.here] else []
where
  isIdleEnd (piece : List Char) (p : Path) : Bool := Path.isIdle piece && !p.steps.isEmpty

def pathLimit : Nat := 4096

def follow (fs : FileSystem) (p : Path) (steps : List Component) : Except OsError Location :=
  if p.text.toList.contains '\x00' then .error .nulByte
  else if p.text.isEmpty then .error .notFound
  else if p.text.utf8ByteSize ≥ pathLimit then .error .nameTooLong
  else walk fs.tree fs.directory steps

def locate (fs : FileSystem) (p : Path) : Except OsError Location := fs.follow p (walkSteps p)

def stat (fs : FileSystem) (p : Path) : Except OsError Node := do
  let l ← fs.locate p
  match fs.tree.node? l with
  | some n => pure n
  | none => throw .notFound

def holds (fs : FileSystem) (p : Path) : Bool := (fs.stat p).toOption.isSome

def isFile (fs : FileSystem) (p : Path) : Bool := (fs.stat p).toOption.any (·.isFile)

def isDirectory (fs : FileSystem) (p : Path) : Bool := (fs.stat p).toOption.any (·.isDirectory)

def read (fs : FileSystem) (p : Path) : Except OsError ByteArray := do
  match ← fs.stat p with
  | .file content _ => pure content
  | .directory => throw .isDirectory

def readText (fs : FileSystem) (p : Path) : Except OsError String := do
  match String.fromUTF8? (← fs.read p) with
  | some s => pure s
  | none => throw .notText

/-- Put a file at the place of an old one or at a free place. The old file's permission to be
executed stays unless a new one is given. -/
def writeWith (fs : FileSystem) (p : Path) (content : ByteArray) (executable : Option Bool) :
    Except OsError FileSystem := do
  let l ← fs.locate p
  match fs.tree.node? l with
  | some .directory => throw .isDirectory
  | some (.file _ x) =>
    pure { fs with tree := fs.tree.put l (.file content (executable.getD x)) }
  | none =>
    match fs.tree.node? l.dropLast with
    | some .directory =>
      pure { fs with tree := fs.tree.put l (.file content (executable.getD false)) }
    | some (.file ..) => throw .notDirectory
    | none => throw .notFound

def write (fs : FileSystem) (p : Path) (content : ByteArray) : Except OsError FileSystem :=
  fs.writeWith p content none

def createNew (fs : FileSystem) (p : Path) : Except OsError FileSystem :=
  if fs.holds p then .error .alreadyExists else fs.writeWith p .empty (some false)

/-- Give a file a second name, where nothing is. That the two are one file is not kept: what is
written under one name later is not seen under the other. -/
def link (fs : FileSystem) (source target : Path) : Except OsError FileSystem := do
  match ← fs.stat source with
  | .directory => throw .notPermitted
  | .file content x =>
    if fs.holds target then throw .alreadyExists
    fs.writeWith target content (some x)

/-- Copy a file with its permission. A file copied onto itself ends up empty, because the target
is emptied before it is read. -/
def copy (fs : FileSystem) (source target : Path) : Except OsError FileSystem := do
  let from_ ← fs.locate source
  match fs.tree.node? from_ with
  | none => throw .notFound
  | some .directory => throw .isDirectory
  | some (.file content x) =>
    let emptied ← fs.writeWith target .empty (some x)
    if (fs.locate target).toOption == some from_ then pure emptied
    else fs.writeWith target content (some x)

/-- Create one directory. A trailing slash asks for nothing here. -/
def makeDirectory (fs : FileSystem) (p : Path) : Except OsError FileSystem := do
  let l ← fs.follow p p.components
  match fs.tree.node? l with
  | some _ => throw .alreadyExists
  | none =>
    match fs.tree.node? l.dropLast with
    | some .directory => pure { fs with tree := fs.tree.put l .directory }
    | some (.file ..) => throw .notDirectory
    | none => throw .notFound

/-- Create a directory and those above it, trying the longest path first, with at most `n` parents.
Directories made before a failure stay. -/
def makeParents : Nat → Path → FileSystem → Except OsError Unit × FileSystem
  | 0, _, fs => (.error .wholeTree, fs)
  | n + 1, p, fs =>
    if p.text.isEmpty then (.ok (), fs)
    else match fs.makeDirectory p with
      | .ok fs' => (.ok (), fs')
      | .error .notFound =>
        match p.parent? with
        | none => (.error .wholeTree, fs)
        | some parent =>
          match makeParents n parent fs with
          | (.error e, fs') => (.error e, fs')
          | (.ok (), fs') =>
            match fs'.makeDirectory p with
            | .ok fs'' => (.ok (), fs'')
            | .error e => if fs'.isDirectory p then (.ok (), fs') else (.error e, fs')
      | .error e => if fs.isDirectory p then (.ok (), fs) else (.error e, fs)

def makeDirectories (fs : FileSystem) (p : Path) : Except OsError Unit × FileSystem :=
  makeParents (p.text.length + 1) p fs

def removeFile (fs : FileSystem) (p : Path) : Except OsError FileSystem := do
  let l ← fs.locate p
  match fs.tree.node? l with
  | some (.file ..) => pure { fs with tree := fs.tree.erase l }
  | some .directory => throw .isDirectory
  | none => throw .notFound

/-- Remove a directory with all that is in it. The working directory is emptied, but it is in use
and stays. -/
def removeTree (fs : FileSystem) (p : Path) : Except OsError Unit × FileSystem :=
  match fs.locate p with
  | .error e => (.error e, fs)
  | .ok l =>
    match fs.tree.node? l with
    | none => (.error .notFound, fs)
    | some (.file ..) => (.error .notDirectory, fs)
    | some .directory =>
      if l = fs.directory then
        (.error .notDirectory, { fs with tree := (fs.tree.prune l).put l .directory })
      else (.ok (), { fs with tree := fs.tree.prune l })

end FileSystem

end Changeover
