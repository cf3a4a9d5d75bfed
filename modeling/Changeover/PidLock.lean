import Changeover.Files.System
import Changeover.Text.Blank
import Changeover.Fault

/-!
# Locks

One process at a time converts a host. The lock is a file that holds the number of the process. It
is written as a draft under a name of its own and then linked into place, so it is there whole or
not at all, and whatever else stands in its place counts as somebody's lock. The draft goes again,
whatever came of it.
-/

namespace Changeover

structure PidLock where
  path : Path
  pid : Nat
  deriving DecidableEq

inductive LockError where
  | locked (path : Path) (pid : Nat)
  | corrupt (path : Path)
  | io (path : Path) (cause : OsError)
  deriving DecidableEq

namespace LockError

def message : LockError → String
  | .locked path pid => s!"{path.text} locked by process {pid}"
  | .corrupt path => s!"{path.text} has invalid contents"
  | .io path cause => s!"Lock file {path.text} could not be handled: {cause.message}"

def toFault (e : LockError) : Fault :=
  match e with
  | .io _ cause => ⟨e.message, [cause.message]⟩
  | _ => ⟨e.message, []⟩

end LockError

namespace PidLock

def digitsValue (ds : List Char) : Nat := ds.foldl (fun n d => 10 * n + (d.toNat - '0'.toNat)) 0

def pidLimit : Nat := 4294967296

/-- A process number: decimal digits after an optional plus sign, below the limit. -/
def pid? (cs : List Char) : Option Nat :=
  let ds := match cs with
    | '+' :: r => r
    | r => r
  if ds.isEmpty || !ds.all Char.isDigit then none
  else if digitsValue ds < pidLimit then some (digitsValue ds) else none

def readPid (fs : FileSystem) (path : Path) : Except LockError (Option Nat) :=
  match fs.readText path with
  | .error .notFound => .ok none
  | .error e => .error (.io path e)
  | .ok s =>
    match pid? (Text.trimmed s.toList) with
    | some pid => .ok (some pid)
    | none => .error (.corrupt path)

def content (pid : Nat) : String := toString pid ++ "\n"

def filePath (directory : Path) (name : String) : Path := directory.join ⟨name ++ ".pid"⟩

/-! ### Drafts -/

structure Token where
  letters : List Char
  length : letters.length = 6
  alphanumeric : ∀ c ∈ letters, c.isAlphanum = true

namespace Token

def text (t : Token) : String := String.ofList t.letters

def letter (n : Nat) : Char := Char.ofNat (if n % 36 < 10 then 48 + n % 36 else 87 + n % 36)

theorem isAlphanum_letter (n : Nat) : (letter n).isAlphanum = true := by
  have hall : ∀ k < 36,
      (Char.ofNat (if k < 10 then 48 + k else 87 + k)).isAlphanum = true := by decide
  exact hall (n % 36) (Nat.mod_lt n (by decide))

def nth (n : Nat) : Token where
  letters := [5, 4, 3, 2, 1, 0].map fun k => letter (n / Nat.pow 36 k)
  length := rfl
  alphanumeric c hc := by
    obtain ⟨k, -, rfl⟩ := List.mem_map.mp hc
    exact isAlphanum_letter _

end Token

/-- What an acquisition meets: the tokens that are drawn one after the other, and what goes wrong
with the draft once it is there. -/
structure Circumstances where
  draw : Nat → Token := Token.nth
  filling : Option OsError := none
  linking : Option OsError := none

def hinder {α : Type} (trouble : Option OsError) (r : Except OsError α) : Except OsError α :=
  match trouble with
  | some e => .error e
  | none => r

def draftPath (directory : Path) (name : String) (t : Token) : Path :=
  filePath directory (name ++ t.text)

def draftLimit : Nat := 2147483648

/-- Make an empty draft under the first of `n` names, from the `i`th one on, that is free. -/
def createDraft (names : Nat → Path) (fs : FileSystem) :
    Nat → Nat → Except OsError (Path × FileSystem)
  | 0, _ => .error .tooManyDrafts
  | n + 1, i =>
    match fs.createNew (names i) with
    | .ok fs' => .ok (names i, fs')
    | .error .alreadyExists => createDraft names fs n (i + 1)
    | .error e => .error e

/-! ### Taking and giving back -/

/-- Whose lock it is if the place is taken. One that is gone again counts as held. -/
def recognise (fs : FileSystem) (path : Path) (pid : Nat) : Except LockError PidLock :=
  match readPid fs path with
  | .error e => .error e
  | .ok none => .error (.locked path 0)
  | .ok (some holder) => if holder = pid then .ok ⟨path, pid⟩ else .error (.locked path holder)

def publish (c : Circumstances) (draft path : Path) (pid : Nat) (fs : FileSystem) :
    Except LockError PidLock × FileSystem :=
  match hinder c.filling (fs.write draft (content pid).toUTF8) with
  | .error e => (.error (.io path e), fs)
  | .ok fs =>
    match hinder c.linking (fs.link draft path) with
    | .ok fs => (.ok ⟨path, pid⟩, fs)
    | .error .alreadyExists => (recognise fs path pid, fs)
    | .error e => (.error (.io path e), fs)

/-- Take the lock for a process. A lock that the process holds already is its own. -/
def acquireUnder (c : Circumstances) (fs : FileSystem) (directory : Path) (name : String)
    (pid : Nat) : Except LockError PidLock × FileSystem :=
  let path := filePath directory name
  match fs.makeDirectories directory with
  | (.error e, fs) => (.error (.io path e), fs)
  | (.ok (), fs) =>
    match createDraft (fun i => draftPath directory name (c.draw i)) fs draftLimit 0 with
    | .error e => (.error (.io path e), fs)
    | .ok (draft, fs) =>
      let (r, fs) := publish c draft path pid fs
      (r, (fs.removeFile draft).toOption.getD fs)

def acquire (fs : FileSystem) (directory : Path) (name : String) (pid : Nat) :
    Except LockError PidLock × FileSystem := acquireUnder {} fs directory name pid

/-- Give the lock back if the file still names its process. -/
def release (l : PidLock) (fs : FileSystem) : Except LockError Unit × FileSystem :=
  match readPid fs l.path with
  | .error e => (.error e, fs)
  | .ok holder =>
    if holder ≠ some l.pid then (.ok (), fs)
    else match fs.removeFile l.path with
      | .ok fs' => (.ok (), fs')
      | .error .notFound => (.ok (), fs)
      | .error e => (.error (.io l.path e), fs)

end PidLock

end Changeover
