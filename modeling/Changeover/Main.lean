import Changeover.Cli.Footprint

/-!
# The program

Reads the files a command may touch, runs the command on them, and writes what it changed. A
conversion that comes to the point of no return is run as declined first; if the operator then
accepts, it is run again from the same files, and only the last run is written.
-/

namespace Changeover.Program

/-- Add what stands at a location to a tree, with all below it or alone. Whether a file may be
executed is not looked at. -/
partial def load (deep : Bool) (t : FileTree) (l : Location) : IO FileTree := do
  match ← (do (← IO.FS.realPath (Location.text l)).readDir).toBaseIO with
  | .ok entries =>
    let t := t.put l .directory
    if deep then entries.foldlM (fun t e => load true t (l ++ [e.fileName])) t else pure t
  | .error _ =>
    match ← (IO.FS.readBinFile (Location.text l)).toBaseIO with
    | .ok content => pure (t.put l (.file content true))
    | .error _ => pure t

def loadPath (deep : Bool) (fs : FileSystem) (p : Path) : IO FileSystem := do
  let l := p.locationFrom fs.directory
  let t ← (Location.way l).foldlM (load false) fs.tree
  pure { fs with tree := ← load deep t l }

def store (before after : FileTree) : IO Unit := do
  for l in FileTree.gone before after do
    match before.node? l with
    | some .directory => IO.FS.removeDir (Location.text l)
    | _ => IO.FS.removeFile (Location.text l)
  for (l, n) in FileTree.fresh before after do
    match n with
    | .directory => IO.FS.createDirAll (Location.text l)
    | .file content _ => IO.FS.writeBinFile (Location.text l) content

def environment : IO Environment := do
  let content ← IO.FS.readBinFile "/proc/self/environ"
  let settings := Text.splitAt '\x00' (Text.decodeLossy content)
  pure ⟨settings.map fun s =>
    let cs := s.toList
    (String.ofList (cs.takeWhile (· != '=')), String.ofList ((cs.dropWhile (· != '=')).drop 1))⟩

def pid : IO Nat := do
  let stat ← IO.FS.readFile "/proc/self/stat"
  pure (((Text.words stat).head?.bind String.toNat?).getD 0)

/-- Seconds since 1970: the time the system was started, and how long ago that was. -/
def now : IO Int := do
  let stat ← IO.FS.readFile "/proc/stat"
  let started := (Text.lines stat).findSome? fun line =>
    match Text.words line with
    | ["btime", n] => n.toNat?
    | _ => none
  pure (started.getD 0 + (← IO.monoMsNow) / 1000)

def runName : IO String := do
  let part (digits : Nat) : IO String := do
    let n ← IO.rand 0 (Nat.pow 16 digits - 1)
    let text := String.ofList (Nat.toDigits 16 n)
    pure ("".pushn '0' (digits - text.length) ++ text)
  pure ("-".intercalate [← part 8, ← part 4, "4" ++ (← part 3), "8" ++ (← part 3), ← part 12])

def stamp : IO Stamp := do
  let time ← now
  pure ⟨← runName, time, time⟩

def picture (e : Environment) (i : Cli.Invocation) : IO FileSystem := do
  let directory := Path.locationFrom [] ⟨(← IO.currentDir).toString⟩
  let fs ← loadPath false { directory } i.config
  match i.command, Config.ofFile e fs i.config with
  | .convert .., .ok c | .analyze _, .ok c =>
    let fs ← (Cli.pathsTouched c).foldlM (loadPath false) fs
    (Cli.directoriesTouched c).foldlM (loadPath true) fs
  | _, _ => pure fs

def perform (w : Cli.Surroundings) (args : List String) (h : Host) : IO Cli.CommandEnd := do
  let declined := Cli.run w args h
  if !declined.asked then pure declined
  else
    IO.print Cli.question
    (← IO.getStdout).flush
    if Cli.isYes (← (← IO.getStdin).getLine) then
      pure (Cli.run { w with answer := ⟨true, false⟩ } args h)
    else pure declined

end Changeover.Program

open Changeover in
def main (args : List String) : IO UInt32 := do
  let environment ← Program.environment
  let stamps : Stamps := ⟨← Program.stamp, ← Program.stamp⟩
  let w : Cli.Surroundings := { pid := ← Program.pid, stamps }
  let files ← match Cli.invocation environment args with
    | .ok i => Program.picture environment i
    | .error _ => pure {}
  let done ← Program.perform w args { files, environment }
  Program.store files.tree done.host.files.tree
  IO.print done.output
  IO.eprint done.errors
  pure done.exit.toUInt32
