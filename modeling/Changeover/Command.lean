import Changeover.Host
import Changeover.Shell.Evaluation
import Changeover.Text.Blank
import Changeover.Text.Lossy

/-!
# Commands

Programs are started on a host. A program is one of the small tools, the shell, or an executable
file that names one of them in its first line. An exit status other than zero is no error; only
programs that cannot be started or were interrupted are.
-/

namespace Changeover

/-- Exit status and output of a program that has ended. A killed program has the status -1. -/
structure CommandOutput where
  status : Int
  stdout : String
  stderr : String
  deriving DecidableEq

namespace CommandOutput

def success (o : CommandOutput) : Bool := o.status == 0

def combined (o : CommandOutput) : String :=
  let out := Text.trim o.stdout
  let err := Text.trim o.stderr
  if err.isEmpty then out else if out.isEmpty then err else out ++ "\n" ++ err

end CommandOutput

inductive CommandError where
  | notStarted (program : String) (cause : OsError)
  | notAwaited (program : String) (cause : OsError)
  | interrupted (program : String)
  deriving DecidableEq

namespace CommandError

def message : CommandError → String
  | .notStarted program cause => s!"Failed to start {program}: {cause.message}"
  | .notAwaited program cause => s!"Failed waiting for {program}: {cause.message}"
  | .interrupted program => s!"{program} was interrupted"

/-- As a fault. A cause is named again. -/
def toFault (e : CommandError) : Fault :=
  match e with
  | .notStarted _ cause | .notAwaited _ cause => ⟨e.message, [cause.message]⟩
  | .interrupted _ => ⟨e.message, []⟩

end CommandError

namespace Command

structure Finished where
  files : FileSystem
  output : CommandOutput

/-- What a process leaves at its end; its working directory is its own affair. -/
def finished (directory : Location) (s : Shell.State) : Finished where
  files := { s.files with directory }
  output := {
    status := match s.ended with
      | some (.exited n) => n
      | some .killed => -1
      | none => s.status
    stdout := Text.decodeLossy s.out
    stderr := Text.decodeLossy s.err }

def defaultSearchPath : String := "/bin:/usr/bin"

def runProgram (fs : FileSystem) (e : Environment) (name path : String) (args : List String)
    (p : Shell.Program) : Finished :=
  let (tool, called, args) := match p with
    | .tool tool => (tool, name, args)
    | .script interpreter called option => (interpreter, called, option.toList ++ path :: args)
  finished fs.directory (Shell.runToEnd tool called (args.map Shell.ofText) (.start fs e))

/-- Run a command to its end, unless an interrupt is pending. -/
def run (program : String) (args : List String) (interrupted : Bool) (e : Environment)
    (fs : FileSystem) : Except CommandError CommandOutput × FileSystem :=
  if (program :: args).any (·.toList.contains '\x00') then
    (.error (.notStarted program .nulInCommand), fs)
  else match Shell.Program.find fs ((e.get? "PATH").getD defaultSearchPath) program with
    | .error cause => (.error (.notStarted program cause), fs)
    | .ok (path, p) =>
      if interrupted then (.error (.interrupted program), fs)
      else
        let done := runProgram fs e program path args p
        (.ok done.output, done.files)

end Command

end Changeover
