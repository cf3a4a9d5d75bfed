import Changeover.Environment
import Changeover.Files.System
import Changeover.Shell.Tools

/-!
# The state of a running script

A script runs on a file system, with arguments and input, and leaves what it printed, its exit
status and the changed files. Commands of the shell that only change this state are told here.
-/

namespace Changeover.Shell

inductive ProcessEnd where
  | exited (status : Nat)
  | killed
  deriving DecidableEq

inductive Sink where
  | out
  | err
  | file (path : String)
  | closed
  deriving DecidableEq

inductive Jump where
  /-- Out of so many loops. -/
  | leave (loops : Nat)
  /-- Out of all but one of so many loops, which then goes on. -/
  | again (loops : Nat)
  | back
  deriving DecidableEq

structure State where
  files : FileSystem
  name : Octets := ofText "sh"
  arguments : List Octets := []
  bindings : List (Octets × Octets) := []
  exported : List Octets := []
  functions : List (Octets × Command) := []
  status : Nat := 0
  input : Octets := []
  out : ByteArray := .empty
  err : ByteArray := .empty
  outTo : Sink := .out
  errTo : Sink := .err
  sinks : List (Nat × Sink) := []
  ended : Option ProcessEnd := none
  jump : Option Jump := none
  /-- Whether a failure ends the script. -/
  strict : Bool := false
  /-- Whether a failure may happen here even so, because it is asked for. -/
  tested : Bool := false
  /-- Whether the value of an unset variable ends the script. -/
  careful : Bool := false
  traced : Bool := false
  lines : Nat := 0
  line : Nat := 1
  /-- Scripts to run on signals, by the names of these, and at the end. An empty one makes the
  signal harmless. -/
  traps : List (String × Octets) := []
  pending : Octets := []
  /-- Variables of the function that runs, with their values outside. -/
  locals : List (Octets × Option Octets) := []

namespace State

def start (files : FileSystem) (e : Environment) : State where
  files := files
  bindings := e.bindings.map fun (k, v) => (ofText k, ofText v)
  exported := e.bindings.map fun (k, _) => ofText k

def halted (s : State) : Bool := s.ended.isSome || s.jump.isSome

/-! ### Output -/

def appendFile (fs : FileSystem) (path : String) (b : ByteArray) : FileSystem :=
  let old := (fs.read ⟨path⟩).toOption.getD .empty
  (fs.write ⟨path⟩ (old ++ b)).toOption.getD fs

def printTo (s : State) (sink : Sink) (cs : Octets) : State :=
  match sink with
  | .out => { s with out := s.out ++ toBytes cs }
  | .err => { s with err := s.err ++ toBytes cs }
  | .file "/dev/null" | .closed => s
  | .file path => { s with files := appendFile s.files path (toBytes cs) }

def sink (s : State) (descriptor : Nat) : Sink :=
  if descriptor = 1 then s.outTo else if descriptor = 2 then s.errTo
  else (s.sinks.lookup descriptor).getD .closed

def point (s : State) (descriptor : Nat) (sink : Sink) : State :=
  if descriptor = 1 then { s with outTo := sink }
  else if descriptor = 2 then { s with errTo := sink }
  else { s with sinks := (descriptor, sink) :: s.sinks }

def printed (s : State) (p : Printed) : State :=
  { (s.printTo s.outTo p.out).printTo s.errTo p.err with
    status := p.status
    input := if p.drained then [] else s.input }

def complain (s : State) (status : Nat) (message : String) : State :=
  { s.printTo s.errTo (s.name ++ ofText s!": {s.line}: {message}\n") with status }

def abort (s : State) (message : String) : State :=
  { s.complain 2 message with ended := some (.exited 2) }

/-! ### Variables -/

def value? (s : State) (name : Octets) : Option Octets :=
  match name with
  | ['?'] => some (ofText (toString s.status))
  | ['#'] => some (ofText (toString s.arguments.length))
  | ['0'] => some s.name
  | ['$'] => some "$$".toList
  | c :: cs =>
    if c.isDigit then s.arguments[(number (c :: cs)).toNat - 1]? else s.bindings.lookup name
  | [] => none

def valueOf (s : State) (name : Octets) : Octets := (s.value? name).getD []

def assign (s : State) (name value : Octets) : State :=
  { s with bindings := (name, value) :: s.bindings.filter (·.1 != name) }

def unset (s : State) (name : Octets) : State :=
  { s with bindings := s.bindings.filter (·.1 != name) }

def splitAssignment (arg : Octets) : Octets × Option Octets :=
  let name := arg.takeWhile (· != '=')
  match arg.drop name.length with
  | _ :: value => (name, some value)
  | [] => (name, none)

def declare (s : State) (args : List Octets) : State :=
  args.foldl (fun s arg =>
    match splitAssignment arg with
    | (name, some value) => s.assign name value
    | (_, none) => s) { s with status := 0 }

def declareLocal (s : State) (args : List Octets) : State :=
  let names := args.map (splitAssignment · |>.1)
  { s with locals := names.map (fun n => (n, s.bindings.lookup n)) ++ s.locals }.declare args

def restoreLocals (s : State) : State :=
  s.locals.foldl (fun s (name, value) =>
    match value with
    | some v => s.assign name v
    | none => s.unset name) s

def exportAll (s : State) (args : List Octets) : State :=
  { s.declare args with exported := s.exported ++ args.map (splitAssignment · |>.1) }

def separators (s : State) : Octets := (s.value? (ofText "IFS")).getD [' ', '\t', '\n']

/-! ### Commands of the shell -/

/-- Switches of the shell; the arguments after them stay. -/
def switches (s : State) : List Octets → State × Option (List Octets)
  | [] => (s, none)
  | ['-', '-'] :: args => (s, some args)
  | (c :: letters) :: args =>
    if (c == '-' || c == '+') && !letters.isEmpty then
      let on := c == '-'
      let s := letters.foldl (fun s l =>
        if l == 'e' then { s with strict := on }
        else if l == 'u' then { s with careful := on }
        else if l == 'x' then { s with traced := on } else s) s
      s.switches args
    else (s, some ((c :: letters) :: args))
  | [] :: args => (s, some ([] :: args))

/-- The operand of `exit` and its like: a status, or none. -/
def statusOperand (s : State) (command : String) (args : List Octets) (go : Nat → State) :
    State :=
  match args with
  | [] => go s.status
  | a :: _ =>
    if !a.isEmpty && a.all Char.isDigit then go ((number a).toNat % 256)
    else s.abort s!"{command}: Illegal number: {toText a}"

def loops (args : List Octets) : Nat := max 1 (number (args.headD ['1'])).toNat

def signalNames : List (String × String) :=
  [("0", "EXIT"), ("1", "HUP"), ("2", "INT"), ("3", "QUIT"), ("6", "ABRT"), ("9", "KILL"),
    ("10", "USR1"), ("12", "USR2"), ("13", "PIPE"), ("14", "ALRM"), ("15", "TERM"), ("17", "CHLD"),
    ("18", "CONT"), ("23", "URG"), ("28", "WINCH")]

def signalName (cs : Octets) : String := (signalNames.lookup (toText cs)).getD (toText cs)

def isHarmless (signal : String) : Bool :=
  ["EXIT", "CHLD", "CONT", "URG", "WINCH"].contains signal

def killUsage : String :=
  "kill: Usage: kill [-s sigspec | -signum | -sigspec] [pid | job]... or\n" ++
    "kill -l [exitstatus]"

/-- Send a signal. Only the own process is known. -/
def kill (s : State) (args : List Octets) : State :=
  let (signal, targets) : Octets × List Octets := match args with
    | ['-', 's'] :: name :: rest => (name, rest)
    | ('-' :: signal) :: rest => (signal, rest)
    | rest => ("TERM".toList, rest)
  let signal := signalName signal
  if targets.isEmpty then s.complain 2 killUsage
  else if !targets.contains "$$".toList then s.complain 1 "kill: No such process\n"
  else match if signal == "KILL" then none else s.traps.lookup signal with
    | some script => { s with status := 0, pending := script }
    | none =>
      if isHarmless signal then { s with status := 0 } else { s with ended := some .killed }

def setTraps (s : State) (args : List Octets) : State :=
  match args with
  | script :: signals =>
    let names := signals.map signalName
    let others := s.traps.filter fun t => !names.contains t.1
    let set := if script == ['-'] then [] else names.map fun n => (n, script)
    { s with traps := set ++ others, status := 0 }
  | [] => { s with status := 0 }

/-- What a part of this process keeps of its traps: signals that are harmless. -/
def keptTraps (s : State) : List (String × Octets) := s.traps.filter (·.2.isEmpty)

def strip (set cs : Octets) : Octets :=
  ((cs.dropWhile set.contains).reverse.dropWhile set.contains).reverse

/-- Give the words of a line to names; the last name gets what is left. -/
def readInto (s : State) (line : Octets) : List Octets → State
  | [] => s
  | [name] => s.assign name (strip s.separators line)
  | name :: names =>
    let line := line.dropWhile s.separators.contains
    let word := line.takeWhile (!s.separators.contains ·)
    (s.assign name word).readInto (line.drop word.length) names

def read (s : State) (args : List Octets) : State :=
  let line := s.input.takeWhile (· != '\n')
  let rest := s.input.drop line.length
  let s := s.readInto line (args.filter (· != ['-', 'r']))
  { s with input := rest.drop 1, status := if rest.isEmpty then 1 else 0 }

def changeDirectory (s : State) (target : Octets) : State :=
  match s.files.locate ⟨toText target⟩ with
  | .ok l =>
    if s.files.tree.node? l == some .directory then
      { s with files := { s.files with directory := l }, status := 0 }
    else s.complain 2 s!"cd: can't cd to {toText target}"
  | .error _ => s.complain 2 s!"cd: can't cd to {toText target}"

def test (s : State) (name : String) (args : List Octets) : State :=
  match condition s.files args with
  | .ok b => { s with status := if b then 0 else 1 }
  | .error why => s.complain 2 s!"{name}: {why}"

def builtinNames : List String :=
  [".", ":", "[", "break", "cd", "command", "continue", "echo", "eval", "exec", "exit", "export",
    "false", "kill", "local", "printf", "pwd", "read", "readonly", "return", "set", "shift", "test",
    "trap", "true", "unset", "wait"]

def builtin? (s : State) (name : Octets) (args : List Octets) : Option State :=
  match toText name with
  | ":" | "true" | "wait" => some { s with status := 0 }
  | "false" => some { s with status := 1 }
  | "echo" => some (s.printed (echoEscaped args))
  | "printf" => some (s.printed (printf s!"{toText s.name}: {s.line}: printf: " args))
  | "test" => some (s.test "test" args)
  | "[" =>
    if args.getLast? == some [']'] then some (s.test "[" args.dropLast)
    else some (s.complain 2 "[: missing ]")
  | "exit" => some (s.statusOperand "exit" args fun n => { s with ended := some (.exited n) })
  | "return" =>
    some (s.statusOperand "return" args fun n => { s with status := n, jump := some .back })
  | "break" => some { s with status := 0, jump := some (.leave (loops args)) }
  | "continue" => some { s with status := 0, jump := some (.again (loops args)) }
  | "kill" => some (s.kill args)
  | "shift" =>
    let n := (number (args.headD ['1'])).toNat
    if s.arguments.length < n then some (s.abort "shift: can't shift that many")
    else some { s with arguments := s.arguments.drop n, status := 0 }
  | "set" =>
    let (s, rest) := { s with status := 0 }.switches args
    some { s with arguments := rest.getD s.arguments }
  | "unset" => some (args.foldl unset { s with status := 0 })
  | "export" => some (s.exportAll args)
  | "local" => some (s.declareLocal args)
  | "readonly" => some (s.declare args)
  | "read" => some (s.read args)
  | "cd" => some (s.changeDirectory (args.headD (s.valueOf (ofText "HOME"))))
  | "pwd" =>
    some (s.printed { out := ofText ("/" ++ "/".intercalate s.files.directory ++ "\n") })
  | "trap" => some (s.setTraps args)
  | _ => none

end State

end Changeover.Shell
