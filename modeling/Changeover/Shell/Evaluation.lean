import Changeover.Shell.Arithmetic
import Changeover.Shell.Pattern
import Changeover.Shell.Programs

/-!
# Running shell scripts

Commands change the state of a running script. Every step takes from a bound on the depth of calls,
so that a loop that would never end is cut off.
-/

namespace Changeover.Shell

/-! ### Fields -/

/-- Fields being put together: those complete, newest first, and the one still open. -/
structure Fields where
  done : List Octets := []
  last : Option Octets := none

namespace Fields

def append (f : Fields) (cs : Octets) : Fields := { f with last := some (f.last.getD [] ++ cs) }

def close (f : Fields) : Fields :=
  match f.last with
  | some cs => ⟨cs :: f.done, none⟩
  | none => f

def appendSplit (f : Fields) (separators cs : Octets) : Fields :=
  cs.foldl (fun f c => if separators.contains c then f.close else f.append [c]) f

def appendAll (f : Fields) : List Octets → Fields
  | [] => f
  | [a] => f.append a
  | a :: as => (f.append a).close.appendAll as

def toList (f : Fields) : List Octets := f.close.done.reverse

end Fields

def dropFinalNewlines (cs : Octets) : Octets := (cs.reverse.dropWhile (· == '\n')).reverse

/-! ### Processes -/

namespace State

/-- This process after a part of it that ran apart: files and output stay, the rest is
forgotten. -/
def afterPart (s part : State) : State :=
  { s with
    files := { part.files with directory := s.files.directory }
    input := part.input
    out := part.out
    err := part.err
    status := match part.ended with
      | some (.exited n) => n
      | _ => part.status
    ended := if part.ended = some .killed then some .killed else s.ended }

def collecting (s : State) : State :=
  { s with out := .empty, outTo := .out, traps := s.keptTraps }

def afterCollecting (s part : State) : State := { s.afterPart part with out := s.out }

def afterProgram (s program : State) : State :=
  let done := { s.afterPart program with ended := s.ended }
  if program.ended = some .killed then
    { done.printTo done.errTo (ofText "Killed\n") with status := 137 }
  else done

structure Invocation where
  source : Octets
  name : Octets
  arguments : List Octets
  fromInput : Bool := false

/-- The script that arguments of the shell name, after its switches. The error is the path of a
file that is no script. -/
def invocation (fs : FileSystem) (called input : Octets) (asText : Bool) :
    List Octets → Except Octets Invocation
  | [] => .ok ⟨if asText then [] else input, called, [], true⟩
  | first :: rest =>
    if asText then .ok ⟨first, rest.headD called, rest.tail, false⟩
    else match readFile fs first with
      | .ok source => .ok ⟨source, first, rest, false⟩
      | .error .isDirectory => .ok ⟨[], first, rest, false⟩
      | .error _ => .error first

/-- Take the switches of a shell from its arguments; `-c` among them asks for a script as text.
The error is what is wrong with them. -/
def configure (s : State) : List Octets → Bool → Except String (State × Bool × List Octets)
  | ('-' :: c :: cs) :: args, asText =>
    let letters := c :: cs
    if letters == ['-'] then .ok (s, asText, args)
    else match letters.find? (!"abCcefIilmnoqsuVvx".toList.contains ·) with
      | some l => .error s!"Illegal option -{l}"
      | none => ((s.switches [('-' :: letters)]).1).configure args (asText || letters.contains 'c')
  | args, asText =>
    if asText && args.isEmpty then .error "-c requires an argument" else .ok (s, asText, args)

def successor (s : State) : State where
  files := s.files
  bindings := s.bindings.filter fun b => s.exported.contains b.1
  exported := s.exported
  input := s.input
  out := s.out
  err := s.err
  outTo := s.outTo
  errTo := s.errTo
  sinks := s.sinks
  traps := s.keptTraps

def searchPath (s : State) : String := toText (s.valueOf (ofText "PATH"))

/-- Leave one loop, if that is asked for: whether the loop goes on, and the state. -/
def afterBody (s : State) : Bool × State :=
  if s.ended.isSome then (false, s)
  else match s.jump with
    | none => (true, s)
    | some (.leave n) =>
      (false, { s with jump := if n ≤ 1 then none else some (.leave (n - 1)) })
    | some (.again n) =>
      if n ≤ 1 then (true, { s with jump := none })
      else (false, { s with jump := some (.again (n - 1)) })
    | some .back => (false, s)

def judge (s : State) : State :=
  if s.strict && !s.tested && s.status != 0 && !s.halted then
    { s with ended := some (.exited s.status) }
  else s

def whereIs (s : State) (names : List Octets) : Printed :=
  names.foldl (fun p name =>
    let text := toText name
    let found : Option String :=
      if builtinNames.contains text || (s.functions.lookup name).isSome then some text
      else (Program.find s.files s.searchPath text).toOption.map (·.1)
    match found with
    | some path => { p with out := p.out ++ ofText (path ++ "\n") }
    | none => { p with status := 127 }) {}

def trace (s : State) (words : List Octets) : State :=
  if s.traced then s.printTo s.errTo (ofText "+ " ++ [' '].intercalate words ++ ['\n']) else s

end State

/-! ### Commands -/

mutual

def partText : Nat → State → WordPart → Octets × State
  | 0, s, _ => ([], s)
  | n + 1, s, p =>
    match p with
    | .text cs _ => (cs, s)
    | .parameter name _ =>
      match s.value? name with
      | some v => (v, s)
      | none =>
        if s.careful then ([], s.abort s!"{toText name}: parameter not set") else ([], s)
    | .modified name emptyCounts m operandText quoted => modified n s name emptyCounts m
        (operand quoted operandText)
    | .length name _ => (ofText (toString (s.valueOf name).length), s)
    | .arguments _ _ => (spaced s.arguments, s)
    | .arithmetic source _ =>
      let (f, s) := expand n s (operand true source) {}
      arithmetic s (spaced f.toList)
    | .output source _ =>
      match script? source with
      | none => ([], s)
      | some c =>
        let part := run n c s.collecting
        (dropFinalNewlines (ofBytes part.out), s.afterCollecting part)

def modified : Nat → State → Octets → Bool → Modifier → Word → Octets × State
  | 0, s, _, _, _, _ => ([], s)
  | n + 1, s, name, emptyCounts, m, w =>
    let value := (s.value? name).filter fun v => !(emptyCounts && v.isEmpty)
    let other (s : State) : Octets × State :=
      let (f, s) := expand n s w {}
      (spaced f.toList, s)
    match m, value with
    | .orText, some v | .orAssign, some v | .orComplain, some v => (v, s)
    | .orText, none => other s
    | .orAssign, none =>
      let (v, s) := other s
      (v, s.assign name v)
    | .orComplain, none =>
      let (v, s) := other s
      let why := if v.isEmpty then "parameter not set" else toText v
      ([], s.abort s!"{toText name}: {why}")
    | .insteadText, some _ => other s
    | .insteadText, none => ([], s)
    | .without atStart longest, _ =>
      let (pattern, s) := patternText n s w
      (Pattern.without atStart longest pattern (s.valueOf name), s)

/-- The text of a word as a pattern, in which what is quoted has no meaning. -/
def patternText : Nat → State → Word → Octets × State
  | 0, s, _ => ([], s)
  | _, s, [] => ([], s)
  | n + 1, s, p :: ps =>
    let (cs, s) := partText n s p
    let (rest, s) := patternText n s ps
    ((if p.isQuoted then Pattern.quote cs else cs) ++ rest, s)

def expand : Nat → State → Word → Fields → Fields × State
  | 0, s, _, f => (f, s)
  | _, s, [], f => (f, s)
  | n + 1, s, p :: ps, f =>
    match p with
    | .text cs _ => expand n s ps (f.append cs)
    | .arguments false true => expand n s ps (f.appendAll s.arguments)
    | p =>
      let (cs, s) := partText n s p
      expand n s ps (if p.isQuoted then f.append cs else f.appendSplit s.separators cs)

def expandAll : Nat → State → List Word → List Octets × State
  | 0, s, _ => ([], s)
  | _, s, [] => ([], s)
  | n + 1, s, w :: ws =>
    let (f, s) := expand n s w {}
    let (fs, s) := expandAll n s ws
    (f.toList ++ fs, s)

def wordText : Nat → State → Word → Octets × State
  | 0, s, _ => ([], s)
  | n + 1, s, w =>
    let (f, s) := expand n s w {}
    (spaced f.toList, s)

/-- Point descriptors elsewhere. `false` says that a file could not be opened. -/
def redirect : Nat → State → List Redirection → Bool × State
  | 0, s, _ => (false, s)
  | _, s, [] => (true, s)
  | n + 1, s, d :: ds =>
    let point (s : State) (sink : Sink) : State := s.point d.descriptor sink
    let openFile (w : Word) (truncate : Bool) : Bool × State :=
      let (path, s) := wordText n s w
      let path := toText path
      if path == "/dev/null" then redirect n (point s (.file path)) ds
      else
        let kept := if truncate then .empty else (s.files.read ⟨path⟩).toOption.getD .empty
        match s.files.write ⟨path⟩ kept with
        | .ok fs => redirect n (point { s with files := fs } (.file path)) ds
        | .error e =>
          let why := if e = .isDirectory then "Is a directory" else "Directory nonexistent"
          (false, s.complain 2 s!"cannot create {path}: {why}")
    match d.target with
    | .truncate w => openFile w true
    | .append w => openFile w false
    | .input w =>
      let (path, s) := wordText n s w
      match readFile s.files path with
      | .ok cs => redirect n { s with input := cs } ds
      | .error _ => (false, s.complain 2 s!"cannot open {toText path}: No such file")
    | .document w =>
      let (text, s) := wordText n s w
      redirect n { s with input := text } ds
    | .duplicate k =>
      let sink := s.sink k
      if sink = .closed then (false, s.complain 2 s!"{k}: Bad file descriptor")
      else redirect n (point s sink) ds
    | .close => redirect n (point s .closed) ds

def withRedirections : Nat → State → List Redirection → (State → State) → State
  | 0, s, _, _ => s
  | n + 1, s, ds, go =>
    let (ok, s') := redirect n s ds
    let s'' := if ok then go s' else s'
    { s'' with
      outTo := s.outTo
      errTo := s.errTo
      sinks := s.sinks
      input := if ds.any isInput then s.input else s''.input }
where
  isInput (d : Redirection) : Bool := match d.target with
    | .input _ | .document _ => true
    | _ => false

def assignAll : Nat → State → List (Octets × Word) → List Octets × State
  | 0, s, _ => ([], s)
  | _, s, [] => ([], s)
  | n + 1, s, (name, w) :: as =>
    let (v, s) := wordText n s w
    let (more, s) := assignAll n (s.assign name v) as
    ((name ++ '=' :: v) :: more, s)

def pipe : Nat → List Command → State → State
  | 0, _, s => s
  | _, [], s => s
  | n + 1, [c], s => s.afterPart (run n c s)
  | n + 1, c :: cs, s =>
    let part := run n c s.collecting
    let after := s.afterCollecting part
    let last := pipe n cs { after with input := ofBytes part.out }
    { last with input := after.input }

def runList : Nat → List Command → State → State
  | 0, _, s => s
  | _, [], s => s
  | n + 1, c :: cs, s =>
    let s := run n c s
    if s.halted then s else runList n cs s

def runEach : Nat → Octets → Command → List Octets → State → State
  | 0, _, _, _, s => s
  | _, _, _, [], s => s
  | n + 1, name, body, v :: vs, s =>
    let (goOn, s) := (run n body (s.assign name v)).afterBody
    if goOn then runEach n name body vs s else s

/-- Run the body as long as the condition ends as wanted; the status is that of the last body. -/
def runLoop : Nat → Bool → Command → Command → Nat → State → State
  | 0, _, _, _, _, s => s
  | n + 1, wanted, condition, body, last, s =>
    let t := { run n condition { s with tested := true } with tested := s.tested }
    if t.halted then t.afterBody.2
    else if (t.status == 0) != wanted then { t with status := last }
    else
      let (goOn, t) := (run n body t).afterBody
      if goOn then runLoop n wanted condition body t.status t else t

def runCase : Nat → Octets → List (List Word × Command) → State → State
  | 0, _, _, s => s
  | _, _, [], s => { s with status := 0 }
  | n + 1, cs, (patterns, body) :: cases, s =>
    let (found, s) := anyFits n cs patterns s
    if found then run n body { s with status := 0 } else runCase n cs cases s

def anyFits : Nat → Octets → List Word → State → Bool × State
  | 0, _, _, s => (false, s)
  | _, _, [], s => (false, s)
  | n + 1, cs, w :: ws, s =>
    let (pattern, s) := patternText n s w
    if Pattern.fits pattern cs then (true, s) else anyFits n cs ws s

def runSource : Nat → Octets → State → State
  | 0, _, s => s
  | n + 1, source, s =>
    match script? source with
    | some c => run n c { s with lines := source.count '\n', line := 1 }
    | none => { s.complain 2 "Syntax error" with ended := some (.exited 2) }

def runShell : Nat → String → List Octets → State → State
  | 0, _, _, s => s
  | n + 1, called, args, s =>
    let s := { s with name := ofText called }
    let refuse (why : String) : State := { s with line := 0 }.complain 2 why
    match s.configure args false with
    | .error why => refuse why
    | .ok (s, asText, args) =>
    match State.invocation s.files s.name s.input asText args with
    | .error path => refuse s!"cannot open {toText path}: No such file"
    | .ok i =>
      let s := { s with
        name := i.name, arguments := i.arguments, input := if i.fromInput then [] else s.input }
      let s := runSource n i.source s
      match s.traps.lookup "EXIT" with
      | some last =>
        if s.ended = some .killed then s
        else
          let t := runSource n last { s with traps := [], ended := none, jump := none }
          { t with ended := t.ended <|> s.ended, status := s.status }
      | none => s

def runTool : Nat → String → String → List Octets → State → State
  | 0, _, _, _, s => s
  | n + 1, name, called, args, s =>
    if Program.isShell name then runShell n called args s
    else match tool? s.files s.input name called args with
      | some p => s.printed p
      | none => s

def runProgram : Nat → Octets → List Octets → State → State
  | 0, _, _, s => s
  | n + 1, name, args, s =>
    match Program.find s.files s.searchPath (toText name) with
    | .ok (_, .tool tool) => s.afterProgram (runTool n tool (toText name) args s.successor)
    | .ok (path, .script interpreter called option) =>
      let args := (option.toList ++ [path]).map ofText ++ args
      s.afterProgram (runTool n interpreter called args s.successor)
    | .error .badFormat => s.afterProgram (runShell n "sh" (name :: args) s.successor)
    | .error .denied => s.complain 126 s!"{toText name}: Permission denied"
    | .error _ => s.complain 127 s!"{toText name}: not found"

def callFunction : Nat → Command → List Octets → State → State
  | 0, _, _, s => s
  | n + 1, body, args, s =>
    let t := (run n body { s with arguments := args, locals := [] }).restoreLocals
    { t with
      arguments := s.arguments
      locals := s.locals
      jump := if t.jump = some .back then none else t.jump }

def runNamed : Nat → Octets → List Octets → State → State
  | 0, _, _, s => s
  | n + 1, name, args, s =>
    match s.functions.lookup name with
    | some body => callFunction n body args s
    | none =>
      match toText name, args with
      | "eval", args =>
        match script? (spaced args) with
        | some c => run n c { s with status := 0 }
        | none => s.abort "Syntax error"
      | "exec", program :: args =>
        let t := runProgram n program args s
        { t with ended := some (t.ended.getD (.exited t.status)) }
      | "command", ['-', 'v'] :: names => s.printed (s.whereIs names)
      | "command", program :: args =>
        { runNamed n program args { s with functions := [] } with functions := s.functions }
      | ".", path :: _ =>
        match readFile s.files path with
        | .ok source => (script? source).elim (s.abort "Syntax error") (run n · s)
        | .error _ => s.abort s!".: cannot open {toText path}: No such file"
      | _, _ =>
        match s.builtin? name args with
        | some s => runPending n s
        | none => runProgram n name args s

/-- Run the script of a signal that has come. The status stays. -/
def runPending : Nat → State → State
  | 0, s => s
  | n + 1, s =>
    if s.pending.isEmpty then s
    else
      let go := (script? s.pending).elim id (run n)
      { go { s with pending := [] } with status := s.status }

/-- Run a simple command. Assignments in front of a program are made for that program; redirections
of `exec` alone stay. -/
def runSimple : Nat → List (Octets × Word) → List Word → List Redirection → State → State
  | 0, _, _, _, s => s
  | n + 1, as, ws, ds, s =>
    let (fields, s) := expandAll n s ws
    if s.halted then s
    else match fields with
      | [] =>
        let (texts, s) := assignAll n { s with status := 0 } as
        withRedirections n (if texts.isEmpty then s else s.trace texts) ds id
      | name :: args =>
        let (texts, t) := assignAll n s as
        let t := t.trace (texts ++ name :: args)
        if toText name == "exec" && args.isEmpty then (redirect n { t with status := 0 } ds).2
        else if as.isEmpty then withRedirections n t ds (runNamed n name args)
        else
          let t := { t with exported := s.exported ++ as.map (·.1) }
          let t := withRedirections n t ds (runNamed n name args)
          { t with bindings := s.bindings, exported := s.exported }

def run : Nat → Command → State → State
  | 0, _, s => s
  | n + 1, c, s =>
    if s.halted then s
    else match c with
    | .simple later as ws ds =>
      (runSimple n as ws ds { s with line := s.lines - later + 1 }).judge
    | .pipeline cs => (pipe n cs s).judge
    | .negated c =>
      let t := run n c { s with tested := true }
      { t with status := if t.status = 0 then 1 else 0, tested := s.tested }
    | .both a b =>
      let t := { run n a { s with tested := true } with tested := s.tested }
      if t.status = 0 then run n b t else t
    | .either a b =>
      let t := { run n a { s with tested := true } with tested := s.tested }
      if t.status = 0 then t else run n b t
    | .list cs => runList n cs s
    | .background c => { s.afterPart (run n c s) with status := 0, ended := s.ended }
    | .forEach name ws body =>
      match ws with
      | none => runEach n name body s.arguments { s with status := 0 }
      | some ws =>
        let (fields, s) := expandAll n s ws
        runEach n name body fields { s with status := 0 }
    | .loop wanted condition body => runLoop n wanted condition body 0 s
    | .choose condition consequence otherwise =>
      let t := { run n condition { s with tested := true } with tested := s.tested }
      if t.halted then t
      else if t.status = 0 then run n consequence t
      else run n otherwise { t with status := 0 }
    | .select w cases =>
      let (cs, s) := wordText n s w
      runCase n cs cases s
    | .group false body => run n body s
    | .group true body => (s.afterPart (run n body { s with traps := s.keptTraps })).judge
    | .define name body => { s with functions := (name, body) :: s.functions, status := 0 }
    | .redirected c ds => withRedirections n s ds (run n c)

end

def depthBound : Nat := 1000000

def runToEnd (name called : String) (args : List Octets) (s : State) : State :=
  runTool depthBound name called args s

end Changeover.Shell
