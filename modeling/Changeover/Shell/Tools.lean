import Changeover.Files.System
import Changeover.Shell.Printf

/-!
# Small tools

The programs that scripts call and that need no shell: they read their arguments, their input and
files, and print. None of them changes a file.
-/

namespace Changeover.Shell

structure Printed where
  status : Nat := 0
  out : Octets := []
  err : Octets := []
  drained : Bool := false

def spaced (args : List Octets) : Octets := [' '].intercalate args

def isEchoSwitch : Octets → Bool
  | '-' :: c :: cs => (c :: cs).all ("neE".toList.contains ·)
  | _ => false

def echo (args : List Octets) : Printed :=
  let switches := (args.takeWhile isEchoSwitch).flatten
  let text := spaced (args.dropWhile isEchoSwitch)
  let escapes := switches.reverse.find? (fun c => c == 'e' || c == 'E') == some 'e'
  let text := if escapes then unescape true text.length text else text
  { out := if switches.contains 'n' then text else text ++ ['\n'] }

/-- The shell's own `echo` always understands escapes. -/
def echoEscaped (args : List Octets) : Printed :=
  match args with
  | ['-', 'n'] :: rest => { out := unescape true (spaced rest).length (spaced rest) }
  | args =>
    let text := spaced args ++ ['\n']
    { out := unescape true text.length text }

def printf (who : String) (args : List Octets) : Printed :=
  let args := if args.head? == some ['-', '-'] then args.tail else args
  match args with
  | [] => { status := 2, err := ofText (who ++ "usage: printf format [arg ...]\n") }
  | format :: args =>
    let f := Formatting.runAll format (args.length + 1) args
    let complain (cs : Octets) : Octets := ofText who ++ cs ++ ['\n']
    let err := (f.faults.map complain).flatten
    match f.unknown with
    | some directive =>
      { status := 2, out := f.out,
        err := err ++ complain (directive ++ ofText ": invalid directive") }
    | none => { status := if f.faults.isEmpty then 0 else 1, out := f.out, err }

def complaint (tool : String) (file : Octets) (e : OsError) : Octets :=
  let why := (e.message.splitOn " (os error").headD ""
  ofText (tool ++ ": ") ++ file ++ ofText (": " ++ why ++ "\n")

def readFile (fs : FileSystem) (path : Octets) : Except OsError Octets :=
  if path == "/dev/null".toList then .ok []
  else (fs.read ⟨toText path⟩).map ofBytes

def cat (fs : FileSystem) (called : String) (input : Octets) (args : List Octets) : Printed :=
  let args := args.filter (· != ['-', '-'])
  if args.isEmpty then { out := input, drained := true }
  else args.foldl (fun p a =>
    if a == ['-'] then
      { p with out := p.out ++ (if p.drained then [] else input), drained := true }
    else match readFile fs a with
      | .ok cs => { p with out := p.out ++ cs }
      | .error e => { p with status := 1, err := p.err ++ complaint called a e }) {}

/-- The number of words. What is neither a blank nor printable changes nothing. -/
def countWords (cs : Octets) : Nat :=
  let isSpace (c : Char) : Bool := c == ' ' || ('\t' ≤ c && c ≤ '\r')
  (cs.foldl (fun (n, inside) c =>
    if isSpace c then (n, false)
    else if '!' ≤ c && c ≤ '~' then (if inside then n else n + 1, true)
    else (n, inside)) (0, false)).1

def counts (letters : Octets) (cs : Octets) : List Nat :=
  let every := letters.isEmpty
  (if every || letters.contains 'l' then [cs.count '\n'] else []) ++
  (if every || letters.contains 'w' then [countWords cs] else []) ++
  (if letters.contains 'm' then [cs.length] else []) ++
  (if every || letters.contains 'c' then [cs.length] else [])

def columns (width : Nat) (ns : List Nat) : Octets :=
  spaced (ns.map fun n =>
    let t := ofText (toString n)
    List.replicate (width - t.length) ' ' ++ t)

def usage (tool why : String) : Printed :=
  { status := 1, err := ofText s!"{tool}: {why}\nTry '{tool} --help' for more information.\n" }

def unknownSwitch (tool : String) (c : Char) : Printed := usage tool s!"invalid option -- '{c}'"

/-- Lines, words or bytes of the input or of files. The columns fit the size of the files. -/
def wc (fs : FileSystem) (called : String) (input : Octets) (args : List Octets) : Printed :=
  let isSwitch (a : Octets) : Bool := a.head? == some '-' && a.length > 1
  let letters := ((args.filter isSwitch).map (·.drop 1)).flatten
  let names := args.filter (!isSwitch ·)
  let shown (width : Nat) (name cs : Octets) : Octets :=
    let ns := counts letters cs
    columns (if ns.length = 1 && names.length ≤ 1 then 1 else width) ns ++
      (if name.isEmpty then [] else ' ' :: name) ++ ['\n']
  if let some c := letters.find? (!"clmw".toList.contains ·) then unknownSwitch called c
  else if names.isEmpty then { out := shown 7 [] input, drained := true }
  else
    let contents := names.map fun n => (n, if n == ['-'] then .ok input else readFile fs n)
    let total := (contents.filterMap (·.2.toOption)).flatten
    let isOdd (r : Except OsError Octets) : Bool := match r with
      | .error e => e = .isDirectory
      | .ok _ => false
    let digits := (toString total.length).length
    let width := if contents.any (isOdd ·.2) then max 7 digits else digits
    let p := contents.foldl (fun p (name, r) =>
      match r with
      | .ok cs => { p with out := p.out ++ shown width name cs }
      | .error e =>
        { p with
          status := 1
          out := if isOdd r then p.out ++ shown width name [] else p.out
          err := p.err ++ complaint called name e }) {}
    if names.length > 1 then { p with out := p.out ++ shown width "total".toList total } else p

def expandSet : Nat → Octets → Octets
  | 0, cs => cs
  | n + 1, a :: '-' :: b :: r =>
    (List.range (b.toNat + 1 - a.toNat)).map (fun i => Char.ofNat (a.toNat + i)) ++ expandSet n r
  | _, [] => []
  | n + 1, c :: r => c :: expandSet n r

def charClasses : List (String × String) :=
  [("[:upper:]", "A-Z"), ("[:lower:]", "a-z"), ("[:digit:]", "0-9"), ("[:alpha:]", "A-Za-z"),
    ("[:alnum:]", "0-9A-Za-z"), ("[:blank:]", "\t "), ("[:space:]", "\t\n\x0b\x0c\r "),
    ("[:punct:]", "!-/:-@[-\x60\x7b-~")]

def charSetFrom : Nat → Octets → Octets
  | 0, cs => cs
  | n + 1, cs =>
    match charClasses.find? (·.1.toList.isPrefixOf cs) with
    | some (name, set) => expandSet set.length set.toList ++ charSetFrom n (cs.drop name.length)
    | none =>
      match cs with
      | a :: '-' :: b :: r => expandSet 1 [a, '-', b] ++ charSetFrom n r
      | c :: r => c :: charSetFrom n r
      | [] => []

def charSet (cs : Octets) : Octets :=
  let cs := unescape false cs.length cs
  charSetFrom cs.length cs

def squeeze (set : Octets) : Octets → Octets
  | a :: b :: r =>
    if a == b && set.contains a then squeeze set (b :: r) else a :: squeeze set (b :: r)
  | cs => cs

def tr (called : String) (input : Octets) (args : List Octets) : Printed :=
  let isSwitch (a : Octets) : Bool := a.head? == some '-' && a.length > 1
  let letters := ((args.takeWhile isSwitch).map (·.drop 1)).flatten
  let has (c : Char) : Bool := letters.contains c
  let inSet (set : Octets) (c : Char) : Bool :=
    set.contains c != (has 'c' || has 'C')
  match (args.dropWhile isSwitch).map charSet with
  | [set] =>
    if has 'd' then { out := input.filter (!inSet set ·), drained := true }
    else if has 's' then { out := squeeze (input.filter (inSet set)) input, drained := true }
    else
      let only := toText ((args.dropWhile isSwitch).headD [])
      usage called
        s!"missing operand after '{only}'\nTwo strings must be given when translating."
  | [froms, tos] =>
    if has 'd' && !has 's' then
      let extra := toText (args.getLastD [])
      usage called (s!"extra operand '{extra}'\nOnly one string may be given when deleting " ++
        "without squeezing repeats.")
    else
    let image (c : Char) : Char :=
      if has 'c' || has 'C' then (if froms.contains c then c else tos.getLastD c)
      else match froms.idxOf? c with
        | some i => tos.getD i (tos.getLastD c)
        | none => c
    let out := if has 'd' then input.filter (!inSet froms ·) else input.map image
    { out := if has 's' then squeeze tos out else out, drained := true }
  | [] => usage called "missing operand"
  | _ :: _ :: extra :: _ => usage called s!"extra operand '{toText extra}'"

/-! ### Conditions -/

def isNumber (cs : Octets) : Bool :=
  let ds := match cs with
    | '-' :: r | '+' :: r => r
    | r => r
  !ds.isEmpty && ds.all Char.isDigit

def unaryTest? (fs : FileSystem) (op a : Octets) : Option Bool :=
  let p : Path := ⟨toText a⟩
  match op with
  | ['!'] => some a.isEmpty
  | ['-', 'n'] => some !a.isEmpty
  | ['-', 'z'] => some a.isEmpty
  | ['-', 'e'] | ['-', 'r'] | ['-', 'w'] => some (fs.holds p)
  | ['-', 'f'] => some (fs.isFile p)
  | ['-', 'd'] => some (fs.isDirectory p)
  | ['-', 's'] => some ((fs.read p).toOption.any (·.size != 0))
  | ['-', 'x'] => some <| match fs.stat p with
    | .ok (.file _ x) => x
    | .ok .directory => true
    | .error _ => false
  | ['-', 't'] | ['-', 'h'] | ['-', 'L'] => some false
  | _ => none

def comparison? (op : Octets) : Option (Int → Int → Bool) :=
  match toText op with
  | "-eq" => some (· == ·)
  | "-ne" => some (· != ·)
  | "-lt" => some (decide <| · < ·)
  | "-le" => some (decide <| · ≤ ·)
  | "-gt" => some (decide <| · > ·)
  | "-ge" => some (decide <| · ≥ ·)
  | _ => none

def binaryTest (a op b : Octets) : Except String Bool :=
  if op == ['='] || op == ['=', '='] then .ok (a == b)
  else if op == ['!', '='] then .ok (a != b)
  else match comparison? op with
    | none => .error s!"{toText op}: unexpected operator"
    | some compare =>
      if !isNumber a then .error s!"Illegal number: {toText a}"
      else if !isNumber b then .error s!"Illegal number: {toText b}"
      else .ok (compare (number a) (number b))

def shortCondition (fs : FileSystem) : List Octets → Except String Bool
  | [] => .ok false
  | [a] => .ok !a.isEmpty
  | [op, a] =>
    match unaryTest? fs op a with
    | some b => .ok b
    | none => .error s!"{toText op}: unexpected operator"
  | ['!'] :: rest => (shortCondition fs rest).map (!·)
  | [a, op, b] => binaryTest a op b
  | _ => .error "too many arguments"

/-- Whether a condition holds: short ones joined by `-a` and, more loosely, by `-o`. -/
def conditionFrom (fs : FileSystem) : Nat → List Octets → Except String Bool
  | 0, _ => .error "too many arguments"
  | n + 1, args =>
    if args.length ≤ 3 then shortCondition fs args
    else
      let split (op : String) : Option (List Octets × List Octets) :=
        let before := args.takeWhile (· != op.toList)
        match args.drop before.length with
        | _ :: after => some (before, after)
        | [] => none
      match split "-o", split "-a" with
      | some (l, r), _ => do pure ((← conditionFrom fs n l) || (← conditionFrom fs n r))
      | none, some (l, r) => do pure ((← conditionFrom fs n l) && (← conditionFrom fs n r))
      | none, none => shortCondition fs args

def condition (fs : FileSystem) (args : List Octets) : Except String Bool :=
  conditionFrom fs (args.length + 1) args

def test (fs : FileSystem) (args : List Octets) : Printed :=
  match condition fs args with
  | .ok b => { status := if b then 0 else 1 }
  | .error why => { status := 2, err := ofText s!"test: {why}\n" }

def isTimeSpan (cs : Octets) : Bool :=
  let ds := match cs.getLast? with
    | some u => if "smhd".toList.contains u then cs.dropLast else cs
    | none => cs
  ds.any Char.isDigit && ds.all (fun c => c.isDigit || c == '.') && ds.count '.' ≤ 1

/-- Time itself is not modelled. -/
def sleep (called : String) (args : List Octets) : Printed :=
  let bad := (args.filter (!isTimeSpan ·)).map fun a => s!"invalid time interval '{toText a}'"
  if args.isEmpty then usage called "missing operand"
  else if bad.isEmpty then {}
  else usage called (s!"\n{called}: ".intercalate bad)

/-- The tools that are programs of their own. `called` is the text by which one was called, and
complaints start with it. -/
def tool? (fs : FileSystem) (input : Octets) (name called : String) (args : List Octets) :
    Option Printed :=
  match name with
  | "true" => some {}
  | "false" => some { status := 1 }
  | "echo" => some (echo args)
  | "printf" => some (printf s!"{called}: " args)
  | "cat" => some (cat fs called input args)
  | "wc" => some (wc fs called input args)
  | "tr" => some (tr called input args)
  | "sleep" => some (sleep called args)
  | "test" => some (test fs args)
  | "[" => some (test fs args.dropLast)
  | _ => none

end Changeover.Shell
