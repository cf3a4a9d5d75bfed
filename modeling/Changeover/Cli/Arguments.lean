import Changeover.Config.Expansion
import Changeover.Path

/-!
# Command lines

An option is written with its name after two dashes or with its letter after one; letters may
share a dash. The options that concern the log are understood and otherwise passed over, since no
log is kept here.
-/

namespace Changeover.Cli

inductive NoCommand where
  | help
  | version
  | misused
  deriving DecidableEq

inductive Takes where
  | nothing
  | repeats
  /-- One value that is admitted; the option is given at most once. -/
  | value (admits : String → Bool)
  /-- Nothing, and what else is on the command line does not matter. -/
  | ends (reason : NoCommand)

structure OptionSpec where
  name : String
  letter : Option Char := none
  takes : Takes

/-- Options that were given with their values, the last first. -/
abbrev Given := List (String × String)

namespace OptionSpec

def give (o : OptionSpec) (value : Option String) (given : Given) : Except NoCommand Given :=
  let again := given.any (·.1 == o.name)
  match o.takes, value with
  | .ends reason, none => .error reason
  | .repeats, none => .ok ((o.name, "") :: given)
  | .nothing, none => if again then .error .misused else .ok ((o.name, "") :: given)
  | .value admits, some v =>
    if again || !admits v then .error .misused else .ok ((o.name, v) :: given)
  | _, _ => .error .misused

def takesValue (o : OptionSpec) : Bool :=
  match o.takes with
  | .value _ => true
  | _ => false

end OptionSpec

abbrev Partly := Given × Option OptionSpec

def long (specs : List OptionSpec) (given : Given) (text : List Char) : Except NoCommand Partly :=
  let name := String.ofList (text.takeWhile (· != '='))
  match specs.find? (·.name == name), text.dropWhile (· != '=') with
  | none, _ => .error .misused
  | some o, _ :: value => do pure (← o.give (String.ofList value) given, none)
  | some o, [] => if o.takesValue then .ok (given, some o) else do pure (← o.give none given, none)

/-- Options by their letters. What follows the letter of an option with a value is that value. -/
def letters (specs : List OptionSpec) (given : Given) : List Char → Except NoCommand Partly
  | [] => .ok (given, none)
  | c :: cs =>
    match specs.find? (·.letter == some c) with
    | none => .error .misused
    | some o =>
      if o.takesValue then
        match cs with
        | [] => .ok (given, some o)
        | '=' :: value => do pure (← o.give (String.ofList value) given, none)
        | value => do pure (← o.give (String.ofList value) given, none)
      else do letters specs (← o.give none given) cs

def isOption (arg : String) : Bool := arg.startsWith "-" && arg != "-"

/-- The options before the first argument that gives none, and that argument with all after it. -/
def options (specs : List OptionSpec) (given : Given) :
    List String → Except NoCommand (Given × List String)
  | [] => .ok (given, [])
  | arg :: args =>
    if !isOption arg || arg == "--" then .ok (given, arg :: args)
    else
      let partly := match arg.toList with
        | '-' :: '-' :: text => long specs given text
        | text => letters specs given text.tail
      match partly with
      | .error e => .error e
      | .ok (given, none) => options specs given args
      | .ok (given, some o) =>
        match args with
        | [] => .error .misused
        | value :: args =>
          if isOption value then .error .misused
          else match o.give (some value) given with
            | .error e => .error e
            | .ok given => options specs given args

/-! ## Commands -/

inductive Command where
  | convert (yes allowOverridable parallel : Bool)
  | analyze (allowOverridable : Bool)
  | listActions (stage : Option String)
  | validate
  deriving DecidableEq

structure Invocation where
  config : Path
  command : Command
  deriving DecidableEq

def helpOption : OptionSpec := ⟨"help", some 'h', .ends .help⟩

def everywhere : List OptionSpec := [
  ⟨"verbose", some 'v', .repeats⟩,
  ⟨"log-format", none, .value fun v => v == "text" || v == "json"⟩,
  helpOption]

def beforeCommand : List OptionSpec := ⟨"version", some 'V', .ends .version⟩ :: everywhere

def configOption : OptionSpec := ⟨"config", some 'c', .value (!·.isEmpty)⟩

def commandOptions (name : String) : Option (List OptionSpec) :=
  let own : Option (List OptionSpec) := match name with
    | "convert" => some [⟨"yes", some 'y', .nothing⟩, ⟨"allow-overridable", none, .nothing⟩,
        ⟨"parallel", none, .nothing⟩]
    | "analyze" => some [⟨"allow-overridable", none, .nothing⟩]
    | "list-actions" => some [⟨"stage", none, .value fun _ => true⟩]
    | "validate" => some []
    | _ => none
  own.map fun specs => configOption :: specs ++ everywhere

def command (name : String) (given : Given) : Command :=
  let has (option : String) : Bool := given.any (·.1 == option)
  match name with
  | "convert" => .convert (has "yes") (has "allow-overridable") (has "parallel")
  | "analyze" => .analyze (has "allow-overridable")
  | "list-actions" => .listActions (given.lookup "stage")
  | _ => .validate

def defaultConfig : Path := ⟨"/etc/crossgrade/crossgrade.yaml"⟩

/-- The path of the configuration: from the options, from the environment, or the default. -/
def configPath (e : Environment) (given : Given) : Except NoCommand Path :=
  match given.lookup "config", e.get? "CROSSGRADE_CONFIG" with
  | some path, _ => .ok ⟨path⟩
  | none, some path => if path.isEmpty then .error .misused else .ok ⟨path⟩
  | none, none => .ok defaultConfig

def isHelpTopic : List String → Bool
  | [] => true
  | [name] => name == "help" || (commandOptions name).isSome
  | _ => false

def invocation (e : Environment) (args : List String) : Except NoCommand Invocation := do
  match ← options beforeCommand [] args with
  | (_, name :: args) =>
    if name == "help" then throw (if isHelpTopic args then .help else .misused)
    let some specs := commandOptions name | throw .misused
    match ← options specs [] args with
    | (given, []) | (given, ["--"]) => pure ⟨← configPath e given, command name given⟩
    | _ => throw .misused
  | (_, []) => throw .misused

end Changeover.Cli
