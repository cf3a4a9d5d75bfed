import Changeover.Shell.Parser
import Changeover.Shell.State

/-!
# Arithmetic

Words of 64 bits with the operators of C, variables and assignments to them. What stands in a
branch that is not taken is read, but neither assigns nor divides.
-/

namespace Changeover.Shell

inductive ArithmeticFault where
  | divisionByZero
  | noOperand
  | unclosed
  | noColon
  | tooMuch
  | notNumeric (value : Octets)
  deriving DecidableEq

def ArithmeticFault.message (source : Octets) : ArithmeticFault → String
  | .divisionByZero => about "division by zero"
  | .noOperand => about "expecting primary"
  | .unclosed => about "expecting ')'"
  | .noColon => about "expecting ':'"
  | .tooMuch => about "expecting EOF"
  | .notNumeric value => s!"Illegal number: {toText value}"
where
  about (why : String) : String := s!"arithmetic expression: {why}: \"{toText source}\""

abbrev Evaluator := StateT State (Except ArithmeticFault)

def skipSpaces (cs : Octets) : Octets := cs.dropWhile fun c => c == ' ' || c == '\t' || c == '\n'

def truth (b : Bool) : Int64 := if b then 1 else 0

/-- Operators on two operands by how strongly they bind, the weakest first. -/
def operatorsAt : Nat → List (String × (Int64 → Int64 → Int64))
  | 0 => [("||", fun a b => truth (a != 0 || b != 0))]
  | 1 => [("&&", fun a b => truth (a != 0 && b != 0))]
  | 2 => [("|", (· ||| ·))]
  | 3 => [("^", (· ^^^ ·))]
  | 4 => [("&", (· &&& ·))]
  | 5 => [("==", fun a b => truth (a == b)), ("!=", fun a b => truth (a != b))]
  | 6 => [("<=", fun a b => truth (a ≤ b)), (">=", fun a b => truth (b ≤ a)),
      ("<", fun a b => truth (a < b)), (">", fun a b => truth (b < a))]
  | 7 => [("<<", (· <<< ·)), (">>", (· >>> ·))]
  | 8 => [("+", (· + ·)), ("-", (· - ·))]
  | 9 => [("*", (· * ·)), ("/", (· / ·)), ("%", (· % ·))]
  | _ => []

def operandLevel : Nat := 10

def longOperators : List String :=
  ["<<=", ">>=", "||", "&&", "==", "!=", "<=", ">=", "<<", ">>", "+=", "-=", "*=", "/=", "%=",
    "&=", "|=", "^="]

def operatorToken (cs : Octets) : String × Octets :=
  let cs := skipSpaces cs
  match longOperators.find? (·.toList.isPrefixOf cs) with
  | some t => (t, cs.drop t.length)
  | none => (String.ofList (cs.take 1), cs.drop 1)

def operator? (level : Nat) (cs : Octets) :
    Option (String × (Int64 → Int64 → Int64) × Octets) :=
  let (t, r) := operatorToken cs
  ((operatorsAt level).lookup t).map fun f => (t, f, r)

/-- The operator that an assignment applies first, if it is one. -/
def assignment (t : String) : Option (Option String) :=
  if t == "=" then some none
  else if ["<<=", ">>=", "+=", "-=", "*=", "/=", "%=", "&=", "|=", "^="].contains t then
    some (some (t.dropEnd 1).toString)
  else none

def applyOperator (t : String) (f : Int64 → Int64 → Int64) (live : Bool) (a b : Int64) :
    Evaluator Int64 :=
  if (t == "/" || t == "%") && b == 0 then
    if live then throw .divisionByZero else pure 0
  else pure (f a b)

def variableValue (name : Octets) : Evaluator Int64 := do
  let value := (← get).valueOf name
  let (v, r) := signedNumeral value
  if (skipSpaces r).isEmpty then pure (Int64.ofInt v) else throw (.notNumeric value)

mutual

/-- An expression. `live` says that its branch is taken. -/
def expression : Nat → Bool → Octets → Evaluator (Int64 × Octets)
  | 0, _, _ => throw .noOperand
  | n + 1, live, cs => do
    let cs := skipSpaces cs
    let name := if cs.head?.any isNameStart then cs.takeWhile isNameChar else []
    let (t, r) := operatorToken (cs.drop name.length)
    match if name.isEmpty then none else assignment t with
    | none =>
      let (v, r) ← chain n 0 live cs
      match operatorToken r with
      | ("?", r) =>
        let (a, r) ← expression n (live && v != 0) r
        match operatorToken r with
        | (":", r) =>
          let (b, r) ← expression n (live && v == 0) r
          pure (if v != 0 then a else b, r)
        | _ => throw .noColon
      | _ => pure (v, r)
    | some first =>
      let (v, r) ← expression n live r
      let f? := first.bind fun t => ((List.range operandLevel).flatMap operatorsAt).lookup t
      let v ← match first, f? with
        | some t, some f => do applyOperator t f live (← variableValue name) v
        | _, _ => pure v
      if live then modify (·.assign name (ofText (toString v.toInt)))
      pure (v, r)

def chain : Nat → Nat → Bool → Octets → Evaluator (Int64 × Octets)
  | 0, _, _, _ => throw .noOperand
  | n + 1, level, live, cs => do
    if level ≥ operandLevel then single n live (skipSpaces cs)
    else
      let (v, r) ← chain n (level + 1) live cs
      operands n level live v r

def operands : Nat → Nat → Bool → Int64 → Octets → Evaluator (Int64 × Octets)
  | 0, _, _, _, _ => throw .noOperand
  | n + 1, level, live, v, cs => do
    match operator? level cs with
    | none => pure (v, cs)
    | some (t, f, r) =>
      let decided := (t == "||" && v != 0) || (t == "&&" && v == 0)
      let (w, r) ← chain n (level + 1) (live && !decided) r
      operands n level live (← applyOperator t f live v w) r

def single : Nat → Bool → Octets → Evaluator (Int64 × Octets)
  | 0, _, _ => throw .noOperand
  | n + 1, live, cs => do
    match cs with
    | '-' :: r =>
      let (v, r) ← single n live (skipSpaces r)
      pure (-v, r)
    | '+' :: r => single n live (skipSpaces r)
    | '!' :: r =>
      let (v, r) ← single n live (skipSpaces r)
      pure (truth (v == 0), r)
    | '~' :: r =>
      let (v, r) ← single n live (skipSpaces r)
      pure (~~~v, r)
    | '(' :: r =>
      let (v, r) ← expression n live r
      match skipSpaces r with
      | ')' :: r => pure (v, r)
      | _ => throw .unclosed
    | c :: _ =>
      if c.isDigit then
        let (v, r) := numeral cs
        pure (Int64.ofNat v, r)
      else if isNameStart c then
        let name := cs.takeWhile isNameChar
        pure (← variableValue name, cs.drop name.length)
      else throw .noOperand
    | [] => throw .noOperand

end

/-- The value of an arithmetic expansion; one without a value ends the script. -/
def arithmetic (s : State) (source : Octets) : Octets × State :=
  match (expression (16 * source.length + 32) true source).run s with
  | .ok ((v, r), s') =>
    if (skipSpaces r).isEmpty then (ofText (toString v.toInt), s')
    else ([], s.abort (ArithmeticFault.tooMuch.message source))
  | .error e => ([], s.abort (e.message source))

end Changeover.Shell
