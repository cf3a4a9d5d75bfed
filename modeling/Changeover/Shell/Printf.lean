import Changeover.Shell.Numeral

/-!
# Formatted printing

Escapes, and formats in the manner of `printf`: the format is used again until all arguments are
printed.
-/

namespace Changeover.Shell

def letterEscape? (c : Char) : Option Char :=
  [('a', '\x07'), ('b', '\x08'), ('f', '\x0c'), ('n', '\n'), ('r', '\r'), ('t', '\t'),
    ('v', '\x0b'), ('\\', '\\')].lookup c

/-- Escapes of a format: letters, and up to three octal digits for a byte. Where a zero may lead
the digits, they are one more. -/
def unescape (leadingZero : Bool) : Nat → Octets → Octets
  | 0, cs => cs
  | _, [] => []
  | n + 1, '\\' :: c :: r =>
    match letterEscape? c with
    | some e => e :: unescape leadingZero n r
    | none =>
      if c == 'c' && leadingZero then []
      else
        let most := if leadingZero && c == '0' then 4 else 3
        let ds := ((c :: r).take most).takeWhile isOctal
        if ds.isEmpty then '\\' :: unescape leadingZero n (c :: r)
        else Char.ofNat (digitsValue 8 ds % 256) ::
          unescape leadingZero n ((c :: r).drop ds.length)
  | n + 1, c :: r => c :: unescape leadingZero n r

structure FieldFormat where
  flags : Octets
  width : Nat
  precision : Option Nat
  conversion : Char

namespace FieldFormat

def read? (cs : Octets) : Option (FieldFormat × Octets) :=
  let flags := cs.takeWhile ("-+ 0#".toList.contains ·)
  let cs := cs.drop flags.length
  let width := cs.takeWhile Char.isDigit
  let cs := cs.drop width.length
  let (precision, cs) : Option Nat × Octets := match cs with
    | '.' :: r =>
      let ds := r.takeWhile Char.isDigit
      (some (number ds).toNat, r.drop ds.length)
    | r => (none, r)
  match cs with
  | c :: r => some (⟨flags, (number width).toNat, precision, c⟩, r)
  | [] => none

/-- Fill up to the width, with zeros after the sign of a number if that is asked for. -/
def pad (f : FieldFormat) (numeric : Bool) (sign body : Octets) : Octets :=
  let gap := f.width - (sign.length + body.length)
  if f.flags.contains '-' then sign ++ body ++ List.replicate gap ' '
  else if f.flags.contains '0' && numeric then sign ++ List.replicate gap '0' ++ body
  else List.replicate gap ' ' ++ sign ++ body

def digits (base : Nat) (n : Int) : Octets := Nat.toDigits base n.natAbs

def isNumeric (f : FieldFormat) : Bool := "diouxX".toList.contains f.conversion

def isKnown (f : FieldFormat) : Bool := f.isNumeric || "sbc".toList.contains f.conversion

/-- The number that an argument is: that of a character after a quote, or that of its digits. The
fault tells what is wrong with it. -/
def argumentNumber (arg : Octets) : Int × Option String :=
  match arg with
  | '"' :: c :: _ | '\'' :: c :: _ => (c.toNat, none)
  | _ =>
    let (v, r) := signedNumeral arg
    if r.isEmpty then (v, none)
    else if r == arg then (0, some "expected numeric value")
    else (v, some "not completely converted")

def apply (f : FieldFormat) (arg : Octets) : Octets :=
  let n := (argumentNumber arg).1
  let sign : Octets :=
    if n < 0 then ['-'] else if f.flags.contains '+' then ['+']
    else if f.flags.contains ' ' then [' '] else []
  let cut (cs : Octets) : Octets := match f.precision with
    | some k => cs.take k
    | none => cs
  let atLeast (ds : Octets) : Octets :=
    List.replicate (f.precision.getD 1 - ds.length) '0' ++ ds
  let f' := if f.precision.isSome then { f with flags := f.flags.filter (· != '0') } else f
  let c := f.conversion
  if c == 's' then f.pad false [] (cut arg)
  else if c == 'b' then f.pad false [] (cut (unescape true arg.length arg))
  else if c == 'c' then f.pad false [] (arg.take 1)
  else if c == 'd' || c == 'i' then f'.pad true sign (atLeast (digits 10 n))
  else
    let word := if n < 0 then n + 18446744073709551616 else n
    if c == 'u' then f'.pad true [] (atLeast (digits 10 word))
    else if c == 'o' then f'.pad true [] (atLeast (digits 8 word))
    else if c == 'x' then f'.pad true [] (atLeast (digits 16 word))
    else f'.pad true [] ((atLeast (digits 16 word)).map Char.toUpper)

end FieldFormat

/-- One pass over a format: the arguments left, whether it took any, what it prints, and what is
wrong with the arguments. -/
structure Formatting where
  arguments : List Octets
  used : Bool := false
  out : Octets := []
  faults : List Octets := []
  unknown : Option Octets := none

namespace Formatting

def print (f : Formatting) (cs : Octets) : Formatting := { f with out := f.out ++ cs }

def next (f : Formatting) (format : FieldFormat) : Formatting :=
  let arg := f.arguments.headD []
  let fault := if format.isNumeric then (FieldFormat.argumentNumber arg).2 else none
  { f with
    arguments := f.arguments.tail
    used := true
    out := f.out ++ format.apply arg
    faults := f.faults ++ (fault.map fun why => arg ++ ofText s!": {why}").toList }

def run : Nat → Octets → Formatting → Formatting
  | 0, _, f => f
  | _, [], f => f
  | n + 1, '%' :: '%' :: r, f => run n r (f.print ['%'])
  | n + 1, '%' :: r, f =>
    match FieldFormat.read? r with
    | some (format, rest) =>
      if format.isKnown then run n rest (f.next format)
      else { f with unknown := some ('%' :: r.take (r.length - rest.length)) }
    | none => { f with unknown := some ('%' :: r) }
  | n + 1, '\\' :: c :: r, f =>
    let ds := ((c :: r).take 3).takeWhile isOctal
    let taken := max 1 ds.length
    run n ((c :: r).drop taken) (f.print (unescape false 5 ('\\' :: (c :: r).take taken)))
  | n + 1, c :: r, f => run n r (f.print [c])

def runAll (format : Octets) : Nat → List Octets → Formatting
  | 0, args => { arguments := args }
  | n + 1, args =>
    let f := run (format.length + 1) format { arguments := args }
    if f.used && !f.arguments.isEmpty && f.unknown.isNone then
      let g := runAll format n f.arguments
      { g with out := f.out ++ g.out, faults := f.faults ++ g.faults }
    else f

end Formatting

end Changeover.Shell
