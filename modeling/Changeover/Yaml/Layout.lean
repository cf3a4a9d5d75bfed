import Changeover.Yaml.Block
import Changeover.Yaml.Quoted
import Changeover.Yaml.Tag

/-!
# Layout

How the tokens of a text are told apart. Two things are not written where they belong. A block
collection begins and ends by indentation; the open ones are kept as a stack of margins. And only
a colon tells that what stands before it is a key; so the place of the last thing that could be a
key is kept for every bracket that is open, and the tokens are inserted there.
-/

namespace Changeover.Yaml

/-- Something that is a key if a colon follows it on its line, no further than 1024 characters. -/
structure Candidate where
  /-- Whether it stands where only a key may stand. -/
  required : Bool
  number : Nat
  mark : Mark
  deriving DecidableEq

structure Layout where
  tokens : List Token := []
  cursor : Cursor
  /-- One more than the column of the innermost block collection, or zero outside of any. -/
  margin : Nat := 0
  outer : List Nat := []
  keyAllowed : Bool := true
  candidate : Option Candidate := none
  /-- The candidates outside of the open brackets, one for each bracket. -/
  outerCandidates : List (Option Candidate) := []

namespace Layout

def inFlow (l : Layout) : Bool := !l.outerCandidates.isEmpty

def column (l : Layout) : Nat := l.cursor.mark.column

def emit (l : Layout) (t : Token) : Layout := { l with tokens := t :: l.tokens }

def insert (l : Layout) (number : Nat) (t : Token) : Layout :=
  let later := l.tokens.length - number
  { l with tokens := l.tokens.take later ++ t :: l.tokens.drop later }

def skip (l : Layout) (n : Nat) : Layout := { l with cursor := l.cursor.skip n }

def moveTo (l : Layout) (c : Cursor) : Layout := { l with cursor := c }

def allowKey (l : Layout) (b : Bool) : Layout := { l with keyAllowed := b }

/-! ## Candidates -/

/-- Without the candidate, which must not be one that has to be a key. -/
def dropCandidate? (l : Layout) : Option Layout :=
  if l.candidate.any (·.required) then none else some { l with candidate := none }

def saveCandidate? (l : Layout) : Option Layout :=
  if l.keyAllowed then do
    let required := !l.inFlow && l.margin == l.column + 1
    let l ← l.dropCandidate?
    pure { l with candidate := some ⟨required, l.tokens.length, l.cursor.mark⟩ }
  else some l

def isFresh (m : Mark) (c : Candidate) : Bool :=
  c.mark.line == m.line && m.index ≤ c.mark.index + 1024

/-- The candidate if it can still be a key. It is an error if it cannot and has to be one. -/
def refresh? (m : Mark) : Option Candidate → Option (Option Candidate)
  | none => some none
  | some c => if isFresh m c then some (some c) else if c.required then none else some none

def dropStale? (l : Layout) : Option Layout := do
  let m := l.cursor.mark
  pure { l with
    candidate := ← refresh? m l.candidate
    outerCandidates := ← l.outerCandidates.mapM (refresh? m) }

/-! ## Margins -/

def closeBeyond (l : Layout) (margin : Nat) : Layout :=
  if l.inFlow then l
  else
    let reached := (l.margin :: l.outer).takeWhile (margin < ·)
    let left := (l.margin :: l.outer).dropWhile (margin < ·)
    { l with
      tokens := List.replicate reached.length .blockEnd ++ l.tokens
      margin := left.headD 0
      outer := left.tail }

def openAt (l : Layout) (column : Nat) (put : Layout → Layout) : Layout :=
  if l.inFlow || column < l.margin then l
  else put { l with margin := column + 1, outer := l.margin :: l.outer }

/-! ## Tokens -/

/-- Past spaces, comments and line breaks. A tab does not count as a space where a key may
stand. -/
def passGaps : Nat → Layout → Layout
  | 0, l => l
  | fuel + 1, l =>
    let tabs := l.inFlow || !l.keyAllowed
    let c := l.cursor.pass fun c => c == ' ' || (tabs && c == '\t')
    let c := if c.rest.head? = some '#' then c.passLine else c
    let l := l.moveTo c
    if c.rest.head?.any isBreak then
      passGaps fuel ((l.skip 1).allowKey (l.keyAllowed || !l.inFlow))
    else l

def boundary? (l : Layout) : Option Layout := do
  pure ((← (l.closeBeyond 0).dropCandidate?).allowKey false)

def openBracket? (l : Layout) (t : Token) : Option Layout := do
  let l ← l.saveCandidate?
  pure { (l.skip 1).emit t with
    candidate := none
    outerCandidates := l.candidate :: l.outerCandidates
    keyAllowed := true }

/-- A closing bracket; one that closes nothing is refused later. -/
def closeBracket? (l : Layout) (t : Token) : Option Layout := do
  let l ← l.dropCandidate?
  let l := match l.outerCandidates with
    | [] => l
    | c :: cs => { l with candidate := c, outerCandidates := cs }
  pure ((l.skip 1).emit t |>.allowKey false)

def flowEntry? (l : Layout) : Option Layout := do
  pure ((← l.dropCandidate?).allowKey true |>.skip 1 |>.emit .flowEntry)

/-- A dash. Within brackets it is refused later. -/
def blockEntry? (l : Layout) : Option Layout := do
  if !l.inFlow && !l.keyAllowed then none
  else
    let l ← (l.openAt l.column (·.emit .blockSequence)).dropCandidate?
    pure ((l.allowKey true).skip 1 |>.emit .blockEntry)

def key? (l : Layout) : Option Layout := do
  if !l.inFlow && !l.keyAllowed then none
  else
    let l ← (l.openAt l.column (·.emit .blockMapping)).dropCandidate?
    pure ((l.allowKey !l.inFlow).skip 1 |>.emit .key)

/-- A colon, which makes a key of the candidate if there is one. -/
def value? (l : Layout) : Option Layout := do
  let l ← match l.candidate with
    | some c =>
      let l := (l.insert c.number .key).openAt c.mark.column (·.insert c.number .blockMapping)
      some { l with candidate := none, keyAllowed := false }
    | none =>
      if !l.inFlow && !l.keyAllowed then none
      else some ((l.openAt l.column (·.emit .blockMapping)).allowKey !l.inFlow)
  pure ((l.skip 1).emit .value)

def property? (l : Layout) (scan : Cursor → Option (Token × Cursor)) : Option Layout := do
  let l ← l.saveCandidate?
  let (t, c) ← scan l.cursor
  pure ((l.moveTo c).emit t |>.allowKey false)

def keyScalar? (l : Layout) (style : Style) (scan : Cursor → Option Reading) : Option Layout := do
  let l ← l.saveCandidate?
  let r ← scan l.cursor
  pure ((l.moveTo r.next).emit (.scalar style r.text) |>.allowKey r.overLine)

def blockScalar? (l : Layout) (style : Style) : Option Layout := do
  let l ← l.dropCandidate?
  let r ← Block.scan? (style == .literal) l.margin (l.cursor.skip 1)
  pure ((l.moveTo r.next).emit (.scalar style r.text) |>.allowKey true)

def isIndicator (c : Char) : Bool := "-?:,[]\x7b\x7d#&*!|>'\"%@`".toList.contains c

def startsPlain (flow : Bool) : List Char → Bool
  | [] => false
  | c :: cs =>
    (!isGap c && !isIndicator c) || (c == '-' && !(cs.head?.any isSpace)) ||
      (!flow && (c == '?' || c == ':') && !endsWord cs)

def token? (l : Layout) (c : Char) (cs : List Char) : Option Layout :=
  let flow := l.inFlow
  if l.column == 0 && c == '%' then do
    let l ← l.boundary?
    let (t, c) ← Directive.scan? (l.cursor.skip 1)
    pure ((l.moveTo c).emit t)
  else if l.column == 0 && isDelimiter (c :: cs) then do
    let l ← l.boundary?
    pure ((l.skip 3).emit (if c == '-' then .documentStart else .documentEnd))
  else if c == '[' then l.openBracket? .sequenceOpen
  else if c == '\x7b' then l.openBracket? .mappingOpen
  else if c == ']' then l.closeBracket? .sequenceClose
  else if c == '\x7d' then l.closeBracket? .mappingClose
  else if c == ',' then l.flowEntry?
  else if c == '-' && endsWord cs then l.blockEntry?
  else if c == '?' && (flow || endsWord cs) then l.key?
  else if c == ':' && (flow || endsWord cs) then l.value?
  else if c == '*' then
    l.property? fun c => (anchorName? (c.skip 1)).map fun (n, c) => (.alias n, c)
  else if c == '&' then
    l.property? fun c => (anchorName? (c.skip 1)).map fun (n, c) => (.anchor n, c)
  else if c == '!' then l.property? (Tag.scan? flow)
  else if c == '|' && !flow then l.blockScalar? .literal
  else if c == '>' && !flow then l.blockScalar? .folded
  else if c == '\'' then l.keyScalar? .singleQuoted fun c => Quoted.scan? true (c.skip 1)
  else if c == '"' then l.keyScalar? .doubleQuoted fun c => Quoted.scan? false (c.skip 1)
  else if startsPlain flow (c :: cs) then l.keyScalar? .plain (Plain.scan? flow l.margin)
  else none

def finish? (l : Layout) : Option (List Token) := do
  pure (← (l.closeBeyond 0).dropCandidate?).tokens.reverse

def tokensFrom? : Nat → Layout → Option (List Token)
  | 0, _ => none
  | fuel + 1, l => do
    let l := l.passGaps (l.cursor.rest.length + 1)
    let l ← l.dropStale?
    let l := l.closeBeyond (l.column + 1)
    match l.cursor.rest with
    | [] => l.finish?
    | c :: cs => tokensFrom? fuel (← l.token? c cs)

end Layout

def tokens? (s : String) : Option (List Token) :=
  let cs := joinBreaks s.toList
  if cs.all isAllowed then
    let start : Cursor := ⟨cs, {}⟩
    let start := if cs.head? = some byteOrderMark then start.skip 1 else start
    Layout.tokensFrom? (cs.length + 2) { cursor := start }
  else none

end Changeover.Yaml
