import Changeover.Yaml.Layout
import Changeover.Yaml.Node

/-!
# The grammar of YAML

How tokens make up a document. Where a node may be left out, an empty plain scalar stands for it. A
text holds one document, which may be empty.
-/

namespace Changeover.Yaml

structure Parsing where
  tokens : List Token
  handles : List (String × String) := []
  /-- The names of anchors and their numbers, the last given first. -/
  anchors : List (String × Nat) := []

abbrev Parser := StateT Parsing Option

namespace Parser

def peek : Parser (Option Token) := do pure (← get).tokens.head?

def drop : Parser Unit := modify fun p => { p with tokens := p.tokens.tail }

def accept (t : Token) : Parser Bool := do
  if (← peek) == some t then
    drop
    pure true
  else pure false

def expect (t : Token) : Parser Unit := do if !(← accept t) then failure

def nextIn (ts : List Token) : Parser Bool := do
  match ← peek with
  | some t => pure (ts.contains t)
  | none => pure false

/-- A number for an anchor: how many names of anchors there are before it. A name that is given
again gets a new number. -/
def number (name : String) : Parser Nat := do
  let p ← get
  let n := (p.anchors.map (·.1)).eraseDups.length
  set { p with anchors := (name, n) :: p.anchors }
  pure n

def tagText (handle : Option String) (suffix : String) : Parser String := do
  match handle with
  | none => pure suffix
  | some h =>
    match (← get).handles.lookup h with
    | some meaning => pure (meaning ++ suffix)
    | none => failure

def anchor? : Parser (Option Nat) := do
  match ← peek with
  | some (.anchor name) =>
    drop
    pure (some (← number name))
  | _ => pure none

def tag? : Parser (Option String) := do
  match ← peek with
  | some (.tag handle suffix) =>
    drop
    pure (some (← tagText handle suffix))
  | _ => pure none

def properties : Parser Properties := do
  match ← anchor? with
  | some a => pure ⟨some a, ← tag?⟩
  | none =>
    match ← tag? with
    | some t => pure ⟨← anchor?, some t⟩
    | none => pure {}

mutual

/-- A node, with at most `fuel` steps. `block` admits block collections, and `level` a sequence
that is not indented further than the key it belongs to. -/
def node : Nat → Bool → Bool → Parser Node
  | 0, _, _ => failure
  | fuel + 1, block, level => do
    match ← peek with
    | some (.alias name) =>
      drop
      match (← get).anchors.lookup name with
      | some n => pure (.alias n)
      | none => failure
    | _ =>
      let p ← properties
      match ← peek with
      | some (.scalar style text) =>
        drop
        pure (.scalar p style text)
      | some .sequenceOpen =>
        drop
        pure (.sequence p (← flowItems fuel true))
      | some .mappingOpen =>
        drop
        pure (.mapping p (← flowEntries fuel true))
      | some .blockSequence =>
        if block then
          drop
          pure (.sequence p (← blockItems fuel))
        else left p
      | some .blockMapping =>
        if block then
          drop
          pure (.mapping p (← blockEntries fuel))
        else left p
      | some .blockEntry =>
        if level then pure (.sequence p (← levelItems fuel)) else left p
      | _ => left p
where
  left (p : Properties) : Parser Node := if p = {} then failure else pure (.empty p)

def nodeUnless : Nat → List Token → Bool → Bool → Parser Node
  | 0, _, _, _ => failure
  | fuel + 1, stops, block, level => do
    if ← nextIn stops then pure .empty else node fuel block level

def blockItems : Nat → Parser (List Node)
  | 0 => failure
  | fuel + 1 => do
    if ← accept .blockEntry then
      let n ← nodeUnless fuel [.blockEntry, .blockEnd] true false
      pure (n :: (← blockItems fuel))
    else
      expect .blockEnd
      pure []

def levelItems : Nat → Parser (List Node)
  | 0 => failure
  | fuel + 1 => do
    if ← accept .blockEntry then
      let n ← nodeUnless fuel [.blockEntry, .key, .value, .blockEnd] true false
      pure (n :: (← levelItems fuel))
    else pure []

def blockEntries : Nat → Parser (List (Node × Node))
  | 0 => failure
  | fuel + 1 => do
    if ← accept .key then
      let k ← nodeUnless fuel [.key, .value, .blockEnd] true true
      let v ←
        if ← accept .value then nodeUnless fuel [.key, .value, .blockEnd] true true
        else pure .empty
      pure ((k, v) :: (← blockEntries fuel))
    else
      expect .blockEnd
      pure []

/-- The items of a flow sequence and its end. An item may be a mapping of one entry without
brackets; where that entry's key is left out, the token that tells so is passed over. -/
def flowItems : Nat → Bool → Parser (List Node)
  | 0, _ => failure
  | fuel + 1, first => do
    if ← accept .sequenceClose then pure []
    else
      if !first then expect .flowEntry
      if ← accept .key then
        let k ←
          if ← nextIn [.value, .flowEntry, .sequenceClose] then do
            drop
            pure .empty
          else node fuel false false
        let v ←
          if ← accept .value then nodeUnless fuel [.flowEntry, .sequenceClose] false false
          else pure .empty
        pure (.mapping {} [(k, v)] :: (← flowItems fuel false))
      else if ← accept .sequenceClose then pure []
      else
        let n ← node fuel false false
        pure (n :: (← flowItems fuel false))

/-- The entries of a flow mapping and its end. An entry may be a key alone. -/
def flowEntries : Nat → Bool → Parser (List (Node × Node))
  | 0, _ => failure
  | fuel + 1, first => do
    if ← accept .mappingClose then pure []
    else
      if !first then expect .flowEntry
      if ← accept .key then
        let k ← nodeUnless fuel [.value, .flowEntry, .mappingClose] false false
        let v ←
          if ← accept .value then nodeUnless fuel [.flowEntry, .mappingClose] false false
          else pure .empty
        pure ((k, v) :: (← flowEntries fuel false))
      else if ← accept .mappingClose then pure []
      else
        let k ← node fuel false false
        pure ((k, .empty) :: (← flowEntries fuel false))

end

/-- Directives: at most one version, which must be 1.1 or 1.2, and handles that differ. -/
def directives : Nat → Bool → Parser Unit
  | 0, _ => failure
  | fuel + 1, versioned => do
    match ← peek with
    | some (.version major minor) =>
      if versioned || major ≠ 1 || (minor ≠ 1 && minor ≠ 2) then failure
      drop
      directives fuel true
    | some (.handle name meaning) =>
      let p ← get
      if (p.handles.lookup name).isSome then failure
      set { p with handles := (name, meaning) :: p.handles }
      drop
      directives fuel versioned
    | _ => pure ()

/-- The handles that need no directive, which directives may give another meaning. -/
def defaultHandles : List (String × String) := [("!", "!"), ("!!", "tag:yaml.org,2002:")]

def isStart : Token → Bool
  | .version _ _ | .handle _ _ | .documentStart => true
  | _ => false

def content (fuel : Nat) : Parser Node := do
  match ← peek with
  | none | some .documentEnd => pure .empty
  | some t => if isStart t then pure .empty else node fuel true false

def document (fuel : Nat) : Parser Node := do
  match ← peek with
  | none => pure .empty
  | some t =>
    if isStart t then directives fuel false
    modify fun p => { p with handles := p.handles ++ defaultHandles }
    let n ← if isStart t then (do expect .documentStart; content fuel) else node fuel true false
    modify fun p => { p with tokens := p.tokens.dropWhile (· == .documentEnd) }
    if (← peek).isSome then failure
    pure n

end Parser

def Document.parse? (s : String) : Option Document := do
  let ts ← tokens? s
  let fuel := 3 * ts.length + 3
  let (n, _) ← (Parser.document fuel).run { tokens := ts }
  pure (.ofNode n)

end Changeover.Yaml
