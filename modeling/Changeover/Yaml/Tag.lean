import Changeover.Yaml.Character
import Changeover.Yaml.Quoted
import Changeover.Yaml.Token

/-!
# Tags, anchors and directives

A tag is written in full between angle brackets, or as a handle and a suffix. Octets of a tag may
be given by two hexadecimal digits; together they must be laid out as a character.
-/

namespace Changeover.Yaml

namespace Tag

def isTagChar (full : Bool) (c : Char) : Bool :=
  isNameChar c || (";/?:@&=+$.%!~*'()".toList.contains c) || (full && ",[]".toList.contains c)

/-- How many octets a character has that begins with this one, and what the octet holds of it. -/
def lead? (octet : Nat) : Option (Nat × Nat) :=
  if octet < 0x80 then some (1, octet)
  else if octet < 0xc0 then none
  else if octet < 0xe0 then some (2, octet - 0xc0)
  else if octet < 0xf0 then some (3, octet - 0xe0)
  else if octet < 0xf8 then some (4, octet - 0xf0)
  else none

def decode? (owed value : Nat) : List Char → Option (List Char)
  | '%' :: a :: b :: cs => do
    let octet := (← Quoted.hexValue? a) * 16 + (← Quoted.hexValue? b)
    if owed = 0 then
      let (n, v) ← lead? octet
      if n = 1 then return Char.ofNat v :: (← decode? 0 0 cs) else decode? (n - 1) v cs
    else if octet < 0x80 || 0xc0 ≤ octet then none
    else
      let v := value * 64 + (octet - 0x80)
      if owed = 1 then return Char.ofNat v :: (← decode? 0 0 cs) else decode? (owed - 1) v cs
  | c :: cs => if owed = 0 && c != '%' then (decode? 0 0 cs).map (c :: ·) else none
  | [] => if owed = 0 then some [] else none

def uri? (full : Bool) (c : Cursor) : Option (String × Cursor) := do
  let (cs, c) := c.run (isTagChar full)
  pure (String.ofList (← decode? 0 0 cs), c)

def handle? (c : Cursor) : Option (String × Cursor) :=
  if c.rest.head? ≠ some '!' then none
  else
    let (cs, c) := (c.skip 1).run isNameChar
    if c.rest.head? = some '!' then some (String.ofList ('!' :: cs ++ ['!']), c.skip 1)
    else some (String.ofList ('!' :: cs), c)

def isComplete (handle : String) : Bool := 2 ≤ handle.length && handle.endsWith "!"

/-- A tag: its handle, if it is not written in full, and its suffix. -/
def scan? (flow : Bool) (c : Cursor) : Option (Token × Cursor) := do
  let (t, c) ←
    if c.rest.take 2 == ['!', '<'] then do
      let (suffix, c) ← uri? true (c.skip 2)
      if suffix.isEmpty || c.rest.head? ≠ some '>' then none
      else pure (Token.tag none suffix, c.skip 1)
    else do
      let (handle, c) ← handle? c
      let (suffix, c) ← uri? false c
      if isComplete handle then
        if suffix.isEmpty then none else pure (Token.tag (some handle) suffix, c)
      else
        let suffix := String.ofList (handle.toList.drop 1) ++ suffix
        pure (if suffix.isEmpty then Token.tag none "!" else Token.tag (some "!") suffix, c)
  if endsWord c.rest || (flow && c.rest.head? = some ',') then pure (t, c) else none

end Tag

def anchorName? (c : Cursor) : Option (String × Cursor) :=
  let (cs, c) := c.run isNameChar
  let fits := match c.rest with
    | [] => true
    | d :: _ => isGap d || "?:,]\x7d%@`".toList.contains d
  if cs.isEmpty || !fits then none else some (String.ofList cs, c)

namespace Directive

def number? (c : Cursor) : Option (Nat × Cursor) :=
  let (ds, c) := c.run Char.isDigit
  if ds.isEmpty || 9 < ds.length then none
  else some (ds.foldl (fun n d => 10 * n + (d.toNat - '0'.toNat)) 0, c)

def version? (c : Cursor) : Option (Token × Cursor) := do
  let (major, c) ← number? (c.pass isSpace)
  if c.rest.head? ≠ some '.' then none
  else
    let (minor, c) ← number? (c.skip 1)
    pure (.version major minor, c)

def tagHandle? (c : Cursor) : Option (Token × Cursor) := do
  let (handle, c) ← Tag.handle? (c.pass isSpace)
  if handle ≠ "!" && !Tag.isComplete handle then none
  else if !(c.rest.head?.any isSpace) then none
  else
    let (meaning, c) ← Tag.uri? true (c.pass isSpace)
    if meaning.isEmpty || !endsWord c.rest then none else pure (.handle handle meaning, c)

def scan? (c : Cursor) : Option (Token × Cursor) := do
  let (name, c) := c.run isNameChar
  if !endsWord c.rest then none
  else
    let (t, c) ←
      if name == "YAML".toList then version? c
      else if name == "TAG".toList then tagHandle? c
      else none
    pure (t, ← c.endLine?)

end Directive

end Changeover.Yaml
