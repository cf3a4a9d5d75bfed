/-!
# JSON documents

Documents as trees, and their two written forms: compact, and indented by two blanks. Members keep
their order and may repeat; what a repeated name means is up to whoever reads the document.
-/

namespace Changeover

/-- A string of a document. `none` stands for one whose escapes hold half of a surrogate pair, so
that it is no text; a reader that skips it need not mind. -/
abbrev JsonString := Option String

inductive JsonTree where
  | null
  | bool (b : Bool)
  | number (literal : List Char)
  | string (s : JsonString)
  | array (items : List JsonTree)
  | object (members : List (JsonString × JsonTree))
  deriving Inhabited

namespace JsonTree

def text (s : String) : JsonTree := .string (some s)

def record (members : List (String × JsonTree)) : JsonTree :=
  .object (members.map fun m => (some m.1, m.2))

def hexDigits (n : Nat) : List Char :=
  [Nat.digitChar (n / 4096 % 16), Nat.digitChar (n / 256 % 16), Nat.digitChar (n / 16 % 16),
    Nat.digitChar (n % 16)]

/-- A character inside quotes. Quotes, backslashes and control characters are escaped. -/
def escape (c : Char) : List Char :=
  if c == '"' then ['\\', '"']
  else if c == '\\' then ['\\', '\\']
  else if c == '\n' then ['\\', 'n']
  else if c == '\r' then ['\\', 'r']
  else if c == '\t' then ['\\', 't']
  else if c == '\x08' then ['\\', 'b']
  else if c == '\x0c' then ['\\', 'f']
  else if c.toNat < 0x20 then '\\' :: 'u' :: hexDigits c.toNat
  else [c]

def quote : JsonString → List Char
  | some s => '"' :: s.toList.flatMap escape ++ ['"']
  | none => "\"\\ud800\"".toList

def spread (separator : List Char) : List (List Char) → List Char
  | [] => []
  | [p] => p
  | p :: q :: ps => p ++ separator ++ spread separator (q :: ps)

mutual

def compact : JsonTree → List Char
  | .null => "null".toList
  | .bool true => "true".toList
  | .bool false => "false".toList
  | .number literal => literal
  | .string s => quote s
  | .array items => '[' :: spread [','] (compactItems items) ++ [']']
  | .object members => '{' :: spread [','] (compactMembers members) ++ ['}']

def compactItems : List JsonTree → List (List Char)
  | [] => []
  | t :: ts => compact t :: compactItems ts

def compactMembers : List (JsonString × JsonTree) → List (List Char)
  | [] => []
  | (k, t) :: ms => (quote k ++ ':' :: compact t) :: compactMembers ms

end

def newline (depth : Nat) : List Char := '\n' :: List.replicate (2 * depth) ' '

mutual

/-- The form with one item a line, `depth` levels deep. Empty arrays and objects stay on one
line. -/
def indented (depth : Nat) : JsonTree → List Char
  | .null => "null".toList
  | .bool true => "true".toList
  | .bool false => "false".toList
  | .number literal => literal
  | .string s => quote s
  | .array [] => ['[', ']']
  | .array (t :: ts) =>
    '[' :: newline (depth + 1) ++
      spread (',' :: newline (depth + 1))
        (indented (depth + 1) t :: indentedItems (depth + 1) ts) ++
      newline depth ++ [']']
  | .object [] => ['{', '}']
  | .object ((k, t) :: ms) =>
    '{' :: newline (depth + 1) ++
      spread (',' :: newline (depth + 1))
        ((quote k ++ ':' :: ' ' :: indented (depth + 1) t) :: indentedMembers (depth + 1) ms) ++
      newline depth ++ ['}']

def indentedItems (depth : Nat) : List JsonTree → List (List Char)
  | [] => []
  | t :: ts => indented depth t :: indentedItems depth ts

def indentedMembers (depth : Nat) : List (JsonString × JsonTree) → List (List Char)
  | [] => []
  | (k, t) :: ms => (quote k ++ ':' :: ' ' :: indented depth t) :: indentedMembers depth ms

end

def print (t : JsonTree) : String := String.ofList t.compact

def pretty (t : JsonTree) : String := String.ofList (t.indented 0)

end JsonTree

end Changeover
