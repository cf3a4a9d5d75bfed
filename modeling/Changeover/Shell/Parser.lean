import Changeover.Shell.Numeral

/-!
# Reading shell scripts

A recursive descent over the characters of a script. Every function takes a bound on the depth of
its calls, which the length of the script gives. A script that does not follow the grammar is
refused as a whole.
-/

namespace Changeover.Shell

def isNameStart (c : Char) : Bool := c.isAlpha || c == '_'

def isNameChar (c : Char) : Bool := c.isAlphanum || c == '_'

def endsWord (c : Char) : Bool := " \t\n;&|<>()".toList.contains c

/-- The text up to a closing character, with the nesting of opening ones; the rest follows it. -/
def untilClose (opening closing : Char) : Nat → Octets → Option (Octets × Octets)
  | _, [] => none
  | depth, c :: cs =>
    if c == closing then
      match depth with
      | 0 => some ([], cs)
      | d + 1 => (untilClose opening closing d cs).map fun (t, r) => (c :: t, r)
    else
      (untilClose opening closing (if c == opening then depth + 1 else depth) cs).map
        fun (t, r) => (c :: t, r)

def isSpecialParameter (c : Char) : Bool := "?#$!0123456789".toList.contains c

def parameterName (inner : Octets) : Octets :=
  match inner with
  | c :: _ =>
    if isNameStart c then inner.takeWhile isNameChar
    else if c.isDigit then inner.takeWhile Char.isDigit
    else if isSpecialParameter c then [c] else []
  | [] => []

def modifier? : Octets → Option (Modifier × Octets)
  | '-' :: r => some (.orText, r)
  | '=' :: r => some (.orAssign, r)
  | '+' :: r => some (.insteadText, r)
  | '?' :: r => some (.orComplain, r)
  | '#' :: '#' :: r => some (.without true true, r)
  | '#' :: r => some (.without true false, r)
  | '%' :: '%' :: r => some (.without false true, r)
  | '%' :: r => some (.without false false, r)
  | _ => none

def bracedParameter? (inner : Octets) (quoted : Bool) : Option WordPart :=
  match inner with
  | ['@'] => some (.arguments false quoted)
  | ['*'] => some (.arguments true quoted)
  | ['#'] => some (.parameter inner quoted)
  | '#' :: name =>
    if parameterName name == name then some (.length name quoted) else none
  | inner =>
    let name := parameterName inner
    if name.isEmpty then none
    else match inner.drop name.length with
      | [] => some (.parameter name quoted)
      | ':' :: r => (modifier? r).map fun (m, operand) => .modified name true m operand quoted
      | r => (modifier? r).map fun (m, operand) => .modified name false m operand quoted

def dollar (quoted : Bool) : Octets → Option (WordPart × Octets)
  | '(' :: '(' :: r => do
    let (inner, r) ← untilClose '(' ')' 0 r
    match r with
    | ')' :: r => some (.arithmetic inner quoted, r)
    | _ => none
  | '(' :: r => (untilClose '(' ')' 0 r).map fun (inner, r) => (.output inner quoted, r)
  | '\x7b' :: r => do
    let (inner, r) ← untilClose '\x7b' '\x7d' 0 r
    some (← bracedParameter? inner quoted, r)
  | c :: r =>
    if c == '@' then some (.arguments false quoted, r)
    else if c == '*' then some (.arguments true quoted, r)
    else if isSpecialParameter c then some (.parameter [c] quoted, r)
    else if isNameStart c then
      let name := (c :: r).takeWhile isNameChar
      some (.parameter name quoted, (c :: r).drop name.length)
    else some (.text ['$'] quoted, c :: r)
  | [] => some (.text ['$'] quoted, [])

def backquote : Char := '\x60'

/-- A script up to the next backquote, where a backslash may stand before a special character. -/
def untilBackquote : Octets → Option (Octets × Octets)
  | [] => none
  | '\\' :: c :: r =>
    (untilBackquote r).map fun (t, r) =>
      (if c == '\\' || c == '$' || c == backquote then c :: t else '\\' :: c :: t, r)
  | c :: r =>
    if c == backquote then some ([], r) else (untilBackquote r).map fun (t, r) => (c :: t, r)

/-- The parts of a text in which only dollar signs, backquotes and some backslashes have a meaning.
A `document` goes to its end, other text to a closing quote. -/
def quotedParts (document : Bool) : Nat → Octets → Option (Word × Octets)
  | 0, _ => none
  | _, [] => if document then some ([.text [] true], []) else none
  | n + 1, '\\' :: c :: r => do
    let (ps, r) ← quotedParts document n r
    let special := c == '$' || c == '\\' || c == backquote || (c == '"' && !document)
    let kept := if special then [c] else if c == '\n' then [] else ['\\', c]
    some (.text kept true :: ps, r)
  | n + 1, '$' :: r => do
    let (p, r) ← dollar true r
    let (ps, r) ← quotedParts document n r
    some (p :: ps, r)
  | n + 1, c :: r =>
    if c == '"' && !document then some ([.text [] true], r)
    else if c == backquote then do
      let (inner, r) ← untilBackquote r
      let (ps, r) ← quotedParts document n r
      some (.output inner true :: ps, r)
    else do
      let (ps, r) ← quotedParts document n r
      some (.text [c] true :: ps, r)

/-- The parts of a text in double quotes, up to the closing quote. Quotes make a field even of no
text, but not of no arguments. -/
def doubleQuoted (cs : Octets) : Option (Word × Octets) := do
  let (ps, r) ← quotedParts false (cs.length + 1) cs
  some (if ps.contains (.arguments false true) then ps.dropLast else ps, r)

/-- The parts of a word up to the character that ends it, or to the end of the text if it is
`whole`. -/
def wordParts (whole : Bool) : Nat → Octets → Option (Word × Octets)
  | 0, _ => none
  | _, [] => some ([], [])
  | n + 1, '\'' :: r => do
    let inner := r.takeWhile (· != '\'')
    match r.drop inner.length with
    | _ :: r =>
      let (ps, r) ← wordParts whole n r
      some (.text inner true :: ps, r)
    | [] => none
  | n + 1, '"' :: r => do
    let (qs, r) ← doubleQuoted r
    let (ps, r) ← wordParts whole n r
    some (qs ++ ps, r)
  | n + 1, '\\' :: c :: r => do
    let (ps, r) ← wordParts whole n r
    some ((if c == '\n' then ps else .text [c] true :: ps), r)
  | n + 1, '$' :: r => do
    let (p, r) ← dollar false r
    let (ps, r) ← wordParts whole n r
    some (p :: ps, r)
  | n + 1, c :: r =>
    if c == backquote then do
      let (inner, r) ← untilBackquote r
      let (ps, r) ← wordParts whole n r
      some (.output inner false :: ps, r)
    else if endsWord c && !whole then some ([], c :: r)
    else do
      let (ps, r) ← wordParts whole n r
      some (.text [c] false :: ps, r)

def operand (quoted : Bool) (cs : Octets) : Word :=
  let read := if quoted then doubleQuoted (cs ++ ['"'])
    else wordParts true (cs.length + 1) cs
  (read.map (·.1)).getD [.text cs quoted]

/-- A word, which may be empty. A tilde alone or before a slash stands for the home directory. -/
def tildeWord (cs : Octets) : Option (Word × Octets) :=
  let plain := wordParts false (cs.length + 1)
  match cs with
  | '~' :: r =>
    if r.head?.all (fun c => c == '/' || endsWord c) then
      (plain r).map fun (ps, r) => (.modified "HOME".toList false .orText ['~'] true :: ps, r)
    else plain cs
  | cs => plain cs

def word? (cs : Octets) : Option (Word × Octets) := do
  let (ps, r) ← tildeWord cs
  if ps.isEmpty then none else some (ps, r)

def skipBlanks : Octets → Octets
  | ' ' :: r => skipBlanks r
  | '\t' :: r => skipBlanks r
  | '\\' :: '\n' :: r => skipBlanks r
  | '#' :: r => r.dropWhile (· != '\n')
  | cs => cs

def skipLines : Nat → Octets → Octets
  | 0, cs => cs
  | n + 1, cs =>
    match skipBlanks cs with
    | '\n' :: r => skipLines n r
    | r => r

def plainWord (cs : Octets) : Octets :=
  let w := cs.takeWhile (!endsWord ·)
  if w.any fun c => "'\"\\$".toList.contains c || c == backquote then [] else w

def keyword? (k : String) (cs : Octets) : Option Octets :=
  let cs := skipBlanks cs
  if plainWord cs == k.toList then some (cs.drop k.length) else none

def closing? (k : String) (cs : Octets) : Option Octets :=
  keyword? k (skipLines (cs.length + 1) cs)

def endsList (w : Octets) : Bool :=
  ["then", "do", "done", "fi", "else", "elif", "esac", "\x7d"].any (·.toList == w)

/-- The lines up to a closing one, and what follows it. Tabs in front of lines may be dropped. -/
def linesUntil (stripped : Bool) (close : Octets) : Nat → Octets → Octets × Octets
  | 0, cs => ([], cs)
  | _, [] => ([], [])
  | n + 1, cs =>
    let line := cs.takeWhile (· != '\n')
    let rest := cs.drop (line.length + 1)
    let line := if stripped then line.dropWhile (· == '\t') else line
    if line == close then ([], rest)
    else
      let (more, rest) := linesUntil stripped close n rest
      (line ++ '\n' :: more, rest)

/-- A document that starts on the next line, given the text after its operator. A quoted closing
word takes the meaning from what is in it. -/
def document? (stripped : Bool) (cs : Octets) : Option (Word × Octets) := do
  let (mark, r) ← word? (skipBlanks cs)
  let close := mark.flatMap fun
    | .text cs _ => cs
    | _ => []
  let line := r.takeWhile (· != '\n')
  let (text, rest) := linesUntil stripped close (r.length + 1) (r.drop (line.length + 1))
  let parts ← if mark.any (·.isQuoted) then some [.text text true]
    else (quotedParts true (text.length + 1) text).map (·.1)
  some (parts, line ++ '\n' :: rest)

def redirection? (cs : Octets) : Option (Redirection × Octets) := do
  let (descriptor, r) ← match cs with
    | '<' :: _ | '>' :: _ => some (none, cs)
    | d :: '<' :: r => if d.isDigit then some (some (digitValue d), '<' :: r) else none
    | d :: '>' :: r => if d.isDigit then some (some (digitValue d), '>' :: r) else none
    | _ => none
  let fileAfter (make : Word → Target) (dflt : Nat) (r : Octets) :
      Option (Redirection × Octets) := do
    let (w, r) ← word? (skipBlanks r)
    some (⟨descriptor.getD dflt, make w⟩, r)
  match r with
  | '>' :: '>' :: r => fileAfter .append 1 r
  | '>' :: '&' :: d :: r =>
    if d.isDigit then some (⟨descriptor.getD 1, .duplicate (digitValue d)⟩, r)
    else if d == '-' then some (⟨descriptor.getD 1, .close⟩, r) else none
  | '>' :: '|' :: r => fileAfter .truncate 1 r
  | '>' :: r => fileAfter .truncate 1 r
  | '<' :: '<' :: '-' :: r => do
    let (w, r) ← document? true r
    some (⟨descriptor.getD 0, .document w⟩, r)
  | '<' :: '<' :: r => do
    let (w, r) ← document? false r
    some (⟨descriptor.getD 0, .document w⟩, r)
  | '<' :: '&' :: d :: r =>
    if d == '-' then some (⟨descriptor.getD 0, .close⟩, r) else none
  | '<' :: r => fileAfter .input 0 r
  | _ => none

def redirections : Nat → Octets → Option (List Redirection × Octets)
  | 0, cs => some ([], cs)
  | n + 1, cs =>
    match redirection? (skipBlanks cs) with
    | none => some ([], cs)
    | some (d, r) => do
      let (ds, r) ← redirections n r
      some (d :: ds, r)

def assignment? (cs : Octets) : Option ((Octets × Word) × Octets) := do
  let name := cs.takeWhile isNameChar
  if !(name.head?.any isNameStart) then none
  match cs.drop name.length with
  | '=' :: r =>
    let (value, r) ← tildeWord r
    some ((name, value), r)
  | _ => none

def simpleParts : Nat → Octets →
    Option (List (Octets × Word) × List Word × List Redirection × Octets)
  | 0, _ => none
  | n + 1, cs => do
    let cs := skipBlanks cs
    match cs with
    | [] => some ([], [], [], [])
    | c :: _ =>
      match redirection? cs with
      | some (d, r) =>
        let (as, ws, ds, r) ← simpleParts n r
        some (as, ws, d :: ds, r)
      | none =>
        if endsWord c then some ([], [], [], cs)
        else
          let (w, r) ← word? cs
          let (as, ws, ds, r) ← simpleParts n r
          some (as, w :: ws, ds, r)

def assignments : Nat → Octets → List (Octets × Word) × Octets
  | 0, cs => ([], cs)
  | n + 1, cs =>
    match assignment? (skipBlanks cs) with
    | none => ([], cs)
    | some (a, r) =>
      let (as, r) := assignments n r
      (a :: as, r)

def simple? (cs : Octets) : Option (Command × Octets) := do
  let (as, r) := assignments (cs.length + 1) cs
  let (_, ws, ds, r) ← simpleParts (cs.length + 1) r
  if as.isEmpty && ws.isEmpty && ds.isEmpty then none
  else some (.simple (cs.count '\n') as ws ds, r)

def loopWords : Nat → Octets → Option (List Word × Octets)
  | 0, _ => none
  | n + 1, cs =>
    match skipBlanks cs with
    | [] => none
    | c :: r =>
      if c == ';' || c == '\n' then some ([], r)
      else do
        let (w, r) ← word? (c :: r)
        let (ws, r) ← loopWords n r
        some (w :: ws, r)

def casePatterns : Nat → Octets → Option (List Word × Octets)
  | 0, _ => none
  | n + 1, cs => do
    let (w, r) ← word? (skipBlanks cs)
    match skipBlanks r with
    | '|' :: r =>
      let (ws, r) ← casePatterns n r
      some (w :: ws, r)
    | ')' :: r => some ([w], r)
    | _ => none

def functionName? (cs : Octets) : Option (Octets × Octets) :=
  let name := plainWord cs
  if !(name.head?.any isNameStart) || !name.all isNameChar then none
  else match skipBlanks (cs.drop name.length) with
    | '(' :: r =>
      match skipBlanks r with
      | ')' :: r => some (name, skipLines (r.length + 1) r)
      | _ => none
    | _ => none

def skipSemicolon (cs : Octets) : Octets :=
  match skipBlanks cs with
  | ';' :: r => r
  | r => r

mutual

def command? : Nat → Octets → Option (Command × Octets)
  | 0, _ => none
  | n + 1, cs => do
    let cs := skipBlanks cs
    let w := plainWord cs
    let found : Option (Command × Octets) ←
      if w == "if".toList then (branch? n (cs.drop 2)).map some
      else if w == "while".toList then (loop? n true (cs.drop 5)).map some
      else if w == "until".toList then (loop? n false (cs.drop 5)).map some
      else if w == "for".toList then (forEach? n (cs.drop 3)).map some
      else if w == "case".toList then (select? n (cs.drop 4)).map some
      else if w == "\x7b".toList then do
        let (body, r) ← list? n (cs.drop 1)
        let r ← closing? "\x7d" r
        some (some (.group false body, r))
      else match cs with
        | '(' :: r => do
          let (body, r) ← list? n r
          match skipLines (r.length + 1) r with
          | ')' :: r => some (some (.group true body, r))
          | _ => none
        | _ => some none
    match found with
    | none =>
      match functionName? cs with
      | some (name, r) =>
        let (body, r) ← command? n r
        some (.define name body, r)
      | none => simple? cs
    | some (c, r) =>
      let (ds, r) ← redirections (r.length + 1) r
      some (if ds.isEmpty then (c, r) else (.redirected c ds, r))

def branch? : Nat → Octets → Option (Command × Octets)
  | 0, _ => none
  | n + 1, cs => do
    let (condition, r) ← list? n cs
    let r ← closing? "then" r
    let (consequence, r) ← list? n r
    match closing? "elif" r with
    | some r =>
      let (otherwise, r) ← branch? n r
      some (.choose condition consequence otherwise, r)
    | none =>
      match closing? "else" r with
      | some r =>
        let (otherwise, r) ← list? n r
        let r ← closing? "fi" r
        some (.choose condition consequence otherwise, r)
      | none =>
        let r ← closing? "fi" r
        some (.choose condition consequence (.list []), r)

def loop? : Nat → Bool → Octets → Option (Command × Octets)
  | 0, _, _ => none
  | n + 1, wanted, cs => do
    let (condition, r) ← list? n cs
    let (body, r) ← doBody? n r
    some (.loop wanted condition body, r)

def forEach? : Nat → Octets → Option (Command × Octets)
  | 0, _ => none
  | n + 1, cs => do
    let cs := skipBlanks cs
    let name := cs.takeWhile isNameChar
    let r := cs.drop name.length
    let (words, r) ← match keyword? "in" r with
      | some r => (loopWords (r.length + 1) r).map fun (ws, r) => (some ws, r)
      | none => some (none, skipSemicolon r)
    let (body, r) ← doBody? n r
    some (.forEach name words body, r)

def select? : Nat → Octets → Option (Command × Octets)
  | 0, _ => none
  | n + 1, cs => do
    let (w, r) ← word? (skipBlanks cs)
    let r ← keyword? "in" (skipLines (r.length + 1) r)
    let (cases, r) ← cases? n r
    some (.select w cases, r)

def cases? : Nat → Octets → Option (List (List Word × Command) × Octets)
  | 0, _ => none
  | n + 1, cs => do
    match closing? "esac" cs with
    | some r => some ([], r)
    | none =>
      let cs := skipLines (cs.length + 1) cs
      let cs := if cs.head? == some '(' then cs.drop 1 else cs
      let (patterns, r) ← casePatterns (cs.length + 1) cs
      let (body, r) ← list? n r
      match skipLines (r.length + 1) r with
      | ';' :: ';' :: r =>
        let (more, r) ← cases? n r
        some ((patterns, body) :: more, r)
      | r =>
        let r ← closing? "esac" r
        some ([(patterns, body)], r)

def doBody? : Nat → Octets → Option (Command × Octets)
  | 0, _ => none
  | n + 1, cs => do
    let r ← closing? "do" cs
    let (body, r) ← list? n r
    let r ← closing? "done" r
    some (body, r)

def pipeline? : Nat → Octets → Option (Command × Octets)
  | 0, _ => none
  | n + 1, cs =>
    match keyword? "!" cs with
    | some r => do
      let (c, r) ← pipeline? n r
      some (.negated c, r)
    | none => do
      let (c, r) ← command? n cs
      match skipBlanks r with
      | '|' :: '|' :: _ => some (c, r)
      | '|' :: r => do
        let (d, r) ← pipeline? n (skipLines (r.length + 1) r)
        some (match d with
          | .pipeline ds => (.pipeline (c :: ds), r)
          | d => (.pipeline [c, d], r))
      | _ => some (c, r)

def joined? : Nat → Command → Octets → Option (Command × Octets)
  | 0, _, _ => none
  | n + 1, first, cs =>
    match skipBlanks cs with
    | '&' :: '&' :: r => do
      let (d, r) ← pipeline? n (skipLines (r.length + 1) r)
      joined? n (.both first d) r
    | '|' :: '|' :: r => do
      let (d, r) ← pipeline? n (skipLines (r.length + 1) r)
      joined? n (.either first d) r
    | _ => some (first, cs)

/-- Commands up to a word that ends the list, a closing parenthesis, a double semicolon or the end
of the text. -/
def list? : Nat → Octets → Option (Command × Octets)
  | 0, _ => none
  | n + 1, cs => do
    let cs := skipLines (cs.length + 1) cs
    match cs with
    | [] => some (.list [], [])
    | ')' :: _ => some (.list [], cs)
    | ';' :: ';' :: _ => some (.list [], cs)
    | _ =>
      if endsList (plainWord cs) then some (.list [], cs)
      else
        let (p, r) ← pipeline? n cs
        let (c, r) ← joined? n p r
        let more (c : Command) (r : Octets) : Option (Command × Octets) := do
          let (d, r) ← list? n r
          some (match d with
            | .list ds => (.list (c :: ds), r)
            | d => (.list [c, d], r))
        match skipBlanks r with
        | ';' :: ';' :: r => some (.list [c], ';' :: ';' :: r)
        | ';' :: r => more c r
        | '\n' :: r => more c r
        | '&' :: r => more (.background c) r
        | [] => some (.list [c], [])
        | r => if endsList (plainWord r) || r.head? == some ')' then some (.list [c], r) else none

end

def script? (cs : Octets) : Option Command :=
  match list? (8 * cs.length + 8) cs with
  | some (c, []) => some c
  | _ => none

end Changeover.Shell
