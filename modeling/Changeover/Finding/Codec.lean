import Changeover.Finding
import Changeover.Json.Fields

/-!
# Results and messages as JSON

A result is written as an object with all its fields. It is read from an object that has each of
them once, or from an array of them in their written order. A level is its name, or an object with
the name as only member and `null` under it.
-/

namespace Changeover

namespace Level

def encode (l : Level) : JsonTree := .text l.name

def decode? : JsonTree → Option Level
  | .string (some s) => ofName? s
  | .object [(some s, .null)] => ofName? s
  | _ => none

end Level

def encodeFinding (l : Level) (f : Finding) : JsonTree := .record [
  ("level", l.encode), ("id", .text f.id), ("title", .text f.title),
  ("description", .text f.description), ("diagnosis", .text f.diagnosis),
  ("remediations", .text f.remediations),
  ("variables", .record (f.values.entries.map fun e => (e.1, .text e.2)))]

def decodeFinding? : JsonTree → Option (Level × Finding)
  | .array [l, i, t, d, g, m, v] => do
    let level ← Level.decode? l
    let id ← i.text?
    let title ← t.text?
    let description ← d.text?
    let diagnosis ← g.text?
    let remediations ← m.text?
    let values ← v.dictionary?
    pure (level, { id, title, description, diagnosis, remediations, values })
  | tree => do
    let f ← Fields.ofTree? tree
    let level ← f.required? "level" Level.decode?
    let id ← f.required? "id" JsonTree.text?
    let title ← f.required? "title" JsonTree.text?
    let description ← f.required? "description" JsonTree.text?
    let diagnosis ← f.required? "diagnosis" JsonTree.text?
    let remediations ← f.required? "remediations" JsonTree.text?
    let values ← f.required? "variables" JsonTree.dictionary?
    pure (level, { id, title, description, diagnosis, remediations, values })

namespace Result

def encode (r : Result) : JsonTree := encodeFinding r.level r.finding

def decode? (t : JsonTree) : Option Result := (decodeFinding? t).map fun p => ⟨p.1, p.2⟩

end Result

namespace Message

def encode (m : Message) : JsonTree := encodeFinding m.level m.finding

def decode? (t : JsonTree) : Option Message := (decodeFinding? t).map fun p => ⟨p.1, p.2⟩

end Message

end Changeover
