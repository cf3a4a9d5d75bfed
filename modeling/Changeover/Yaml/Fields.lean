import Changeover.Yaml.Grammar

/-!
# Fields of YAML mappings

Reading a record from a mapping: entries that are not asked for are passed over, whatever they
hold, and a field that is asked for may not be given twice. A text may be any scalar. Where a list
or a record is asked for, nothing may be written.
-/

namespace Changeover.Yaml

namespace Document

def text? (d : Document) (n : Node) : Option String :=
  match d.resolve n with
  | .scalar _ _ text => some text
  | _ => none

def boolTag : String := "tag:yaml.org,2002:bool"

/-- Whether a scalar can be a truth value: it is plain, or it is literal and tagged as one. -/
def admitsBool (p : Properties) : Style → Bool
  | .plain => true
  | .literal => p.tag == some boolTag
  | _ => false

def bool? (d : Document) (n : Node) : Option Bool :=
  match d.resolve n with
  | .scalar p style text =>
    if !admitsBool p style then none
    else if ["true", "True", "TRUE"].contains text then some true
    else if ["false", "False", "FALSE"].contains text then some false
    else none
  | _ => none

def texts? (d : Document) (n : Node) : Option (List String) :=
  match d.resolve n with
  | .sequence _ items => items.mapM d.text?
  | n => if n.isEmpty then some [] else none

end Document

structure Fields where
  document : Document
  members : List (String × Node)

namespace Fields

def ofNode? (d : Document) (n : Node) : Option Fields :=
  match d.resolve n with
  | .mapping _ entries => do
    pure ⟨d, ← entries.mapM fun (k, v) => do pure (← d.text? k, v)⟩
  | n => if n.isEmpty then some ⟨d, []⟩ else none

def optional? {α : Type} (f : Fields) (name : String) (dflt : α)
    (decode : Document → Node → Option α) : Option α :=
  match f.members.filter (·.1 == name) with
  | [] => some dflt
  | [(_, n)] => decode f.document n
  | _ => none

end Fields

end Changeover.Yaml
