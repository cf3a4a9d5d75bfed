import Changeover.Dictionary
import Changeover.Json.Reader

/-!
# Fields of JSON objects

Reading a record from an object: members that are not asked for are passed over, whatever they
hold, and a field that is asked for may not be given twice. Maps of texts are the exception: there
the last value of a name stays.
-/

namespace Changeover

/-- Fields an object must or may have, by name. -/
structure Fields where
  members : List (JsonString × JsonTree)

namespace Fields

def ofTree? : JsonTree → Option Fields
  | .object ms => if ms.all (·.1.isSome) then some ⟨ms⟩ else none
  | _ => none

def all (f : Fields) (name : String) : List JsonTree :=
  (f.members.filter (·.1 == some name)).map (·.2)

def required? {α : Type} (f : Fields) (name : String) (decode : JsonTree → Option α) : Option α :=
  match f.all name with
  | [t] => decode t
  | _ => none

def optional? {α : Type} (f : Fields) (name : String) (dflt : α) (decode : JsonTree → Option α) :
    Option α :=
  match f.all name with
  | [] => some dflt
  | [t] => decode t
  | _ => none

end Fields

namespace JsonTree

def text? : JsonTree → Option String
  | .string s => s
  | _ => none

def bool? : JsonTree → Option Bool
  | .bool b => some b
  | _ => none

/-- An object of texts; the last value of a name stays. -/
def dictionary? : JsonTree → Option (Dictionary String)
  | .object ms => do
    let pairs ← ms.mapM fun m => do pure ((← m.1), (← m.2.text?))
    pure (.ofList pairs)
  | _ => none

end JsonTree

end Changeover
