import Changeover.Json.Fields

/-!
# Settings of a run

Two switches, and how they are written as JSON. A switch that is not given is off; in the array form
only switches at the end may be left out.
-/

namespace Changeover

structure Settings where
  /-- Do not let overridable findings block. -/
  allowOverridable : Bool := false
  /-- Run independent actions of a stage in one batch. -/
  parallel : Bool := false
  deriving DecidableEq, Inhabited

namespace Settings

def encode (s : Settings) : JsonTree := .record [
  ("allow_overridable", .bool s.allowOverridable), ("parallel", .bool s.parallel)]

def decode? : JsonTree → Option Settings
  | .array [] => some {}
  | .array [a] => do pure { allowOverridable := ← a.bool? }
  | .array [a, p] => do pure { allowOverridable := ← a.bool?, parallel := ← p.bool? }
  | tree => do
    let f ← Fields.ofTree? tree
    let allowOverridable ← f.optional? "allow_overridable" false JsonTree.bool?
    let parallel ← f.optional? "parallel" false JsonTree.bool?
    pure { allowOverridable, parallel }

end Settings

end Changeover
