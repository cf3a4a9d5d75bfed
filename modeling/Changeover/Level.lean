/-!
# Severity levels

Every finding carries one of five levels. Their order is the order of severity, and the numeric
codes are read by other tools, so both are fixed here. This module does not say which levels an
action may report; that is the tracker's rule.
-/

namespace Changeover

inductive Level where
  | success
  | warning
  | skip
  | overridable
  | error
  deriving DecidableEq, Inhabited

namespace Level

def all : List Level := [.success, .warning, .skip, .overridable, .error]

def rank : Level → Nat
  | .success => 0
  | .warning => 1
  | .skip => 2
  | .overridable => 3
  | .error => 4

instance : LE Level := ⟨fun a b => a.rank ≤ b.rank⟩
instance : LT Level := ⟨fun a b => a.rank < b.rank⟩
instance (a b : Level) : Decidable (a ≤ b) := inferInstanceAs (Decidable (a.rank ≤ b.rank))
instance (a b : Level) : Decidable (a < b) := inferInstanceAs (Decidable (a.rank < b.rank))
instance : Ord Level := ⟨fun a b => compare a.rank b.rank⟩
instance : Max Level := ⟨fun a b => if a ≤ b then b else a⟩

def code : Level → Nat
  | .success => 0
  | .warning => 51
  | .skip => 101
  | .overridable => 152
  | .error => 202

def ofCode? (n : Nat) : Option Level := all.find? (·.code == n)

def name : Level → String
  | .success => "SUCCESS"
  | .warning => "WARNING"
  | .skip => "SKIP"
  | .overridable => "OVERRIDABLE"
  | .error => "ERROR"

def ofName? (s : String) : Option Level := all.find? (·.name == s)

/-- Whether the level stops the conversion. An operator may allow `overridable` for one run. -/
def isBlocking (allowOverridable : Bool) : Level → Bool
  | .error => true
  | .overridable => !allowOverridable
  | _ => false

/-- Whether actions that depend on one which ended at this level must be skipped. -/
def blocksDependents (allowOverridable : Bool) (l : Level) : Bool :=
  l == .skip || l.isBlocking allowOverridable

@[simp] theorem ofName?_name (l : Level) : ofName? l.name = some l := by cases l <;> decide

theorem blocksDependents_eq_false_iff {allowOverridable : Bool} {l : Level} :
    l.blocksDependents allowOverridable = false ↔
      l ≠ .skip ∧ l ≠ .error ∧ (l = .overridable → allowOverridable = true) := by
  cases l with
  | overridable => cases allowOverridable <;> decide
  | _ => simp [blocksDependents, isBlocking]

/-- Allowing overridable findings can only release actions, never hold back more of them. -/
theorem blocksDependents_mono {l : Level} (h : l.blocksDependents true = true) :
    l.blocksDependents false = true := by
  cases l <;> revert h <;> decide

theorem isBlocking_mono {l : Level} (h : l.isBlocking true = true) :
    l.isBlocking false = true := by
  cases l <;> revert h <;> decide

end Level

end Changeover
