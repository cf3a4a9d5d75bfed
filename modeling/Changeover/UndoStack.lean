import Changeover.Fault

/-!
# Reversible changes and the stack that undoes them

A change saves something when it is enabled and puts it back when it is restored. The stack
enables what is pushed on it and restores from the top, so changes are undone in the reverse of
the order they were made in. Markers divide the stack into phases. A restore that fails or panics
is written down and never stops the others.

The module knows nothing of what a change saves; see `Reversible`.
-/

namespace Changeover

class Reversible (C : Type) (W : outParam Type) where
  describe : C → String
  enabled : C → Bool
  /-- Save, so that `restore` can undo what follows. -/
  enable : C → W → Except (Stop Fault) Unit × C × W
  restore : C → W → Except (Stop Fault) Unit × C × W

inductive Entry (C : Type) where
  | change (c : C)
  | marker

namespace Entry

variable {C : Type}

def change? : Entry C → Option C
  | .change c => some c
  | .marker => none

def isMarker : Entry C → Bool
  | .change _ => false
  | .marker => true

end Entry

inductive UndoError where
  | nothingToRestore
  | enableFailed (change : String) (cause : Fault)
  deriving DecidableEq

namespace UndoError

def message : UndoError → String
  | .nothingToRestore => "No backups to restore"
  | .enableFailed change cause => s!"Failed to enable {change} -- {cause.text}"

def toFault (e : UndoError) : Fault :=
  match e with
  | .nothingToRestore => ⟨e.message, []⟩
  | .enableFailed _ cause => ⟨e.message, cause.texts⟩

end UndoError

/-- Tracked changes and markers, newest first, and the restores that went wrong, oldest first. -/
structure UndoStack (C : Type) where
  entries : List (Entry C) := []
  failures : List String := []
  deriving Inhabited

namespace UndoStack

variable {C W : Type} [Reversible C W]

def changes (s : UndoStack C) : List C := s.entries.filterMap Entry.change?

def size (s : UndoStack C) : Nat := s.changes.length

def isEmpty (s : UndoStack C) : Bool := s.changes.isEmpty

def phases (s : UndoStack C) : Nat := s.entries.countP Entry.isMarker

def tracked (s : UndoStack C) : List String := s.changes.map (Reversible.describe (W := W))

def rollbackFailed (s : UndoStack C) : Bool := !s.failures.isEmpty

def summary (s : UndoStack C) : String :=
  s!"BackupController \x7b entries: {s.entries.length}, failures: {s.failures.length} \x7d"

/-- Enable a change and track it. A change that cannot be enabled is not tracked, though what it
did to the world stays done. -/
def push (s : UndoStack C) (c : C) (w : W) : Except (Stop UndoError) Unit × UndoStack C × W :=
  match Reversible.enable c w with
  | (.ok (), c', w') => (.ok (), { s with entries := .change c' :: s.entries }, w')
  | (.error e, _, w') =>
    (.error (e.map (.enableFailed (Reversible.describe (W := W) c))), s, w')

def pushMarker (s : UndoStack C) : UndoStack C := { s with entries := .marker :: s.entries }

/-- Restore one change. A failure gives the line to write down. -/
def restoreOne (c : C) (w : W) : Option String × C × W :=
  match Reversible.restore c w with
  | (.ok (), c', w') => (none, c', w')
  | (.error e, c', w') => (some s!"{Reversible.describe (W := W) c}: {e.report}", c', w')

def restoreEach : List C → W → List C × List String × W
  | [], w => ([], [], w)
  | c :: cs, w =>
    let (failure, c', w') := restoreOne c w
    let (cs', failures, w'') := restoreEach cs w'
    (c' :: cs', failure.toList ++ failures, w'')

def unwind (s : UndoStack C) (cs : List C) (rest : List (Entry C)) (w : W) :
    List C × UndoStack C × W :=
  let (restored, failures, w') := restoreEach cs w
  (restored, ⟨rest, s.failures ++ failures⟩, w')

/-- Restore the newest change. Markers above it are dropped with it. -/
def pop (s : UndoStack C) (w : W) : Except UndoError C × UndoStack C × W :=
  match s.entries.dropWhile Entry.isMarker with
  | .change c :: rest =>
    let (failure, c', w') := restoreOne c w
    (.ok c', ⟨rest, s.failures ++ failure.toList⟩, w')
  | _ => (.error .nothingToRestore, s, w)

/-- Restore every change, newest first. Markers are dropped even if there is no change. -/
def popAll (s : UndoStack C) (w : W) : Except UndoError (List C) × UndoStack C × W :=
  if s.isEmpty then (.error .nothingToRestore, { s with entries := [] }, w)
  else
    let (restored, s', w') := s.unwind s.changes [] w
    (.ok restored, s', w')

/-- Restore the newest phase and remove its marker. Without a marker nothing happens. -/
def popPhase (s : UndoStack C) (w : W) : List C × UndoStack C × W :=
  match s.entries.dropWhile (!·.isMarker) with
  | [] => ([], s, w)
  | _ :: rest =>
    s.unwind ((s.entries.takeWhile (!·.isMarker)).filterMap Entry.change?) rest w

/-- Forget every change without restoring it, and say how many there were. -/
def commit (s : UndoStack C) : Nat × UndoStack C := (s.size, { s with entries := [] })

theorem filterMap_change?_dropWhile (es : List (Entry C)) :
    (es.dropWhile Entry.isMarker).filterMap Entry.change? = es.filterMap Entry.change? := by
  induction es with
  | nil => rfl
  | cons e es ih =>
    cases e with
    | change c => rfl
    | marker => exact ih

theorem filterMap_change?_phase (es : List (Entry C)) :
    (es.takeWhile (!·.isMarker)).filterMap Entry.change? ++
      (es.dropWhile (!·.isMarker)).filterMap Entry.change? = es.filterMap Entry.change? := by
  rw [← List.filterMap_append, List.takeWhile_append_dropWhile]

theorem changes_eq_phase_append {s : UndoStack C} {e : Entry C} {rest : List (Entry C)}
    (h : s.entries.dropWhile (!·.isMarker) = e :: rest) :
    s.changes = (s.entries.takeWhile (!·.isMarker)).filterMap Entry.change? ++
      rest.filterMap Entry.change? := by
  have hm : e.change? = none := by
    have hne : s.entries.dropWhile (!·.isMarker) ≠ [] := by simp [h]
    have hhead := List.head_dropWhile_not (!Entry.isMarker ·) hne
    cases e <;> simp_all [Entry.isMarker, Entry.change?]
  have hall := filterMap_change?_phase s.entries
  rw [h, List.filterMap_cons_none hm] at hall
  exact hall.symm

theorem push_of_ok {s : UndoStack C} {c c' : C} {w w' : W}
    (h : Reversible.enable c w = (.ok (), c', w')) :
    s.push c w = (.ok (), { s with entries := .change c' :: s.entries }, w') := by
  simp only [push, h]

theorem push_of_error {s : UndoStack C} {c c' : C} {w w' : W} {e : Stop Fault}
    (h : Reversible.enable c w = (.error e, c', w')) :
    s.push c w = (.error (e.map (.enableFailed (Reversible.describe (W := W) c))), s, w') := by
  simp only [push, h]

theorem changes_push (s : UndoStack C) (c : C) (w : W) :
    (s.push c w).2.1.changes = s.changes ∨ ∃ c', (s.push c w).2.1.changes = c' :: s.changes := by
  unfold push
  split
  · exact Or.inr ⟨_, rfl⟩
  · exact Or.inl rfl

theorem pop_of_changes_cons {s : UndoStack C} {c : C} {cs : List C} (h : s.changes = c :: cs)
    (w : W) :
    ∃ rest, rest.filterMap Entry.change? = cs ∧
      s.pop w = (.ok (restoreOne c w).2.1, s.unwind [c] rest w |>.2) := by
  unfold changes at h
  rw [← filterMap_change?_dropWhile] at h
  unfold pop
  cases he : s.entries.dropWhile Entry.isMarker with
  | nil => simp [he] at h
  | cons e rest =>
    cases e with
    | marker =>
      have hne : s.entries.dropWhile Entry.isMarker ≠ [] := by simp [he]
      have hm := List.head_dropWhile_not Entry.isMarker hne
      simp [he, Entry.isMarker] at hm
    | change d =>
      rw [he] at h
      obtain ⟨rfl, rfl⟩ : d = c ∧ rest.filterMap Entry.change? = cs := by
        simpa [Entry.change?] using h
      refine ⟨rest, rfl, ?_⟩
      simp [unwind, restoreEach]

theorem pop_of_changes_nil {s : UndoStack C} (h : s.changes = []) (w : W) :
    s.pop w = (.error .nothingToRestore, s, w) := by
  unfold changes at h
  rw [← filterMap_change?_dropWhile] at h
  unfold pop
  split
  · next c rest he => simp [he, Entry.change?] at h
  · rfl

theorem restoreEach_cons_world (c : C) (cs : List C) (w : W) :
    (restoreEach (c :: cs) w).2.2 = (restoreEach cs (restoreOne c w).2.2).2.2 := rfl

theorem restoreEach_append_world (cs ds : List C) (w : W) :
    (restoreEach (cs ++ ds) w).2.2 = (restoreEach ds (restoreEach cs w).2.2).2.2 := by
  induction cs generalizing w with
  | nil => rfl
  | cons c cs ih => exact ih _

theorem restoreEach_cons_failures (c : C) (cs : List C) (w : W) :
    (restoreEach (c :: cs) w).2.1 =
      (restoreOne c w).1.toList ++ (restoreEach cs (restoreOne c w).2.2).2.1 := rfl

theorem restoreOne_world (c : C) (w : W) :
    (restoreOne c w).2.2 = (Reversible.restore c w).2.2 := by
  unfold restoreOne
  split
  · rename_i h
    rw [h]
  · rename_i h
    rw [h]

theorem restoreOne_eq_none {c : C} {w : W} :
    (restoreOne c w).1 = none ↔ (Reversible.restore c w).1 = .ok () := by
  unfold restoreOne
  split
  · rename_i h
    simp [h]
  · rename_i h
    simp [h]

theorem popAll_restores (s : UndoStack C) (w : W) :
    (s.popAll w).2.2 = (restoreEach s.changes w).2.2 ∧
      (s.popAll w).2.1.failures = s.failures ++ (restoreEach s.changes w).2.1 := by
  unfold popAll
  split
  · rename_i he
    have hnil : s.changes = [] := by simpa [isEmpty] using he
    simp [hnil, restoreEach]
  · exact ⟨rfl, rfl⟩

theorem popAll_entries (s : UndoStack C) (w : W) : (s.popAll w).2.1.entries = [] := by
  unfold popAll
  split
  · rfl
  · rfl

/-- What holds of the changes left and the world at every step holds at the end. -/
theorem restoreEach_induct {P : List C → W → Prop}
    (hstep : ∀ c cs w, P (c :: cs) w → P cs (restoreOne c w).2.2) (cs : List C) (w : W)
    (h : P cs w) : P [] (restoreEach cs w).2.2 := by
  induction cs generalizing w with
  | nil => exact h
  | cons c cs ih => exact ih _ (hstep c cs w h)

end UndoStack

end Changeover
