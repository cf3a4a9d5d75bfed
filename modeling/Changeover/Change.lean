import Changeover.Change.AbsentFile
import Changeover.Change.PackageSet
import Changeover.Change.Rehearsed
import Changeover.UndoStack

/-!
# Changes to a host

All the kinds of change the undo stack of a conversion holds, with the host as their world.
-/

namespace Changeover

inductive Change where
  | file (f : SavedFile)
  | absent (f : AbsentFile)
  | packages (s : PackageSet)
  | rehearsed (c : RehearsedChange)

namespace Change

def describe : Change → String
  | .file f => f.describe
  | .absent f => f.describe
  | .packages s => s.describe
  | .rehearsed c => c.name

def enabled : Change → Bool
  | .file f => f.enabled
  | .absent f => f.enabled
  | .packages s => s.enabled
  | .rehearsed c => c.enabled

def enable (c : Change) (h : Host) : Except (Stop Fault) Unit × Change × Host :=
  match c with
  | .file f =>
    let (r, f', fs) := f.enable h.files
    (r.mapError .failed, .file f', { h with files := fs })
  | .absent f =>
    let (r, f') := f.enable h.files
    (r.mapError .failed, .absent f', h)
  | .packages s =>
    let (r, s', h') := s.enable h
    (r.mapError .failed, .packages s', h')
  | .rehearsed c =>
    let (r, c', h') := c.enable h
    (r, .rehearsed c', h')

def restore (c : Change) (h : Host) : Except (Stop Fault) Unit × Change × Host :=
  match c with
  | .file f =>
    let (r, f', fs) := f.restore h.files
    (r.mapError .failed, .file f', { h with files := fs })
  | .absent f =>
    let (r, f', fs) := f.restore h.files
    (r.mapError .failed, .absent f', { h with files := fs })
  | .packages s =>
    let (r, s', h') := s.restore h
    (r.mapError .failed, .packages s', h')
  | .rehearsed c =>
    let (r, c', h') := c.restore h
    (r, .rehearsed c', h')

end Change

instance : Reversible Change Host where
  describe := Change.describe
  enabled := Change.enabled
  enable := Change.enable
  restore := Change.restore

namespace Change

theorem enable_file {f f' : SavedFile} {h : Host} {r : Except Fault Unit} {fs : FileSystem}
    (he : f.enable h.files = (r, f', fs)) :
    Reversible.enable (Change.file f) h =
      (r.mapError .failed, .file f', { h with files := fs }) := by
  simp only [Reversible.enable, enable, he]

theorem enable_absent {f f' : AbsentFile} {h : Host} {r : Except Fault Unit}
    (he : f.enable h.files = (r, f')) :
    Reversible.enable (Change.absent f) h = (r.mapError .failed, .absent f', h) := by
  simp only [Reversible.enable, enable, he]

theorem enable_packages {s s' : PackageSet} {h h' : Host} {r : Except Fault Unit}
    (he : s.enable h = (r, s', h')) :
    Reversible.enable (Change.packages s) h = (r.mapError .failed, .packages s', h') := by
  simp only [Reversible.enable, enable, he]

theorem failed_eq_ok {r : Except Fault Unit} :
    r.mapError Stop.failed = .ok () ↔ r = .ok () := by
  cases r with
  | error e => exact iff_of_false (fun h => nomatch h) (fun h => nomatch h)
  | ok u => exact iff_of_true rfl rfl

theorem restore_file (f : SavedFile) (h : Host) :
    (Reversible.restore (Change.file f) h).2.2 = { h with files := (f.restore h.files).2.2 } ∧
      ((Reversible.restore (Change.file f) h).1 = .ok () ↔ (f.restore h.files).1 = .ok ()) := by
  exact ⟨rfl, failed_eq_ok⟩

theorem restore_absent (f : AbsentFile) (h : Host) :
    (Reversible.restore (Change.absent f) h).2.2 = { h with files := (f.restore h.files).2.2 } ∧
      ((Reversible.restore (Change.absent f) h).1 = .ok () ↔ (f.restore h.files).1 = .ok ()) := by
  exact ⟨rfl, failed_eq_ok⟩

/-- What is rehearsed leaves a host alone but for its journal. -/
theorem restore_rehearsed (c : RehearsedChange) (h : Host) :
    ∃ journal, (Reversible.restore (Change.rehearsed c) h).2.2 = { h with journal } := by
  change ∃ journal, (c.restore h).2.2 = { h with journal }
  unfold RehearsedChange.restore
  split
  · exact ⟨h.journal, rfl⟩
  · split
    · exact ⟨_, rfl⟩
    · exact ⟨_, rfl⟩

end Change

end Changeover
