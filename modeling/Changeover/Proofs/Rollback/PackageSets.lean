import Changeover.Proofs.Rollback.Installed
import Mathlib.Logic.Basic

/-!
# Package sets on top of each other

Sets that share packages are pushed one after the other, and everything is popped. A set installs
only what is missing at its push, so each package that was added belongs to one set, and the
packages of the start belong to none. Whichever calls of the manager fail, no removal names a
package of the start; and if no restore failed, the packages are again those of the start.
-/

namespace Changeover

namespace PackageManager

/-- Answers are true, failed queries and installations change nothing, and what is installed or
removed is exactly what was asked for. Any call may fail, and whether it does may depend on all the
calls before, which a manager can keep on the host. -/
structure Faithful (m : PackageManager) : Prop where
  query : ∀ q h p, p ∈ (m.isInstalled q h).2.packages.installed ↔ p ∈ h.packages.installed
  answer : ∀ q h b, (m.isInstalled q h).1 = .ok b → (b = true ↔ q ∈ h.packages.installed)
  refused : ∀ ps r h e, (m.install ps r h).1 = .error e → ∀ p,
    p ∈ (m.install ps r h).2.packages.installed ↔ p ∈ h.packages.installed
  installed : ∀ ps r h names, (m.install ps r h).1 = .ok names → ∀ p,
    (p ∈ names ↔ p ∈ ps) ∧
      (p ∈ (m.install ps r h).2.packages.installed ↔ p ∈ h.packages.installed ∨ p ∈ ps)
  removed : ∀ ps h, (m.remove ps h).1 = .ok () → ∀ p,
    p ∈ (m.remove ps h).2.packages.installed ↔ p ∈ h.packages.installed ∧ p ∉ ps

theorem ledger_faithful (query install remove : Option Fault) :
    (ledger { query, install, remove }).Faithful := by
  refine ⟨?_, ?_, ?_, ?_, ?_⟩
  · intro q h p
    cases query <;> exact Iff.rfl
  · intro q h b hb
    cases query with
    | some f => cases hb
    | none =>
      cases hb
      exact List.contains_iff_mem
  · intro ps r h e he p
    cases install with
    | some f => exact Iff.rfl
    | none => cases he
  · intro ps r h names hn p
    cases install with
    | some f => cases hn
    | none =>
      cases hn
      exact ⟨Iff.rfl, Ledger.mem_add⟩
  · intro ps h hok p
    cases remove with
    | some f => cases hok
    | none => exact Ledger.mem_drop

/-- The manager with an alarm: whoever asks to remove a package of `kept` sets it off. -/
def guarded (m : PackageManager) (kept : List String)
    (alarm : List String → Host → Except Fault Unit × Host) : PackageManager :=
  { m with remove := fun ps h => if ps.any kept.contains then alarm ps h else m.remove ps h }

section

variable (m : PackageManager) (kept : List String)
  (alarm : List String → Host → Except Fault Unit × Host)

theorem guarded_isInstalled : (m.guarded kept alarm).isInstalled = m.isInstalled := rfl

theorem guarded_install : (m.guarded kept alarm).install = m.install := rfl

theorem guarded_remove {ps : List String} (hps : ∀ p ∈ ps, p ∉ kept) (h : Host) :
    (m.guarded kept alarm).remove ps h = m.remove ps h := by
  have hquiet : ps.any kept.contains = false := by
    rw [List.any_eq_false]
    intro p hp
    rw [List.contains_iff_mem]
    exact hps p hp
  simp only [guarded, hquiet]
  rfl

end

end PackageManager

/-! ### Pushing -/

namespace PackageSet

theorem not_mem_of_wanted {m : PackageManager} (hm : m.Faithful) {ps names : List String}
    {h h' : Host} (hw : wanted m ps h = (.ok names, h')) :
    ∀ p ∈ names, p ∉ h'.packages.installed := by
  induction ps generalizing h names with
  | nil =>
    cases hw
    exact fun p hp => absurd hp List.not_mem_nil
  | cons q ps ih =>
    unfold wanted at hw
    have hquery := hm.query q h
    have hanswer := hm.answer q h
    rcases hq : m.isInstalled q h with ⟨_ | there, h₁⟩
    · simp [hq] at hw
    rw [hq] at hquery hanswer
    have hrest := wanted_keeps
      (P := fun w => q ∈ w.packages.installed ↔ q ∈ h.packages.installed)
      (fun q' w hw' => (hm.query q' w q).trans hw') ps h₁ (hquery q)
    rcases hw' : wanted m ps h₁ with ⟨_ | rest, h₂⟩
    · simp [hq, hw'] at hw
    rw [hw'] at hrest
    simp only [hq, hw', Prod.mk.injEq, Except.ok.injEq] at hw
    obtain ⟨rfl, rfl⟩ := hw
    cases there with
    | true => exact ih hw'
    | false =>
      intro p hp
      rcases List.mem_cons.mp hp with rfl | hp
      · rw [hrest]
        exact fun hin => Bool.false_ne_true ((hanswer false rfl).mpr hin)
      · exact ih hw' p hp

end PackageSet

theorem PackageManager.Faithful.attributed {s : PackageSet} (hm : s.manager.Faithful)
    (hstate : s.state = .pending) (hnew : s.installed = []) (h : Host) :
    PackageSet.Attributed h (s.enable h).1 (s.enable h).2.1 (s.enable h).2.2 := by
  refine (PackageSet.enabling hstate h).attributed hnew hm.query ?_ ?_
  · intro ps w e
    exact hm.refused ps s.repositories w e
  · intro ps names w w' hw hi p
    obtain ⟨hnames, hadded⟩ := hm.installed ps s.repositories w names (by rw [hi]) p
    rw [hi] at hadded
    refine ⟨?_, ?_⟩
    · rw [hnames]
      exact PackageSet.not_mem_of_wanted hm hw p
    · rw [hadded, hnames]

def pushSets (m : PackageManager) (sets : List (List String × Repositories))
    (w : UndoStack Change × Host) : UndoStack Change × Host :=
  sets.foldl (fun w set => (w.1.push
    (.packages { packages := set.1, repositories := set.2, manager := m }) w.2).2) w

/-- Push sets on an empty stack and pop everything. -/
def undoSets (m : PackageManager) (sets : List (List String × Repositories)) (h : Host) :
    UndoStack Change × Host :=
  let (u, h') := pushSets m sets ({}, h)
  (u.popAll h').2

namespace Stocked

variable {m : PackageManager} {present : String → Prop} {cs : List Change} {h : Host}

theorem pushSets (hm : m.Faithful) (sets : List (List String × Repositories))
    {w : UndoStack Change × Host} (hs : Stocked m present w.1.changes w.2) :
    Stocked m present (pushSets m sets w).1.changes (pushSets m sets w).2 := by
  induction sets generalizing w with
  | nil => exact hs
  | cons set sets ih => exact ih (hs.push_attributed rfl rfl (hm.attributed rfl rfl w.2))

theorem apart (hs : Stocked m present cs h) {p : String} (hp : present p) : ¬ RemovedBy cs p :=
  ((hs.kept p).mpr hp).2

theorem restoreEach (hm : m.Faithful) (hs : Stocked m present cs h)
    (hf : (UndoStack.restoreEach cs h).2.1 = []) :
    Stocked m present [] (UndoStack.restoreEach cs h).2.2 := by
  induction cs generalizing h with
  | nil => exact hs
  | cons c cs ih =>
    rw [UndoStack.restoreEach_cons_failures, List.append_eq_nil_iff, Option.toList_eq_nil_iff]
      at hf
    obtain ⟨hfirst, hrest⟩ := hf
    rw [UndoStack.restoreEach_cons_world]
    refine ih ?_ hrest
    rw [UndoStack.restoreOne_world]
    refine hs.restore_of_ok hm.removed ?_
    rintro s rfl
    exact Change.failed_eq_ok.mp (UndoStack.restoreOne_eq_none.mp hfirst)

end Stocked

/-! ### Alarms -/

/-- The change with another manager, if it has one. -/
def Change.managedBy (m : PackageManager) : Change → Change
  | .packages s => .packages { s with manager := m }
  | c => c

namespace PackageSet

variable {m m' : PackageManager} {s : PackageSet}

theorem wanted_congr (hq : m'.isInstalled = m.isInstalled) (ps : List String) (h : Host) :
    wanted m' ps h = wanted m ps h := by
  induction ps generalizing h with
  | nil => rfl
  | cons p ps ih => simp only [wanted, hq, ih]

theorem enable_managedBy (hq : m.isInstalled = s.manager.isInstalled)
    (hi : m.install = s.manager.install) (h : Host) :
    ({ s with manager := m } : PackageSet).enable h =
      ((s.enable h).1, { (s.enable h).2.1 with manager := m }, (s.enable h).2.2) := by
  obtain ⟨packages, repositories, m', installed, state⟩ := s
  cases state with
  | enabled => rfl
  | restored => rfl
  | pending =>
    simp only [enable, wanted_congr hq, hi]
    rcases wanted m' packages h with ⟨_ | ps, h'⟩
    · rfl
    · cases ps with
      | nil => rfl
      | cons p ps =>
        simp only
        rcases m'.install (p :: ps) repositories h' with ⟨_ | names, h''⟩
        · rfl
        · rfl

theorem restore_managedBy {h : Host}
    (hr : s.state = .enabled → m.remove s.installed h = s.manager.remove s.installed h) :
    ({ s with manager := m } : PackageSet).restore h =
      ((s.restore h).1, { (s.restore h).2.1 with manager := m }, (s.restore h).2.2) := by
  obtain ⟨packages, repositories, m', installed, state⟩ := s
  cases state with
  | pending => rfl
  | restored => rfl
  | enabled =>
    simp only [restore, hr]
    cases installed with
    | nil => rfl
    | cons p ps =>
      rcases m'.remove (p :: ps) h with ⟨_ | _, h'⟩
      · rfl
      · rfl

end PackageSet

theorem UndoStack.restoreEach_managedBy {m : PackageManager} {cs : List Change}
    (hr : ∀ s, .packages s ∈ cs → s.state = .enabled → ∀ h,
      m.remove s.installed h = s.manager.remove s.installed h) (h : Host) :
    (restoreEach (cs.map (Change.managedBy m)) h).2 = (restoreEach cs h).2 := by
  induction cs generalizing h with
  | nil => rfl
  | cons c cs ih =>
    have hrestore : Reversible.restore (c.managedBy m) h = ((Reversible.restore c h).1,
        (Reversible.restore c h).2.1.managedBy m, (Reversible.restore c h).2.2) := by
      cases c with
      | packages s =>
        have hset := PackageSet.restore_managedBy fun hs => hr s List.mem_cons_self hs h
        simp only [Change.managedBy, Reversible.restore, Change.restore, hset]
      | _ => rfl
    have hdescribe : Reversible.describe (c.managedBy m) = Reversible.describe c := by
      cases c <;> rfl
    have hone : (restoreOne (c.managedBy m) h).1 = (restoreOne c h).1 ∧
        (restoreOne (c.managedBy m) h).2.2 = (restoreOne c h).2.2 := by
      simp only [restoreOne, hrestore, hdescribe]
      rcases Reversible.restore c h with ⟨_ | _, c', h'⟩
      · exact ⟨rfl, rfl⟩
      · exact ⟨rfl, rfl⟩
    have hrest := ih (fun s hs => hr s (List.mem_cons_of_mem c hs)) (restoreOne c h).2.2
    simp only [List.map_cons, restoreEach, hone, hrest]

/-- Two stacks and their hosts are the same but for the manager of the changes. -/
structure Alike (m : PackageManager) (w w' : UndoStack Change × Host) : Prop where
  changes : w'.1.changes = w.1.changes.map (Change.managedBy m)
  failures : w'.1.failures = w.1.failures
  host : w'.2 = w.2

namespace Alike

variable {m m' : PackageManager} {w w' : UndoStack Change × Host}

theorem push (hw : Alike m' w w') {s : PackageSet} (hq : m'.isInstalled = s.manager.isInstalled)
    (hi : m'.install = s.manager.install) :
    Alike m' (w.1.push (.packages s) w.2).2
      (w'.1.push (.packages { s with manager := m' }) w'.2).2 := by
  obtain ⟨u, h⟩ := w
  obtain ⟨u', h'⟩ := w'
  obtain ⟨hchanges, hfailures, rfl⟩ := hw
  have henable' := Change.enable_packages (PackageSet.enable_managedBy hq hi h')
  rcases he : s.enable h' with ⟨r, t, h₁⟩
  have henable := Change.enable_packages he
  rw [he] at henable'
  cases r with
  | error e =>
    rw [UndoStack.push_of_error henable, UndoStack.push_of_error henable']
    exact ⟨hchanges, hfailures, rfl⟩
  | ok _ =>
    rw [UndoStack.push_of_ok henable, UndoStack.push_of_ok henable']
    refine ⟨?_, hfailures, rfl⟩
    exact congrArg (Change.packages _ :: ·) hchanges

theorem pushSets (hw : Alike m' w w') (hq : m'.isInstalled = m.isInstalled)
    (hi : m'.install = m.install) (sets : List (List String × Repositories)) :
    Alike m' (pushSets m sets w) (pushSets m' sets w') := by
  induction sets generalizing w w' with
  | nil => exact hw
  | cons set sets ih => exact ih (hw.push hq hi)

theorem popAll (hw : Alike m' w w') (hr : ∀ s, .packages s ∈ w.1.changes → s.state = .enabled →
    ∀ h, m'.remove s.installed h = s.manager.remove s.installed h) :
    (w'.1.popAll w'.2).2 = (w.1.popAll w.2).2 := by
  have hrestored := UndoStack.restoreEach_managedBy hr w.2
  obtain ⟨hworld, hfailures⟩ := w.1.popAll_restores w.2
  obtain ⟨hworld', hfailures'⟩ := w'.1.popAll_restores w.2
  rw [hw.changes, hrestored] at hworld' hfailures'
  rw [hw.failures, ← hfailures] at hfailures'
  have hentries := (w'.1.popAll_entries w.2).trans (w.1.popAll_entries w.2).symm
  rw [hw.host]
  exact Prod.ext (congrArg₂ UndoStack.mk hentries hfailures') (hworld'.trans hworld.symm)

end Alike

/-- Whatever sets are pushed and whichever calls fail, no removal names a package of the start: an
alarm on those packages is never set off. If no restore failed, the packages are those of the
start. -/
theorem package_sets_rolled_back {m : PackageManager} (hm : m.Faithful)
    (sets : List (List String × Repositories)) (h : Host) :
    ((undoSets m sets h).1.failures = [] → ∀ p,
      p ∈ (undoSets m sets h).2.packages.installed ↔ p ∈ h.packages.installed) ∧
    ∀ alarm, undoSets (m.guarded h.packages.installed alarm) sets h = undoSets m sets h := by
  have hpushed : Stocked m (· ∈ h.packages.installed) (pushSets m sets ({}, h)).1.changes
      (pushSets m sets ({}, h)).2 := Stocked.pushSets hm sets (.nil m h)
  constructor
  · intro hf p
    obtain ⟨hworld, hfailures⟩ :=
      (pushSets m sets ({}, h)).1.popAll_restores (pushSets m sets ({}, h)).2
    have hnone := (List.append_eq_nil_iff.mp (hfailures.symm.trans hf)).2
    have hend := (hpushed.restoreEach hm hnone).kept p
    rw [← hworld] at hend
    rw [← hend]
    exact (and_iff_left fun ⟨_, hs, _⟩ => absurd hs List.not_mem_nil).symm
  · intro alarm
    have hstart : Alike (m.guarded h.packages.installed alarm) ({}, h) ({}, h) := ⟨rfl, rfl, rfl⟩
    have halike := hstart.pushSets (m.guarded_isInstalled _ _) (m.guarded_install _ _) sets
    refine halike.popAll ?_
    intro s hs henabled w
    obtain rfl := hpushed.managed s hs
    apply PackageManager.guarded_remove
    intro p hp hpresent
    exact hpushed.apart hpresent ⟨s, hs, henabled, hp⟩

def sharedSets : List (List String × Repositories) := [
  (["release", "kernel"], { enable := ["vendor"] }), (["release", "logos", "logos"], {}),
  (["kernel"], {}), (["logos", "tools"], {})]

def kernelHost : Host := { packages := { installed := ["kernel"] } }

/-- All four sets are tracked and undone without a failure, and no removal names the kernel. -/
theorem package_sets_rolled_back_shared :
    (pushSets (.ledger {}) sharedSets ({}, kernelHost)).2.packages.installed =
      ["kernel", "release", "logos", "tools"] ∧
    (pushSets (.ledger {}) sharedSets ({}, kernelHost)).1.size = 4 ∧
    (undoSets (.ledger {}) sharedSets kernelHost).1.failures = [] ∧
    (∀ p, p ∈ (undoSets (.ledger {}) sharedSets kernelHost).2.packages.installed ↔
      p ∈ kernelHost.packages.installed) ∧
    undoSets (PackageManager.guarded (.ledger {}) ["kernel"] fun _ h =>
      (.error ⟨"kernel removed", []⟩, h)) sharedSets kernelHost =
        undoSets (.ledger {}) sharedSets kernelHost := by
  have hlaw := package_sets_rolled_back (PackageManager.ledger_faithful none none none) sharedSets
    kernelHost
  have hnone : (undoSets (.ledger {}) sharedSets kernelHost).1.failures = [] := rfl
  exact ⟨rfl, rfl, hnone, hlaw.1 hnone, hlaw.2 _⟩

end Changeover
