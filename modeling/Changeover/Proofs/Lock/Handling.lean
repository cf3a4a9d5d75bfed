import Changeover.Cli
import Changeover.Proofs.Lock.File

/-!
# Nothing but the lock file

Whatever is in the directory and whatever goes wrong, an acquisition leaves the files as they were,
but for the lock file that it makes if it succeeds; and a release takes away that file alone, and
only if it names the process.
-/

namespace Changeover

open FileSystem

/-- What was at a place is still there, and what is new is a directory. -/
def FileSystem.KeptAt (fs fs' : FileSystem) (l : Location) : Prop :=
  fs'.tree.node? l = fs.tree.node? l ∨
    fs.tree.node? l = none ∧ fs'.tree.node? l = some .directory

namespace PidLock

variable {fs fs' fs₁ : FileSystem} {path : Path} {pid holder : Nat} {l : Location} {lock : PidLock}

/-! ### Reading -/

theorem readPid_eq_some_iff : readPid fs path = .ok (some pid) ↔
    ∃ text, fs.readText path = .ok text ∧ pid? (Text.trimmed text.toList) = some pid := by
  unfold readPid
  constructor
  · intro h
    split at h
    · cases h
    · cases h
    · next text hread =>
      split at h
      · next hpid =>
        cases h
        exact ⟨text, hread, hpid⟩
      · cases h
  · rintro ⟨text, hread, hpid⟩
    rw [hread]
    simp only [hpid]

theorem recognise_eq_ok (h : recognise fs path pid = .ok lock) :
    lock = ⟨path, pid⟩ ∧ readPid fs path = .ok (some pid) := by
  unfold recognise at h
  split at h
  · cases h
  · cases h
  · next holder hreads =>
    split at h
    · next heq =>
      cases h
      exact ⟨rfl, heq ▸ hreads⟩
    · cases h

/-! ### Acquiring -/

theorem Taken.of_error {c : Circumstances} {e : LockError}
    (h : Taken c path pid fs (.error e, fs')) : fs' = fs := by
  generalize hr : (Except.error e, fs') = r at h
  cases h with
  | unfilled _ => exact (Prod.mk.inj hr).2
  | unlinked _ => exact (Prod.mk.inj hr).2
  | recognised _ => exact (Prod.mk.inj hr).2
  | made _ => cases (Prod.mk.inj hr).1

theorem Taken.of_ok {c : Circumstances} (h : Taken c path pid fs (.ok lock, fs')) :
    lock = ⟨path, pid⟩ ∧
      (fs.tree.node? (fs.place path) = none ∧
          fs' = fs.withFile (fs.place path) (content pid).toUTF8 ∨
        readPid fs path = .ok (some pid) ∧ fs' = fs) := by
  generalize hr : (Except.ok lock, fs') = r at h
  cases h with
  | unfilled _ => cases (Prod.mk.inj hr).1
  | unlinked _ => cases (Prod.mk.inj hr).1
  | made hfree =>
    obtain ⟨hlock, hfs⟩ := Prod.mk.inj hr
    exact ⟨Except.ok.inj hlock, .inl ⟨hfree, hfs⟩⟩
  | recognised _ =>
    obtain ⟨hlock, hfs⟩ := Prod.mk.inj hr
    obtain ⟨heq, hreads⟩ := recognise_eq_ok hlock.symm
    exact ⟨heq, .inr ⟨hreads, hfs⟩⟩

theorem acquire_error {c : Circumstances} {directory : Path} {name : String} {e : LockError}
    (h : acquireUnder c fs directory name pid = (.error e, fs')) : fs.Grows fs' := by
  obtain ⟨fs₁, hgrows, ⟨e', he⟩ | ⟨hmade, hdraft⟩⟩ := acquireUnder_cases c fs directory name pid
  · rw [he] at h
    cases h
    exact hgrows
  · have htaken := acquireUnder_taken pid hmade hdraft
    rw [h] at htaken
    rw [htaken.of_error]
    exact hgrows

structure Acquired (fs : FileSystem) (path : Path) (pid : Nat) (fs' : FileSystem) : Prop where
  reads : readPid fs' path = .ok (some pid)
  others : ∀ l ≠ fs.place path, fs.KeptAt fs' l
  file : fs.tree.node? (fs.place path) = none ∧
      fs'.tree.node? (fs.place path) = some (.file (content pid).toUTF8 false) ∨
    ∃ text x, fs.tree.node? (fs.place path) = some (.file text x) ∧
      fs'.tree.node? (fs.place path) = some (.file text x)

theorem acquire_ok {c : Circumstances} {directory : Path} {name : String} (hpid : pid < pidLimit)
    (h : acquireUnder c fs directory name pid = (.ok lock, fs')) :
    lock = ⟨filePath directory name, pid⟩ ∧ Acquired fs (filePath directory name) pid fs' := by
  obtain ⟨fs₁, hgrows, ⟨e', he⟩ | ⟨hmade, hdraft⟩⟩ := acquireUnder_cases c fs directory name pid
  · rw [he] at h
    cases h
  · have htaken := acquireUnder_taken pid hmade hdraft
    rw [h] at htaken
    obtain ⟨hlock, ⟨hfree, rfl⟩ | ⟨hreads, rfl⟩⟩ := htaken.of_ok
    · obtain ⟨hlocate, -⟩ := located_of_createDraft hdraft
      have hnode := FileTree.node?_put_self (FileTree.ne_nil_of_free hfree) fs₁.tree
        (.file (content pid).toUTF8 false)
      refine ⟨hlock, ?_, ?_, .inl ⟨?_, ?_⟩⟩
      · exact readPid_of_file (locate_withFile hfree _ hlocate) hnode hpid
      · intro l hl
        rw [← hgrows.place] at hl
        have hsame : (fs₁.withFile (fs₁.place (filePath directory name))
            (content pid).toUTF8).tree.node? l = fs₁.tree.node? l :=
          FileTree.node?_put_of_ne hl _ _
        rw [KeptAt, hsame]
        exact hgrows.node l
      · rw [← hgrows.place]
        rcases hgrows.node (fs₁.place (filePath directory name)) with hn | ⟨hn, -⟩
        · rw [← hn, hfree]
        · exact hn
      · rw [← hgrows.place]
        exact hnode
    · refine ⟨hlock, hreads, fun l _ => hgrows.node l, .inr ?_⟩
      -- a file that can be read has not been made as a directory
      obtain ⟨-, text, x, hnode⟩ := isFile_iff.mp (isFile_of_readPid hreads)
      rw [← hgrows.place]
      rcases hgrows.node (fs'.place (filePath directory name)) with hn | ⟨-, hn⟩
      · exact ⟨text, x, hn ▸ hnode, hnode⟩
      · rw [hn] at hnode
        cases hnode

/-! ### Releasing -/

theorem release_other (h : readPid fs lock.path ≠ .ok (some lock.pid)) :
    (lock.release fs).2 = fs := by
  unfold release
  split
  · rfl
  · next holder hreads =>
    rw [if_pos]
    intro heq
    exact h (heq ▸ hreads)

/-- What an acquisition and what giving a lock back do to the files, whatever they hold and whatever
is drawn or goes wrong: a failure only leaves directories behind; a success leaves a file that names
the process and was either made or there before; and only a file that names the process is taken
away. -/
theorem handled_without_damage (c : Circumstances) (fs : FileSystem) (directory : Path)
    (name : String) (pid : UInt32) :
    (∀ e fs', acquireUnder c fs directory name pid.toNat = (.error e, fs') →
      ∀ l, fs.KeptAt fs' l) ∧
    (∀ lock fs', acquireUnder c fs directory name pid.toNat = (.ok lock, fs') →
      lock = ⟨filePath directory name, pid.toNat⟩ ∧ Acquired fs lock.path pid.toNat fs') ∧
    ∀ (lock : PidLock) (h : Host),
      (Cli.unlock lock h).files = (lock.release h.files).2 ∧
      ((∃ text, h.files.readText lock.path = .ok text ∧
          pid? (Text.trimmed text.toList) = some lock.pid) →
        ∃ fs', lock.release h.files = (.ok (), fs') ∧ h.files.isFile lock.path = true ∧
          ∀ l, fs'.tree.node? l =
            if l = h.files.place lock.path then none else h.files.tree.node? l) ∧
      ((¬ ∃ text, h.files.readText lock.path = .ok text ∧
          pid? (Text.trimmed text.toList) = some lock.pid) →
        (lock.release h.files).2 = h.files) := by
  refine ⟨?_, ?_, ?_⟩
  · intro e fs' h l
    exact (acquire_error h).node l
  · intro lock fs' h
    obtain ⟨rfl, hacquired⟩ := acquire_ok pid.toNat_lt h
    exact ⟨rfl, hacquired⟩
  · intro lock h
    rw [← readPid_eq_some_iff]
    refine ⟨rfl, ?_, release_other⟩
    intro hreads
    obtain ⟨-, text, x, hnode⟩ := isFile_iff.mp (isFile_of_readPid hreads)
    refine ⟨_, release_own hreads, isFile_of_readPid hreads, ?_⟩
    exact FileTree.node?_erase (FileTree.ne_nil_of_node? (t := h.files.tree) (by simp [hnode])) _

/-- A lock file with a number in an unusual spelling. -/
def heldFiles : FileSystem where
  tree := (({} : FileTree).put ["locks"] .directory).put ["locks", "crossgrade.pid"]
    (.file " +042\n".toUTF8 false)

/-- Process 7 is refused and leaves the files alone; for process 42 the lock is its own. -/
theorem handled_without_damage_held :
    let refused := acquireUnder {} heldFiles ⟨"/locks"⟩ "crossgrade" 7
    let relocked := acquireUnder {} heldFiles ⟨"/locks"⟩ "crossgrade" 42
    refused.1 = .error (.locked ⟨"/locks/crossgrade.pid"⟩ 42) ∧
      (∀ l, heldFiles.KeptAt refused.2 l) ∧
      relocked.1 = .ok ⟨⟨"/locks/crossgrade.pid"⟩, 42⟩ ∧
      Acquired heldFiles ⟨"/locks/crossgrade.pid"⟩ 42 relocked.2 := by
  intro refused relocked
  have hrefused : refused.1 = .error (.locked ⟨"/locks/crossgrade.pid"⟩ 42) := rfl
  have hrelocked : relocked.1 = .ok ⟨⟨"/locks/crossgrade.pid"⟩, 42⟩ := rfl
  obtain ⟨hkept, -, -⟩ := handled_without_damage {} heldFiles ⟨"/locks"⟩ "crossgrade" 7
  obtain ⟨-, hacquired, -⟩ := handled_without_damage {} heldFiles ⟨"/locks"⟩ "crossgrade" 42
  exact ⟨hrefused, hkept _ refused.2 (Prod.ext hrefused rfl), hrelocked,
    (hacquired _ relocked.2 (Prod.ext hrelocked rfl)).2⟩

end PidLock

end Changeover
