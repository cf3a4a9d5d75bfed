import Changeover.Proofs.Files.Confined
import Changeover.Proofs.Files.Saving
import Changeover.Proofs.Rollback.Installed

/-!
# Changes below a root

A change that works on paths below the root changes nothing outside of it when it is enabled or
restored, whether that goes well or not. So a stack of such changes can be undone.
-/

namespace Changeover

variable {root : Path}

/-- All paths that a change works on lead below the root. -/
def Change.Within (root : Path) : Change → Prop
  | .file f => root.Within f.path ∧ root.Within f.backupDirectory ∧
      ∀ copy, f.copy = some copy → root.Within copy
  | .absent f => root.Within f.path
  | .packages s => s.manager.LeavesFiles
  | .rehearsed _ => True

namespace SavedFile

variable {f : SavedFile}

theorem within_enable (hf : (Change.file f).Within root) (fs : FileSystem) :
    (Change.file (f.enable fs).2.1).Within root ∧ fs.Confined root (f.enable fs).2.2 := by
  unfold enable
  split
  · exact ⟨hf, .refl root fs⟩
  · exact ⟨hf, .refl root fs⟩
  · split
    · exact ⟨hf, .refl root fs⟩
    · split
      · exact ⟨hf, .refl root fs⟩
      · next name hname =>
        have hdirectory : root.Within f.copyDirectory :=
          hf.2.1.join_name (Sha256.isName_ofText _)
        have hcopy := hdirectory.join_name (Path.isName_of_fileName? hname)
        have hmade := FileSystem.confined_makeDirectories hdirectory.along fs
        simp only
        split
        · next hm =>
          rw [hm] at hmade
          exact ⟨hf, hmade⟩
        · next hm =>
          rw [hm] at hmade
          split
          · exact ⟨hf, hmade⟩
          · next hc =>
            obtain ⟨c, x, hcopied⟩ := FileSystem.copy_ok hc
            refine ⟨⟨hf.1, hf.2.1, ?_⟩, hmade.trans (hcopied.confined hcopy)⟩
            rintro _ ⟨⟩
            exact hcopy

theorem confined_restore (hf : (Change.file f).Within root) (fs : FileSystem) :
    fs.Confined root (f.restore fs).2.2 := by
  have hends := SavedFile.restoring f fs
  generalize f.restore fs = e at hends ⊢
  obtain ⟨r, f', fs'⟩ := e
  cases hends with
  | idle _ => exact .refl root _
  | refused _ _ _ _ => exact .refl root _
  | kept _ _ hcopied => exact hcopied.confined hf.1
  | restored _ hcopy hcopied hremoved =>
    exact (hcopied.confined hf.1).trans (FileSystem.confined_removeFile (hf.2.2 _ hcopy) hremoved)

end SavedFile

namespace AbsentFile

variable {f : AbsentFile}

theorem path_enable (f : AbsentFile) (fs : FileSystem) : (f.enable fs).2.path = f.path := by
  unfold enable
  split
  · rfl
  · rfl
  · split <;> rfl

theorem confined_restore (hf : root.Within f.path) (fs : FileSystem) :
    fs.Confined root (f.restore fs).2.2 := by
  have hends := AbsentFile.restoring f fs
  generalize f.restore fs = e at hends ⊢
  obtain ⟨r, f', fs'⟩ := e
  cases hends with
  | idle _ => exact .refl root _
  | refused _ => exact .refl root _
  | gone _ _ => exact .refl root _
  | removed _ _ hremoved => exact FileSystem.confined_removeFile hf hremoved

end AbsentFile

theorem PackageSet.files_enable {s : PackageSet} (hs : s.manager.LeavesFiles) (h : Host) :
    (s.enable h).2.2.files = h.files ∧ (s.enable h).2.1.manager = s.manager := by
  cases hstate : s.state with
  | pending => exact (PackageSet.enabling hstate h).files hs
  | enabled => simp [enable, hstate]
  | restored => simp [enable, hstate]

namespace Change.Within

variable {c : Change}

theorem enable (hc : c.Within root) (h : Host) : (Reversible.enable c h).2.1.Within root ∧
    h.files.Confined root (Reversible.enable c h).2.2.files := by
  cases c with
  | file f => exact f.within_enable hc h.files
  | absent f =>
    have hpath : root.Within (f.enable h.files).2.path := (f.path_enable h.files).symm ▸ hc
    exact ⟨hpath, .refl root h.files⟩
  | packages s =>
    obtain ⟨hfiles, hmanager⟩ := PackageSet.files_enable hc h
    have hset : (s.enable h).2.1.manager.LeavesFiles := hmanager.symm ▸ hc
    have hsame : h.files.Confined root (s.enable h).2.2.files := hfiles.symm ▸ .refl root h.files
    exact ⟨hset, hsame⟩
  | rehearsed c =>
    refine ⟨trivial, ?_⟩
    change h.files.Confined root (c.enable h).2.2.files
    unfold RehearsedChange.enable
    split
    · exact .refl root h.files
    · simp only
      split
      · exact .refl root h.files
      · exact .refl root h.files

theorem restore (hc : c.Within root) (h : Host) :
    h.files.Confined root (Reversible.restore c h).2.2.files := by
  cases c with
  | file f => exact SavedFile.confined_restore hc h.files
  | absent f => exact AbsentFile.confined_restore hc h.files
  | packages s =>
    have hfiles := (PackageSet.restoring s h).files hc
    have hsame : h.files.Confined root (s.restore h).2.2.files := hfiles.symm ▸ .refl root h.files
    exact hsame
  | rehearsed c =>
    obtain ⟨journal, hworld⟩ := Change.restore_rehearsed c h
    rw [hworld]
    exact .refl root h.files

end Change.Within

theorem UndoStack.confined_popAll {u : UndoStack Change} (hu : ∀ c ∈ u.changes, c.Within root)
    (h : Host) : h.files.Confined root (u.popAll h).2.2.files := by
  rw [(u.popAll_restores h).1]
  refine (restoreEach_induct (P := fun (cs : List Change) (w : Host) =>
    (∀ c ∈ cs, c.Within root) ∧ h.files.Confined root w.files) ?_ u.changes h
    ⟨hu, .refl root h.files⟩).2
  rintro c cs w ⟨hcs, hw⟩
  refine ⟨fun c' hc' => hcs c' (List.mem_cons_of_mem c hc'), ?_⟩
  rw [restoreOne_world]
  exact hw.trans ((hcs c List.mem_cons_self).restore w)

end Changeover
