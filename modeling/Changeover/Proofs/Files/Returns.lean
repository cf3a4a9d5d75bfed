import Changeover.Proofs.Files.Directories
import Changeover.Proofs.Files.Saving

/-!
# What a restore brings back

A restore can end well without having done anything. Of a saved file this is so only if the copy is
gone, of an absent file also if a directory stands at its path by then, which is left alone.
-/

namespace Changeover

/-- The text of the parent has its own digest as a name on the way. -/
def Path.DigestsItself (p : Path) : Prop :=
  .name (Sha256.ofText p.parentOrRoot.text) ∈ p.parentOrRoot.steps

/-- A file is not its own copy, for then its path would name a digest of itself. -/
theorem SavedFile.place_copyOf_ne_self {backup path copy : Path}
    (h : copyOf? backup path = some copy) (ha : path.isAbsolute = true)
    (hdigest : ¬ path.DigestsItself) (d : Location) : copy.placeFrom d ≠ path.placeFrom d := by
  intro heq
  obtain ⟨name, hname, hplace⟩ := place_copyOf h d
  rw [hplace, Path.placeFrom_parent hname] at heq
  have hsplit : (backup.placeFrom d ++ [Sha256.ofText path.parentOrRoot.text]) ++ [name] =
      path.parentOrRoot.placeFrom d ++ [name] := by
    rw [← heq, List.append_assoc]
    rfl
  refine hdigest (Path.mem_placeFrom (d := d) (Path.isAbsolute_parentOrRoot ha) ?_)
  rw [← List.append_cancel_right hsplit]
  exact List.mem_append_right _ List.mem_cons_self

/-! ### What a path leads to -/

namespace FileSystem

variable {fs fs' : FileSystem} {p q : Path}

theorem holds_iff : fs.holds p = true ↔ fs.isFile p = true ∨ fs.isDirectory p = true := by
  unfold holds isFile isDirectory
  cases (fs.stat p).toOption with
  | none => simp
  | some n => cases n <;> simp [Node.isFile, Node.isDirectory]

theorem holds_removeFile (h : fs.removeFile p = .ok fs') : fs'.holds p = false := by
  obtain ⟨c, x, hnode, rfl⟩ := removeFile_ok h
  have hne := FileTree.ne_nil_of_node? (t := fs.tree) (l := fs.place p) (by simp [hnode])
  have hfree : (fs.tree.erase (fs.place p)).node? (fs.place p) = none :=
    FileTree.node?_erase_self hne _
  rw [Bool.eq_false_iff, Ne, holds_iff, isFile_iff, isDirectory_iff]
  rintro (⟨-, c, x, hfile⟩ | ⟨-, hdir⟩)
  · exact absurd (hfree.symm.trans hfile) (Option.some_ne_none _).symm
  · exact absurd (hfree.symm.trans hdir) (Option.some_ne_none _).symm

theorem fileAt_isSome : (fs.fileAt p).isSome = fs.isFile p := by
  cases h : fs.isFile p with
  | false => rw [fileAt_of_not_isFile h]; rfl
  | true =>
    obtain ⟨-, c, x, hnode⟩ := isFile_iff.mp h
    rw [fileAt_of_isFile h, FileTree.file?_eq_some.mpr hnode]
    rfl

theorem Copied.fileAt_target {c : ByteArray} {x : Bool} (h : Copied fs p q c x fs')
    (hne : fs.place q ≠ fs.place p) : fs'.fileAt q = some (c, x) := by
  rw [fileAt_of_isFile h.isFile_target, place_congr h.cwd, h.file? hne, if_pos rfl]

theorem Copied.fileAt_source {c : ByteArray} {x : Bool} (h : Copied fs p q c x fs') :
    fs.fileAt p = some (c, x) := by
  rw [fileAt_of_isFile (isFile_iff.mpr ⟨h.here, c, x, h.source⟩)]
  exact FileTree.file?_eq_some.mpr h.source

theorem fileAt_mono (hcwd : fs'.directory = fs.directory)
    (hdirs : ∀ m, fs.tree.node? m = some .directory → fs'.tree.node? m = some .directory)
    (hsame : fs'.tree.node? (fs.place p) = fs.tree.node? (fs.place p)) (hp : fs.isFile p = true) :
    fs'.fileAt p = fs.fileAt p := by
  obtain ⟨hlocate, c, x, hnode⟩ := isFile_iff.mp hp
  have hplace : fs'.place p = fs.place p := place_congr hcwd p
  have hp' : fs'.isFile p = true := by
    rw [isFile_iff, hplace, hsame]
    exact ⟨locate_mono hcwd hdirs hlocate, c, x, hnode⟩
  rw [fileAt_of_isFile hp, fileAt_of_isFile hp', hplace, FileTree.file?_congr hsame]

theorem fileAt_removeFile (h : fs.removeFile q = .ok fs') (hne : fs.place p ≠ fs.place q)
    (hp : fs.isFile p = true) : fs'.fileAt p = fs.fileAt p := by
  have hkeeps (m : Location) (hm : fs.tree.node? m = some .directory) :
      fs'.tree.node? m = some .directory := keepsDirectory_removeFile h hm
  obtain ⟨c, x, -, rfl⟩ := removeFile_ok h
  exact fileAt_mono rfl hkeeps (FileTree.node?_erase_of_ne hne fs.tree) hp

end FileSystem

/-! ### Trying again -/

namespace SavedFile

variable {f : SavedFile} {copy : Path} {fs fs' : FileSystem}

/-- A restore fails only while the copy is there, and it leaves all as it was. -/
theorem restore_of_error {e : Fault} (h : (f.restore fs).1 = .error e) :
    f.state = .enabled ∧ f.restore fs = (.error e, f, fs) ∧
      ∃ copy, f.copy = some copy ∧ fs.isFile copy = true := by
  unfold restore at h ⊢
  split at h
  · cases h
  · next hstate =>
    rw [if_neg hstate]
    split at h
    · cases h
    · next copy hcopy =>
      obtain ⟨hsome, hfile⟩ := Option.filter_eq_some_iff.mp hcopy
      refine ⟨Decidable.not_not.mp hstate, ?_, copy, hsome, hfile⟩
      split at h
      · cases h
        rfl
      · next fs' hdone =>
        obtain ⟨fs'', hremoved⟩ := FileSystem.exists_removeFile_of_copy hdone
        rw [hremoved] at h
        cases h

/-- While the copy is there, a restore succeeds as soon as the file can be written. -/
theorem restore_of_write {c : ByteArray} (hstate : f.state = .enabled) (hcopy : f.copy = some copy)
    (hthere : fs.isFile copy = true) (hwrite : fs.write f.path c = .ok fs') :
    ∃ fs'', f.restore fs = (.ok (), { f with copy := none, state := .restored }, fs'') := by
  obtain ⟨fs₁, hdone⟩ := FileSystem.exists_copy_of_write hthere hwrite
  obtain ⟨fs₂, hremoved⟩ := FileSystem.exists_removeFile_of_copy hdone
  refine ⟨fs₂, ?_⟩
  have hfound : f.copy.filter fs.isFile = some copy := Option.filter_eq_some_iff.mpr ⟨hcopy, hthere⟩
  simp only [restore, hstate, hfound, hdone, hremoved]
  rfl

end SavedFile

/-! ### What a restore leaves alone -/

theorem FileSystem.node?_removeFile {fs fs' : FileSystem} {p : Path}
    (h : fs.removeFile p = .ok fs') (m : Location) :
    fs'.tree.node? m = fs.tree.node? m ∨ fs'.tree.node? m = none := by
  obtain ⟨c, x, hnode, rfl⟩ := removeFile_ok h
  have hne := FileTree.ne_nil_of_node? (t := fs.tree) (l := fs.place p) (by simp [hnode])
  change (fs.tree.erase (fs.place p)).node? m = _ ∨ (fs.tree.erase (fs.place p)).node? m = _
  rw [FileTree.node?_erase hne]
  split
  · exact Or.inr rfl
  · exact Or.inl rfl

theorem SavedFile.Restoring.takesAway {f f' : SavedFile} {fs fs' : FileSystem}
    {r : Except Fault Unit} (h : Restoring f fs r f' fs') {m : Location}
    (hm : m ≠ fs.place f.path) :
    fs'.tree.node? m = fs.tree.node? m ∨ fs'.tree.node? m = none := by
  cases h with
  | idle _ => exact Or.inl rfl
  | refused _ _ _ _ => exact Or.inl rfl
  | kept _ _ hcopied =>
    exact Or.inl ((hcopied.node m).trans (FileTree.node?_put_of_ne hm _ _))
  | restored _ _ hcopied hremoved =>
    have hsame := (hcopied.node m).trans (FileTree.node?_put_of_ne hm _ _)
    rw [← hsame]
    exact FileSystem.node?_removeFile hremoved m

theorem AbsentFile.Restoring.takesAway {f f' : AbsentFile} {fs fs' : FileSystem}
    {r : Except Fault Unit} (h : Restoring f fs r f' fs') (m : Location) :
    fs'.tree.node? m = fs.tree.node? m ∨ fs'.tree.node? m = none := by
  cases h with
  | removed _ _ hremoved => exact FileSystem.node?_removeFile hremoved m
  | _ => exact Or.inl rfl

/-! ### Back as it was -/

namespace SavedFile

variable {f f' : SavedFile} {fs fs' : FileSystem}

theorem Enabling.saves (h : Enabling f fs (.ok ()) f' fs') (hp : f.state = .pending)
    (he : f'.enabled = true) : ∃ copy c x, copyOf? f.backupDirectory f.path = some copy ∧
      f' = { f with copy := some copy, state := .enabled } ∧ fs.fileAt f.path = some (c, x) ∧
      (copy.placeFrom fs.directory ≠ f.path.placeFrom fs.directory →
        fs'.fileAt copy = some (c, x)) := by
  cases h with
  | idle _ => simp [enabled, hp] at he
  | @saved copy c x fs₁ _ hcopy hfile hg hcopied =>
    have hplace : fs.tree.file? (fs.place f.path) = some (c, x) := by
      rw [← hg.file?, ← FileSystem.place_congr hg.cwd]
      exact FileTree.file?_eq_some.mpr hcopied.source
    refine ⟨copy, c, x, hcopy, rfl, (FileSystem.fileAt_of_isFile hfile).trans hplace, ?_⟩
    intro hne
    refine hcopied.fileAt_target ?_
    rwa [FileSystem.place, FileSystem.place, hg.cwd]

theorem Restoring.returns {copy : Path} (h : Restoring f fs (.ok ()) f' fs')
    (he : f.state = .enabled) (hcopy : f.copy = some copy) (hthere : fs.isFile copy = true)
    (hne : copy.placeFrom fs.directory ≠ f.path.placeFrom fs.directory) :
    f'.state = .restored ∧ fs'.fileAt f.path = fs.fileAt copy := by
  cases h with
  | idle hidle =>
    rw [hidle he copy hcopy] at hthere
    cases hthere
  | @restored copy' c x fs₁ _ _ hcopy' hcopied hremoved =>
    obtain rfl : copy = copy' := Option.some.inj (hcopy.symm.trans hcopy')
    refine ⟨rfl, ?_⟩
    have hback := FileSystem.fileAt_removeFile hremoved (p := f.path) ?_ hcopied.isFile_target
    · rw [hback, hcopied.fileAt_source]
      exact hcopied.fileAt_target hne.symm
    · rw [FileSystem.place, FileSystem.place, hcopied.cwd]
      exact hne.symm

end SavedFile

namespace AbsentFile

variable {f f' : AbsentFile} {fs fs' : FileSystem}

/-- What stands at the path after a restore that ended well is a directory that stood there. -/
theorem Restoring.returns (h : Restoring f fs (.ok ()) f' fs') (he : f.state = .enabled) :
    f'.state = .restored ∧ fs'.holds f.path = fs.isDirectory f.path := by
  cases h with
  | idle hidle => exact absurd he hidle
  | gone _ hnot =>
    refine ⟨rfl, ?_⟩
    rw [Bool.eq_iff_iff, FileSystem.holds_iff, hnot]
    simp
  | removed _ hfile hremoved =>
    refine ⟨rfl, ?_⟩
    rw [FileSystem.holds_removeFile hremoved, eq_comm, Bool.eq_false_iff, Ne,
      FileSystem.isDirectory_iff]
    rintro ⟨-, hdir⟩
    obtain ⟨-, c, x, hnode⟩ := FileSystem.isFile_iff.mp hfile
    rw [hdir] at hnode
    cases hnode

end AbsentFile

/-- When a restore ends well the path is as it was when the change was enabled: a file with what it
held then, or nothing. Whatever else happened in between has no part in it, with one exception: a
directory that stands at the path of an absent file stays there. -/
theorem restored_as_enabled (path : Path) (fs fs' now after : FileSystem) :
    (∀ (early : FileSystem) (backup : Path) (f f' f'' : SavedFile),
      SavedFile.new? early path backup = .ok f → ¬ path.DigestsItself →
      f.enable fs = (.ok (), f', fs') → f'.enabled = true →
      (∀ copy, f'.copy = some copy → now.fileAt copy = fs'.fileAt copy) →
      f'.restore now = (.ok (), f'', after) →
      f''.state = .restored ∧ (fs.fileAt path).isSome = true ∧
        after.fileAt path = fs.fileAt path) ∧
    ∀ f f' f'' : AbsentFile, f = { path } → f.enable fs = (.ok (), f') → f'.enabled = true →
      f'.restore now = (.ok (), f'', after) →
      f''.state = .restored ∧ fs.holds path = false ∧
        after.holds path = now.isDirectory path := by
  constructor
  · intro early backup f f' f'' hnew hdigest he hon hkept hr
    obtain ⟨ha, rfl⟩ := SavedFile.new?_ok hnew
    have hen := SavedFile.enabling (f := { path, backupDirectory := backup }) rfl fs
    rw [he] at hen
    obtain ⟨copy, c, x, hcopy, rfl, hwas, hsaved⟩ := hen.saves rfl hon
    have hapart := SavedFile.place_copyOf_ne_self hcopy ha hdigest
    have hthere : now.fileAt copy = some (c, x) :=
      (hkept copy rfl).trans (hsaved (hapart fs.directory))
    have hfound : now.isFile copy = true := by
      rw [← FileSystem.fileAt_isSome, hthere]
      rfl
    have hre := SavedFile.restoring
      { path, backupDirectory := backup, copy := some copy, state := .enabled } now
    rw [hr] at hre
    obtain ⟨hstate, hback⟩ := hre.returns rfl rfl hfound (hapart now.directory)
    exact ⟨hstate, by rw [hwas]; rfl, by rw [hback, hthere, hwas]⟩
  · rintro f f' f'' rfl he hon hr
    rw [AbsentFile.enable_pending rfl] at he
    cases hheld : fs.holds path with
    | true =>
      rw [if_pos hheld] at he
      cases he
      cases hon
    | false =>
      rw [if_neg (by simp [hheld])] at he
      cases he
      have hre := AbsentFile.restoring { path, state := .enabled } now
      rw [hr] at hre
      obtain ⟨hstate, hback⟩ := hre.returns rfl
      exact ⟨hstate, rfl, hback⟩

section

def noteFile : SavedFile := { path := ⟨"/a"⟩, backupDirectory := ⟨"/b"⟩ }

def beforeSave : FileSystem := { tree := ⟨[(["a"], .file "one".toUTF8 false)]⟩ }

def afterSave : Except Fault Unit × SavedFile × FileSystem := noteFile.enable beforeSave

def beforeRestore : FileSystem :=
  { tree := (afterSave.2.2.tree.put ["a"] (.file "two".toUTF8 true)).put ["n"]
      (.file .empty false) }

theorem afterSave_enabled : afterSave.1.toOption = some () ∧ afterSave.2.1.enabled = true ∧
    (∀ copy ∈ afterSave.2.1.copy, beforeRestore.fileAt copy = afterSave.2.2.fileAt copy) ∧
    (afterSave.2.1.restore beforeRestore).1.toOption = some () := by
  decide +kernel

/-- The rewritten file is again what it was, and the new one is gone. -/
theorem restored_as_enabled_beforeRestore :
    (afterSave.2.1.restore beforeRestore).2.2.fileAt ⟨"/a"⟩ = some ("one".toUTF8, false) ∧
    (AbsentFile.restore { path := ⟨"/n"⟩, state := .enabled } beforeRestore).2.2.holds ⟨"/n"⟩ =
      false := by
  have hok {r : Except Fault Unit} (h : r.toOption = some ()) : r = .ok () := by
    cases r with
    | ok => rfl
    | error => cases h
  obtain ⟨hsaved, hon, hcopy, hrestored⟩ := afterSave_enabled
  constructor
  · have hback := (restored_as_enabled ⟨"/a"⟩ beforeSave afterSave.2.2 beforeRestore _).1
      beforeSave ⟨"/b"⟩ noteFile afterSave.2.1 _ rfl List.not_mem_nil (Prod.ext (hok hsaved) rfl)
      hon hcopy (Prod.ext (hok hrestored) rfl)
    exact hback.2.2.trans (by decide +kernel)
  · have hgone := (restored_as_enabled ⟨"/n"⟩ beforeSave beforeSave beforeRestore _).2
      { path := ⟨"/n"⟩ } { path := ⟨"/n"⟩, state := .enabled } _ rfl
      (Prod.ext (hok (by decide)) (by decide)) rfl (Prod.ext (hok (by decide +kernel)) rfl)
    exact hgone.2.2.trans (by decide +kernel)

end

/-- A directory at the path of an absent file outlives the restore, which ends well. -/
theorem restored_leaves_directory :
    let f : AbsentFile := { path := ⟨"/n"⟩ }
    let now : FileSystem := { tree := ⟨[(["n"], .directory)]⟩ }
    (f.enable {}).2.enabled = true ∧ FileSystem.holds {} f.path = false ∧
      ((f.enable {}).2.restore now).1 = .ok () ∧
      ((f.enable {}).2.restore now).2.1.state = .restored ∧
      ((f.enable {}).2.restore now).2.2.holds f.path = true :=
  ⟨by decide, by decide, rfl, by decide, by decide⟩

end Changeover
