import Changeover.Change.AbsentFile
import Changeover.Proofs.Files.Reach

/-!
# What saving and restoring a file does

The copy of a file stands two levels below the backup directory, under the digest of the parent and
the name of the file. So if digests of parents differ, paths that share a copy lead to the same
place. Each way a save or a restore can end is one case of a relation.
-/

namespace Changeover

theorem Sha256.isName_ofText (s : String) : Path.IsName (Sha256.ofText s) := by
  have hlen := length_ofText s
  refine ⟨slash_not_mem_ofText s, ?_, ?_⟩
  · unfold Path.isIdle
    rw [Bool.or_eq_false_iff, beq_eq_false_iff_ne, beq_eq_false_iff_ne]
    constructor
    · intro h
      simp [h] at hlen
    · intro h
      simp [h] at hlen
  · intro h
    simp [h] at hlen

/-- Where the copy of a path is kept, if the path has a name. -/
def SavedFile.copyOf? (backup path : Path) : Option Path :=
  path.fileName?.map fun name =>
    (backup.join ⟨Sha256.ofText path.parentOrRoot.text⟩).join ⟨name⟩

namespace SavedFile

theorem place_copyOf {backup path copy : Path} (h : copyOf? backup path = some copy)
    (d : Location) : ∃ name, path.fileName? = some name ∧ copy.placeFrom d =
      backup.placeFrom d ++ [Sha256.ofText path.parentOrRoot.text, name] := by
  obtain ⟨name, hname, rfl⟩ := Option.map_eq_some_iff.mp h
  refine ⟨name, hname, ?_⟩
  rw [Path.placeFrom_join_name (Path.isName_of_fileName? hname),
    Path.placeFrom_join_name (Sha256.isName_ofText _), List.append_assoc]
  rfl

/-- The directory that a copy is in has a long name. -/
theorem place_copyOf_ne {backup path copy : Path} (h : copyOf? backup path = some copy)
    (d m : Location) {directory name : String} (hshort : directory.toList.length < 64) :
    copy.placeFrom d ≠ m ++ [directory, name] := by
  intro heq
  obtain ⟨name', -, hplace⟩ := place_copyOf h d
  rw [hplace] at heq
  have hdigest := (List.append_inj' heq rfl).2
  rw [List.cons.injEq] at hdigest
  have hlong := Sha256.length_ofText path.parentOrRoot.text
  rw [hdigest.1] at hlong
  omega

theorem copyOf_plain {backup path copy : Path} (h : copyOf? backup path = some copy)
    (ha : backup.isAbsolute = true) (hdown : .up ∉ backup.steps) :
    copy.isAbsolute = true ∧ .up ∉ copy.steps := by
  obtain ⟨name, hname, rfl⟩ := Option.map_eq_some_iff.mp h
  have hn := Path.isName_of_fileName? hname
  have hd := Sha256.isName_ofText path.parentOrRoot.text
  constructor
  · rw [Path.isAbsolute_join hn.isAbsolute, Path.isAbsolute_join hd.isAbsolute, ha]
  · rw [Path.steps_eq, Path.stepsOf_join hn.isAbsolute, Path.stepsOf_join hd.isAbsolute,
      hn.steps, hd.steps, ← Path.steps_eq]
    simpa using hdown

section

variable {backup path path' copy copy' : Path}

/-- Copies that lead to the same place have one name, below the digest of both parents. -/
theorem same_place_copyOf (h : copyOf? backup path = some copy)
    (h' : copyOf? backup path' = some copy') {d : Location}
    (hsame : copy.placeFrom d = copy'.placeFrom d) :
    ∃ name, path.fileName? = some name ∧ path'.fileName? = some name ∧
      Sha256.ofText path.parentOrRoot.text = Sha256.ofText path'.parentOrRoot.text := by
  obtain ⟨name, hname, hplace⟩ := place_copyOf h d
  obtain ⟨name', hname', hplace'⟩ := place_copyOf h' d
  rw [hplace, hplace'] at hsame
  have hlast := List.append_cancel_left hsame
  simp only [List.cons.injEq, and_true] at hlast
  obtain ⟨hdigest, rfl⟩ := hlast
  exact ⟨name, hname, hname', hdigest⟩

theorem place_of_same_copy (h : copyOf? backup path = some copy)
    (h' : copyOf? backup path' = some copy') {d : Location}
    (hsame : copy.placeFrom d = copy'.placeFrom d)
    (hdigest : Sha256.ofText path.parentOrRoot.text = Sha256.ofText path'.parentOrRoot.text →
      path.parentOrRoot.text = path'.parentOrRoot.text) :
    path.placeFrom d = path'.placeFrom d := by
  obtain ⟨name, hname, hname', hdig⟩ := same_place_copyOf h h' hsame
  have hparent : path.parentOrRoot = path'.parentOrRoot := by
    rw [Path.mk.injEq]
    exact hdigest hdig
  rw [Path.placeFrom_parent hname, Path.placeFrom_parent hname', hparent]

end

/-- Digests of the parents tell the parents apart. -/
def DigestsApart (paths : List Path) : Prop :=
  ∀ p ∈ paths, ∀ p' ∈ paths,
    Sha256.ofText p.parentOrRoot.text = Sha256.ofText p'.parentOrRoot.text →
      p.parentOrRoot.text = p'.parentOrRoot.text

/-! ### Saving -/

theorem new?_ok {fs : FileSystem} {path backup : Path} {f : SavedFile}
    (h : new? fs path backup = .ok f) :
    path.isAbsolute = true ∧ f = { path, backupDirectory := backup } := by
  unfold new? at h
  split at h
  · cases h
  · rename_i ha
    split at h
    · cases h
    · cases h
      exact ⟨by simpa using ha, rfl⟩

/-- How saving a file that was not saved before can end. -/
inductive Enabling (f : SavedFile) (fs : FileSystem) :
    Except Fault Unit → SavedFile → FileSystem → Prop
  | idle : fs.isFile f.path = false → Enabling f fs (.ok ()) f fs
  | refused {e : Fault} {fs' : FileSystem} : fs.Grows fs' → Enabling f fs (.error e) f fs'
  | saved {copy : Path} {c : ByteArray} {x : Bool} {fs' fs'' : FileSystem} :
    copyOf? f.backupDirectory f.path = some copy → fs.isFile f.path = true → fs.Grows fs' →
    fs'.Copied f.path copy c x fs'' →
    Enabling f fs (.ok ()) { f with copy := some copy, state := .enabled } fs''

theorem enabling {f : SavedFile} (h : f.state = .pending) (fs : FileSystem) :
    Enabling f fs (f.enable fs).1 (f.enable fs).2.1 (f.enable fs).2.2 := by
  unfold enable
  rw [h]
  simp only
  cases hfile : fs.isFile f.path with
  | false => exact .idle hfile
  | true =>
    simp only [Bool.not_true, Bool.false_eq_true, if_false]
    cases hname : f.path.fileName? with
    | none => exact .refused .refl
    | some name =>
      have hgrows := fs.makeDirectories_grows f.copyDirectory
      simp only
      split
      · rename_i hm
        rw [hm] at hgrows
        exact .refused hgrows
      · rename_i hm
        rw [hm] at hgrows
        split
        · exact .refused hgrows
        · rename_i hc
          obtain ⟨c, x, hcopied⟩ := FileSystem.copy_ok hc
          refine .saved ?_ hfile hgrows hcopied
          rw [copyOf?, hname]
          rfl

theorem Enabling.path {f f' : SavedFile} {fs fs' : FileSystem} {r : Except Fault Unit}
    (h : Enabling f fs r f' fs') : f'.path = f.path := by
  cases h with
  | idle _ => rfl
  | refused _ => rfl
  | saved _ _ _ _ => rfl

theorem Enabling.closed {f f' : SavedFile} {fs fs' : FileSystem} {r : Except Fault Unit}
    (h : Enabling f fs r f' fs') (hc : fs.tree.Closed) : fs'.tree.Closed := by
  cases h with
  | idle _ => exact hc
  | refused hg => exact hg.closed hc
  | saved _ _ hg hcopied => exact hcopied.closed (hg.closed hc)

theorem Enabling.keepsDirectory {f f' : SavedFile} {fs fs' : FileSystem} {r : Except Fault Unit}
    (h : Enabling f fs r f' fs') {m : Location} (hm : fs.tree.node? m = some .directory) :
    fs'.tree.node? m = some .directory := by
  cases h with
  | idle _ => exact hm
  | refused hg => exact hg.keepsDirectory hm
  | saved _ _ hg hcopied => exact hcopied.keepsDirectory (hg.keepsDirectory hm)

theorem Enabling.copies {f f' : SavedFile} {fs fs' : FileSystem}
    (h : Enabling f fs (.ok ()) f' fs') (hfile : fs.isFile f.path = true)
    (hapart : ∀ copy, copyOf? f.backupDirectory f.path = some copy →
      copy.placeFrom fs.directory ≠ f.path.placeFrom fs.directory) :
    ∃ copy, copyOf? f.backupDirectory f.path = some copy ∧
      f' = { f with copy := some copy, state := .enabled } ∧
      fs'.isFile copy = true ∧ fs'.isFile f.path = true ∧
      fs'.tree.file? (copy.placeFrom fs.directory) =
        fs'.tree.file? (f.path.placeFrom fs.directory) := by
  cases h with
  | idle hnot =>
    rw [hfile] at hnot
    cases hnot
  | @saved copy c x fs₁ _ hcopy _ hg hcopied =>
    have hne := hapart copy hcopy
    obtain ⟨hthere, hhere⟩ := hcopied.isFile_both
    refine ⟨copy, hcopy, rfl, hthere, hhere, ?_⟩
    rw [← hg.cwd] at hne ⊢
    rw [hcopied.file? hne, hcopied.file? hne, FileSystem.place, if_pos rfl, if_neg hne.symm]
    exact (FileTree.file?_eq_some.mpr hcopied.source).symm

/-! ### Restoring -/

/-- How restoring a file can end. -/
inductive Restoring (f : SavedFile) (fs : FileSystem) :
    Except Fault Unit → SavedFile → FileSystem → Prop
  | idle : (f.state = .enabled → ∀ copy, f.copy = some copy → fs.isFile copy = false) →
    Restoring f fs (.ok ()) f fs
  | refused {copy : Path} {why : OsError} {e : Fault} : f.state = .enabled → f.copy = some copy →
    fs.isFile copy = true → fs.copy copy f.path = .error why → Restoring f fs (.error e) f fs
  | kept {copy : Path} {c : ByteArray} {x : Bool} {e : Fault} {fs' : FileSystem} :
    f.state = .enabled → f.copy = some copy → fs.Copied copy f.path c x fs' →
    Restoring f fs (.error e) f fs'
  | restored {copy : Path} {c : ByteArray} {x : Bool} {fs' fs'' : FileSystem} :
    f.state = .enabled → f.copy = some copy → fs.Copied copy f.path c x fs' →
    fs'.removeFile copy = .ok fs'' →
    Restoring f fs (.ok ()) { f with copy := none, state := .restored } fs''

theorem restoring (f : SavedFile) (fs : FileSystem) :
    Restoring f fs (f.restore fs).1 (f.restore fs).2.1 (f.restore fs).2.2 := by
  unfold restore
  split
  · rename_i h
    exact .idle fun he => absurd he h
  · rename_i h
    have he : f.state = .enabled := Decidable.not_not.mp h
    split
    · rename_i hcopy
      refine .idle fun _ copy hsome => ?_
      rw [hsome, Option.filter_eq_none_iff] at hcopy
      simpa using hcopy copy rfl
    · rename_i copy hcopy
      obtain ⟨hsome, hfile⟩ := Option.filter_eq_some_iff.mp hcopy
      split
      · rename_i hc
        exact .refused he hsome hfile hc
      · rename_i hc
        obtain ⟨c, x, hcopied⟩ := FileSystem.copy_ok hc
        split
        · exact .kept he hsome hcopied
        · rename_i hr
          exact .restored he hsome hcopied hr

theorem Restoring.keepsDirectory {f f' : SavedFile} {fs fs' : FileSystem} {r : Except Fault Unit}
    (h : Restoring f fs r f' fs') {m : Location} (hm : fs.tree.node? m = some .directory) :
    fs'.tree.node? m = some .directory := by
  cases h with
  | idle _ => exact hm
  | refused _ _ _ _ => exact hm
  | kept _ _ hcopied => exact hcopied.keepsDirectory hm
  | restored _ _ hcopied hremoved =>
    exact FileSystem.keepsDirectory_removeFile hremoved (hcopied.keepsDirectory hm)

theorem Restoring.copies_back {f f' : SavedFile} {fs fs' : FileSystem} {r : Except Fault Unit}
    {copy : Path} (h : Restoring f fs r f' fs') (he : f.state = .enabled)
    (hcopy : f.copy = some copy) (hthere : fs.isFile copy = true)
    (hfile : fs.isFile f.path = true) : ∃ c x fs₁, fs.Copied copy f.path c x fs₁ ∧
      (fs' = fs₁ ∨ fs₁.removeFile copy = .ok fs') := by
  cases h with
  | idle hidle =>
    rw [hidle he copy hcopy] at hthere
    cases hthere
  | @refused copy' _ _ _ hcopy' _ hfail =>
    obtain rfl : copy = copy' := Option.some.inj (hcopy.symm.trans hcopy')
    obtain ⟨fs₁, hdone⟩ := FileSystem.exists_copy hthere hfile
    rw [hdone] at hfail
    cases hfail
  | @kept copy' c x _ _ _ hcopy' hcopied =>
    obtain rfl : copy = copy' := Option.some.inj (hcopy.symm.trans hcopy')
    exact ⟨c, x, fs', hcopied, Or.inl rfl⟩
  | @restored copy' c x fs₁ _ _ hcopy' hcopied hremoved =>
    obtain rfl : copy = copy' := Option.some.inj (hcopy.symm.trans hcopy')
    exact ⟨c, x, fs₁, hcopied, Or.inr hremoved⟩

theorem Restoring.moves {f f' : SavedFile} {fs fs' : FileSystem} {copy : Path}
    (h : Restoring f fs (.ok ()) f' fs') (he : f.state = .enabled) (hcopy : f.copy = some copy)
    (hreach : copy.Reaches copy.location) (ha : f.path.isAbsolute = true)
    (hapart : copy.location ≠ f.path.location) (hclosed : fs.tree.Closed) :
    fs'.tree.Closed ∧ (fs.tree.file? copy.location = none → fs' = fs) ∧
      ∀ v, fs.tree.file? copy.location = some v → ∀ m, fs'.tree.file? m =
        if m = copy.location then none
        else if m = f.path.location then some v else fs.tree.file? m := by
  have hcplace : fs.place copy = copy.location := hreach.place _
  have hfplace : fs.place f.path = f.path.location := FileSystem.place_of_isAbsolute ha fs
  cases h with
  | idle hidle =>
    refine ⟨hclosed, fun _ => rfl, ?_⟩
    intro v hv
    have hfile := hreach.isFile hclosed (FileTree.file?_eq_some.mp hv)
    rw [hidle he copy hcopy] at hfile
    cases hfile
  | @restored copy' c x fs₁ _ _ hcopy' hcopied hremoved =>
    obtain rfl : copy = copy' := Option.some.inj (hcopy.symm.trans hcopy')
    have hput (m : Location) : fs₁.tree.file? m =
        if m = f.path.location then some (c, x) else fs.tree.file? m := by
      rw [← hfplace]
      refine hcopied.file? ?_ m
      rw [hfplace, hcplace]
      exact hapart.symm
    have hsource := hcopied.source
    rw [hcplace] at hsource
    obtain ⟨c', x', hfile, rfl⟩ := FileSystem.removeFile_ok hremoved
    have hplace₁ : fs₁.place copy = copy.location := hreach.place _
    rw [hplace₁] at hfile ⊢
    have hdir : fs₁.tree.node? copy.location ≠ some .directory := by simp [hfile]
    refine ⟨(hcopied.closed hclosed).erase hdir, ?_, ?_⟩
    · intro hnone
      rw [FileTree.file?_eq_some.mpr hsource] at hnone
      cases hnone
    · intro v hv m
      rw [FileTree.file?_eq_some.mpr hsource] at hv
      obtain rfl := Option.some.inj hv
      rw [FileTree.file?_erase (FileTree.ne_nil_of_node? hdir), hput]

end SavedFile

namespace AbsentFile

theorem enable_pending {f : AbsentFile} (h : f.state = .pending) (fs : FileSystem) :
    f.enable fs =
      (.ok (), if fs.holds f.path = true then f else { f with state := .enabled }) := by
  unfold enable
  rw [h]
  simp only
  split <;> rfl

inductive Restoring (f : AbsentFile) (fs : FileSystem) :
    Except Fault Unit → AbsentFile → FileSystem → Prop
  | idle : f.state ≠ .enabled → Restoring f fs (.ok ()) f fs
  | refused {e : Fault} : f.state = .enabled → Restoring f fs (.error e) f fs
  | gone : f.state = .enabled → fs.isFile f.path = false →
    Restoring f fs (.ok ()) { f with state := .restored } fs
  | removed {fs' : FileSystem} : f.state = .enabled → fs.isFile f.path = true →
    fs.removeFile f.path = .ok fs' →
    Restoring f fs (.ok ()) { f with state := .restored } fs'

theorem restoring (f : AbsentFile) (fs : FileSystem) :
    Restoring f fs (f.restore fs).1 (f.restore fs).2.1 (f.restore fs).2.2 := by
  unfold restore
  split
  · rename_i h
    exact .idle h
  · rename_i h
    have he : f.state = .enabled := Decidable.not_not.mp h
    split
    · rename_i hfile
      split
      · exact .refused he
      · rename_i hr
        exact .removed he hfile hr
    · rename_i hfile
      exact .gone he (by simpa using hfile)

theorem Restoring.keepsDirectory {f f' : AbsentFile} {fs fs' : FileSystem} {r : Except Fault Unit}
    (h : Restoring f fs r f' fs') {m : Location} (hm : fs.tree.node? m = some .directory) :
    fs'.tree.node? m = some .directory := by
  cases h with
  | idle _ => exact hm
  | refused _ => exact hm
  | gone _ _ => exact hm
  | removed _ _ hremoved => exact FileSystem.keepsDirectory_removeFile hremoved hm

theorem Restoring.removes {f f' : AbsentFile} {fs fs' : FileSystem}
    (h : Restoring f fs (.ok ()) f' fs') (he : f.state = .enabled)
    (ha : f.path.isAbsolute = true) (hdown : .up ∉ f.path.steps) (hclosed : fs.tree.Closed) :
    fs'.tree.Closed ∧ (∀ m, f.path.Reaches m → fs'.tree.file? m = none) ∧
      ∀ m, ¬ f.path.Reaches m → fs'.tree.file? m = fs.tree.file? m := by
  have hplace : fs.place f.path = f.path.location := FileSystem.place_of_isAbsolute ha fs
  cases h with
  | idle hidle => exact absurd he hidle
  | gone _ hnot =>
    refine ⟨hclosed, ?_, fun _ _ => rfl⟩
    intro m hm
    cases hf : fs.tree.file? m with
    | none => rfl
    | some v =>
      have hfile := hm.isFile hclosed (FileTree.file?_eq_some.mp hf)
      rw [hnot] at hfile
      cases hfile
  | removed _ hfile hremoved =>
    obtain ⟨c, x, hnode, rfl⟩ := FileSystem.removeFile_ok hremoved
    have hreach := Path.reaches_of_isFile ha hdown hfile
    rw [hplace] at hnode ⊢
    have hdir : fs.tree.node? f.path.location ≠ some .directory := by simp [hnode]
    have hne := FileTree.ne_nil_of_node? hdir
    refine ⟨hclosed.erase hdir, ?_, ?_⟩
    · intro m hm
      rw [FileTree.file?_erase hne, if_pos hm.location_eq.symm]
    · intro m hm
      rw [FileTree.file?_erase hne, if_neg]
      rintro rfl
      exact hm hreach

end AbsentFile

end Changeover
