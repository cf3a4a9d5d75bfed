import Changeover.Proofs.Rollback.Attempts

/-!
# What a rollback of saved files brings back

Pushes and edits in any order, then everything is popped. If no restore fails, each location holds
what stood there before the first attempt that lasts. That is what stood there before the very first
attempt unless a later save of the same path has overwritten its copy.
-/

namespace Changeover

def Attempt.ofPush (h : Host) (path : Path) (saves : Bool) (c : Change) : Attempt where
  path := path
  saves := saves
  enabled := match Reversible.enable c h with
    | (.ok (), c', _) => c'.enabled
    | (.error _, _, _) => false
  before := h.files.fileAt path

theorem Attempt.enabled_of_ok {c c' : Change} {h h' : Host}
    (he : Reversible.enable c h = (.ok (), c', h')) (path : Path) (saves : Bool) :
    (ofPush h path saves c).enabled = c'.enabled := by
  simp only [ofPush, he]

theorem Attempt.enabled_of_error {c c' : Change} {h h' : Host} {e : Stop Fault}
    (he : Reversible.enable c h = (.error e, c', h')) (path : Path) (saves : Bool) :
    (ofPush h path saves c).enabled = false := by
  simp only [ofPush, he]

/-- Pushes on a new stack, and edits outside the backup directory between them. -/
inductive Tracked (backup : Path) : List Attempt → UndoStack Change → Host → Prop
  | start {h : Host} : h.files.tree.Closed → Tracked backup [] {} h
  | save {as : List Attempt} {u u' : UndoStack Change} {h h' : Host} {path : Path} {f : SavedFile}
      {r : Except (Stop UndoError) Unit} :
    Tracked backup as u h → Attempt.Apart backup path →
    SavedFile.new? h.files path backup = .ok f → u.push (.file f) h = (r, u', h') →
    Tracked backup (.ofPush h path true (.file f) :: as) u' h'
  | absent {as : List Attempt} {u u' : UndoStack Change} {h h' : Host} {path : Path}
      {r : Except (Stop UndoError) Unit} :
    Tracked backup as u h → Attempt.Apart backup path →
    u.push (.absent { path }) h = (r, u', h') →
    Tracked backup (.ofPush h path false (.absent { path }) :: as) u' h'
  | edit {as : List Attempt} {u : UndoStack Change} {h : Host} {t : FileTree} :
    Tracked backup as u h → t.Closed →
    (∀ l, backup.location <+: l → t.node? l = h.files.tree.node? l) →
    Tracked backup as u { h with files := { h.files with tree := t } }

namespace Attempt

variable {backup : Path}

def change (backup : Path) (a : Attempt) : Change :=
  if a.saves then
    .file { path := a.path, backupDirectory := backup, copy := a.copy? backup, state := .enabled }
  else .absent { path := a.path, state := .enabled }

theorem change_of_saves {a : Attempt} {copy : Path} (hs : a.saves = true)
    (hc : a.copy? backup = some copy) :
    a.change backup = .file ⟨a.path, backup, some copy, .enabled⟩ := by
  rw [change, if_pos hs, hc]

/-- The changes of attempts on a stack: one for each that is enabled, and some that do nothing. -/
inductive Stacked (backup : Path) : List Attempt → List Change → Prop
  | nil : Stacked backup [] []
  | enabled {a : Attempt} {as : List Attempt} {cs : List Change} : a.enabled = true →
    Stacked backup as cs → Stacked backup (a :: as) (a.change backup :: cs)
  | pending {a : Attempt} {as : List Attempt} {c : Change} {cs : List Change} :
    a.enabled = false → (∀ h, Reversible.restore c h = (.ok (), c, h)) →
    Stacked backup as cs → Stacked backup (a :: as) (c :: cs)
  | refused {a : Attempt} {as : List Attempt} {cs : List Change} : a.enabled = false →
    Stacked backup as cs → Stacked backup (a :: as) cs

/-- Every copy that no later save has overwritten holds what was saved. -/
def Held (backup : Path) (attempts : List Attempt) (g : FileMap) : Prop :=
  ∀ later a earlier, attempts = later ++ a :: earlier → a.Lasts backup later → a.saves = true →
    ∀ copy, a.copy? backup = some copy → ∃ v, a.before = some v ∧ g copy.location = some v

/-! ### Undoing -/

theorem undoes_of_disabled {a : Attempt} (h : a.enabled = false) (g : FileMap) :
    a.Undoes backup g g := by
  unfold Undoes
  rw [if_pos h]

section

variable {a : Attempt} {h h' : Host}

/-- A saved file is put back without failure, or its copy was gone. -/
theorem undoes_save (hs : a.Sound backup) (he : a.enabled = true) (hsave : a.saves = true)
    (hclosed : h.files.tree.Closed)
    (hreach : ∀ copy, a.copy? backup = some copy → copy.Reaches copy.location)
    (hr : (Reversible.restore (a.change backup) h).1 = .ok ())
    (hh : (Reversible.restore (a.change backup) h).2.2 = h') :
    a.Undoes backup h.files.tree.file? h'.files.tree.file? ∧ h'.files.tree.Closed := by
  obtain ⟨copy, hcopy⟩ := (hs.copied he hsave).2
  have hcreach := hreach copy hcopy
  have hapart : copy.location ≠ a.path.location := by
    intro heq
    exact hs.apart.outside (heq ▸ copy_inside hcopy)
  rw [change, if_pos hsave] at hr hh
  obtain ⟨hworld, hend⟩ := Change.restore_file
    ⟨a.path, backup, a.copy? backup, .enabled⟩ h
  rw [hend] at hr
  rw [hworld] at hh
  subst hh
  have hmoves := SavedFile.restoring ⟨a.path, backup, a.copy? backup, .enabled⟩ h.files
  rw [hr] at hmoves
  obtain ⟨hclosed', hnone, hsome⟩ :=
    hmoves.moves rfl hcopy hcreach hs.apart.isAbsolute hapart hclosed
  refine ⟨?_, hclosed'⟩
  unfold Undoes
  rw [if_neg (by simp [he]), if_pos hsave]
  intro copy' hcopy'
  obtain rfl : copy = copy' := Option.some.inj (hcopy.symm.trans hcopy')
  refine ⟨?_, hsome⟩
  intro hg
  rw [hnone hg]

theorem undoes_absent (hs : a.Sound backup) (he : a.enabled = true) (hsave : a.saves = false)
    (hclosed : h.files.tree.Closed)
    (hr : (Reversible.restore (a.change backup) h).1 = .ok ())
    (hh : (Reversible.restore (a.change backup) h).2.2 = h') :
    a.Undoes backup h.files.tree.file? h'.files.tree.file? ∧ h'.files.tree.Closed := by
  rw [change, if_neg (by simp [hsave])] at hr hh
  obtain ⟨hworld, hend⟩ := Change.restore_absent ⟨a.path, .enabled⟩ h
  rw [hend] at hr
  rw [hworld] at hh
  subst hh
  have hremoves := AbsentFile.restoring ⟨a.path, .enabled⟩ h.files
  rw [hr] at hremoves
  obtain ⟨hclosed', hthere, helse⟩ :=
    hremoves.removes rfl hs.apart.isAbsolute hs.apart.down hclosed
  refine ⟨?_, hclosed'⟩
  unfold Undoes
  rw [if_neg (by simp [he]), if_neg (by simp [hsave])]
  exact ⟨hthere, helse⟩

end

/-- Copies of attempts lead to where they are whenever they are there. -/
def Reachable (backup : Path) (a : Attempt) : Prop :=
  a.enabled = true → a.saves = true →
    ∀ copy, a.copy? backup = some copy → copy.Reaches copy.location

theorem Stacked.unwinds {as : List Attempt} {cs : List Change} (hst : Stacked backup as cs)
    {h : Host} (hs : ∀ a ∈ as, a.Sound backup) (hreach : ∀ a ∈ as, a.Reachable backup)
    (hclosed : h.files.tree.Closed) (hfail : (UndoStack.restoreEach cs h).2.1 = []) :
    Unwound backup as h.files.tree.file? (UndoStack.restoreEach cs h).2.2.files.tree.file? ∧
      (UndoStack.restoreEach cs h).2.2.files.tree.Closed := by
  induction hst generalizing h with
  | nil => exact ⟨.nil, hclosed⟩
  | @enabled a as cs he hst ih =>
    rw [UndoStack.restoreEach_cons_failures] at hfail
    obtain ⟨hnone, hrest⟩ := List.append_eq_nil_iff.mp hfail
    have hok := UndoStack.restoreOne_eq_none.mp (Option.toList_eq_nil_iff.mp hnone)
    have hsa := hs a List.mem_cons_self
    have hundo : a.Undoes backup h.files.tree.file?
        (UndoStack.restoreOne (a.change backup) h).2.2.files.tree.file? ∧
        (UndoStack.restoreOne (a.change backup) h).2.2.files.tree.Closed := by
      rw [UndoStack.restoreOne_world]
      cases hsave : a.saves with
      | true =>
        exact undoes_save hsa he hsave hclosed (hreach a List.mem_cons_self he hsave) hok rfl
      | false => exact undoes_absent hsa he hsave hclosed hok rfl
    obtain ⟨htail, hend⟩ := ih (fun b hb => hs b (List.mem_cons_of_mem a hb))
      (fun b hb => hreach b (List.mem_cons_of_mem a hb)) hundo.2 hrest
    exact ⟨.cons hundo.1 htail, hend⟩
  | @pending a as c cs he hidle _ ih =>
    have hworld : (UndoStack.restoreOne c h).2.2 = h := by
      rw [UndoStack.restoreOne_world, hidle h]
    rw [UndoStack.restoreEach_cons_failures, hworld] at hfail
    obtain ⟨-, hrest⟩ := List.append_eq_nil_iff.mp hfail
    obtain ⟨htail, hend⟩ := ih (fun b hb => hs b (List.mem_cons_of_mem a hb))
      (fun b hb => hreach b (List.mem_cons_of_mem a hb)) hclosed hrest
    rw [UndoStack.restoreEach_cons_world, hworld]
    exact ⟨.cons (undoes_of_disabled he _) htail, hend⟩
  | @refused a as cs he _ ih =>
    obtain ⟨htail, hend⟩ := ih (fun b hb => hs b (List.mem_cons_of_mem a hb))
      (fun b hb => hreach b (List.mem_cons_of_mem a hb)) hclosed hfail
    exact ⟨.cons (undoes_of_disabled he _) htail, hend⟩

/-! ### Tracking -/

theorem Lasts.tail {a b : Attempt} {later : List Attempt} (h : b.Lasts backup (a :: later)) :
    b.Lasts backup later :=
  ⟨h.1, fun hsave c hc => h.2 hsave c (List.mem_cons_of_mem a hc)⟩

section

variable {as : List Attempt} {a : Attempt} {g g' : FileMap}

/-- What is outside the backup directory does not matter. -/
theorem Held.congr (h : Held backup as g)
    (hg : ∀ l, backup.location <+: l → g' l = g l) : Held backup as g' := by
  intro later b earlier hsplit hlast hsave copy hcopy
  rw [hg _ (copy_inside hcopy)]
  exact h later b earlier hsplit hlast hsave copy hcopy

theorem Held.idle (h : Held backup as g) (ha : a.enabled = true → a.saves = false) :
    Held backup (a :: as) g := by
  intro later b earlier hsplit hlast hsave copy hcopy
  cases later with
  | nil =>
    obtain ⟨rfl, -⟩ := List.cons.inj hsplit
    rw [ha hlast.1] at hsave
    cases hsave
  | cons c later =>
    obtain ⟨rfl, hrest⟩ := List.cons.inj hsplit
    exact h later b earlier hrest hlast.tail hsave copy hcopy

theorem Held.copied (h : Held backup as g) {copy : Path} (he : a.enabled = true)
    (hsave : a.saves = true) (hcopy : a.copy? backup = some copy) {v : ByteArray × Bool}
    (hv : a.before = some v)
    (hg : ∀ m, g' m = if m = copy.location then some v else g m) :
    Held backup (a :: as) g' := by
  intro later b earlier hsplit hlast hbsave copy' hcopy'
  cases later with
  | nil =>
    obtain ⟨rfl, -⟩ := List.cons.inj hsplit
    obtain rfl : copy = copy' := Option.some.inj (hcopy.symm.trans hcopy')
    exact ⟨v, hv, by rw [hg, if_pos rfl]⟩
  | cons c later =>
    obtain ⟨rfl, hrest⟩ := List.cons.inj hsplit
    obtain ⟨w, hw, hgw⟩ := h later b earlier hrest hlast.tail hbsave copy' hcopy'
    refine ⟨w, hw, ?_⟩
    rw [hg, if_neg]
    · exact hgw
    · intro hloc
      exact hlast.2 hbsave a List.mem_cons_self he hsave (copy?_eq_of_location hcopy' hcopy hloc)

end

/-- What pushes and edits keep. -/
structure Kept (backup : Path) (as : List Attempt) (u : UndoStack Change) (h : Host) : Prop where
  stacked : Stacked backup as u.changes
  clean : u.failures = []
  closed : h.files.tree.Closed
  sound : ∀ a ∈ as, a.Sound backup
  reachable : ∀ a ∈ as, a.Reachable backup
  held : Held backup as h.files.tree.file?

namespace Kept

variable {as : List Attempt} {u u' : UndoStack Change} {h h' : Host} {path : Path}

theorem mono {b : Attempt} (hk : Kept backup as u h) (hs : b.Sound backup)
    (hr : b.Reachable backup) :
    (∀ a ∈ b :: as, a.Sound backup) ∧ ∀ a ∈ b :: as, a.Reachable backup := by
  constructor
  · intro a ha
    rcases List.mem_cons.mp ha with rfl | ha
    · exact hs
    · exact hk.sound a ha
  · intro a ha
    rcases List.mem_cons.mp ha with rfl | ha
    · exact hr
    · exact hk.reachable a ha

theorem disabled {b : Attempt} (hk : Kept backup as u h) (hapart : Apart backup b.path)
    (he : b.enabled = false) (hst : Stacked backup (b :: as) u'.changes) (hf : u'.failures = [])
    (hgrows : h.files.Grows h'.files) : Kept backup (b :: as) u' h' := by
  have hs : b.Sound backup := ⟨hapart, by simp [he], by simp [he]⟩
  have hr : b.Reachable backup := by simp [Reachable, he]
  obtain ⟨hsound, hreach⟩ := hk.mono hs hr
  refine ⟨hst, hf, hgrows.closed hk.closed, hsound, hreach, ?_⟩
  exact (hk.held.idle (by simp [he])).congr fun l _ => hgrows.file? l

theorem copied {a : Attempt} {copy : Path} {c : ByteArray} {x : Bool} {fs : FileSystem}
    (hk : Kept backup as u h) (hb : backup.isAbsolute = true) (hdown : .up ∉ backup.steps)
    (hapart : Apart backup a.path) (he : a.enabled = true) (hsave : a.saves = true)
    (hbefore : a.before = h.files.fileAt a.path)
    (hfile : h.files.isFile a.path = true) (hcopy : a.copy? backup = some copy)
    (hgrows : h.files.Grows fs) (hcopied : fs.Copied a.path copy c x h'.files)
    (hu : u'.changes = a.change backup :: u.changes) (hf : u'.failures = []) :
    Kept backup (a :: as) u' h' := by
  obtain ⟨hca, hcdown⟩ := SavedFile.copyOf_plain hcopy hb hdown
  have hplace : fs.place a.path = a.path.location :=
    FileSystem.place_of_isAbsolute hapart.isAbsolute fs
  have hcplace : fs.place copy = copy.location := FileSystem.place_of_isAbsolute hca fs
  have hne : copy.location ≠ a.path.location := by
    intro heq
    exact hapart.outside (heq ▸ copy_inside hcopy)
  have hv : a.before = some (c, x) := by
    have hsource := FileTree.file?_eq_some.mpr hcopied.source
    rw [hgrows.place, hgrows.file?] at hsource
    rw [hbefore, FileSystem.fileAt_of_isFile hfile, hsource]
  have hfiles (m : Location) : h'.files.tree.file? m =
      if m = copy.location then some (c, x) else h.files.tree.file? m := by
    rw [hcopied.file? (by rw [hcplace, hplace]; exact hne) m, hcplace, hgrows.file?]
  have hsound : a.Sound backup := by
    refine ⟨hapart, fun _ _ => ⟨?_, copy, hcopy⟩, by simp [hsave]⟩
    exact Path.reaches_of_isFile hapart.isAbsolute hapart.down hfile
  have hreach : a.Reachable backup := by
    intro _ _ copy' hcopy'
    obtain rfl : copy = copy' := Option.some.inj (hcopy.symm.trans hcopy')
    exact Path.reaches_of_isFile hca hcdown hcopied.isFile_target
  obtain ⟨hsounds, hreaches⟩ := hk.mono hsound hreach
  refine ⟨?_, hf, hcopied.closed (hgrows.closed hk.closed), hsounds, hreaches, ?_⟩
  · rw [hu]
    exact .enabled he hk.stacked
  · exact hk.held.copied he hsave hcopy hv hfiles

theorem save {f : SavedFile} {r : Except (Stop UndoError) Unit} (hk : Kept backup as u h)
    (hb : backup.isAbsolute = true) (hdown : .up ∉ backup.steps) (hapart : Apart backup path)
    (hnew : SavedFile.new? h.files path backup = .ok f)
    (hpush : u.push (.file f) h = (r, u', h')) :
    Kept backup (.ofPush h path true (.file f) :: as) u' h' := by
  obtain ⟨ha, rfl⟩ := SavedFile.new?_ok hnew
  rcases he : SavedFile.enable { path, backupDirectory := backup } h.files with ⟨ending, f', fs'⟩
  have hcases := SavedFile.enabling (f := { path, backupDirectory := backup }) rfl h.files
  rw [he] at hcases
  have henable := Change.enable_file he
  cases hcases with
  | idle hfile =>
    rw [UndoStack.push_of_ok henable] at hpush
    cases hpush
    have hdis : (ofPush h path true (.file { path, backupDirectory := backup })).enabled =
        false := enabled_of_ok henable path true
    exact hk.disabled hapart hdis (.pending hdis (fun h => rfl) hk.stacked) hk.clean .refl
  | refused hgrows =>
    rw [UndoStack.push_of_error henable] at hpush
    cases hpush
    have hdis : (ofPush h path true (.file { path, backupDirectory := backup })).enabled =
        false := enabled_of_error henable path true
    exact hk.disabled hapart hdis (.refused hdis hk.stacked) hk.clean hgrows
  | @saved copy c x fs₁ _ hcopy hfile hgrows hcopied =>
    rw [UndoStack.push_of_ok henable] at hpush
    cases hpush
    have hon : (ofPush h path true (.file { path, backupDirectory := backup })).enabled =
        true := enabled_of_ok henable path true
    have hcopy' : (ofPush h path true (.file { path, backupDirectory := backup })).copy? backup =
        some copy := hcopy
    have hchange := change_of_saves (a := ofPush h path true (.file _)) rfl hcopy'
    refine hk.copied hb hdown hapart hon rfl rfl hfile hcopy' hgrows hcopied ?_ hk.clean
    rw [hchange]
    rfl

theorem absent {r : Except (Stop UndoError) Unit} (hk : Kept backup as u h)
    (hapart : Apart backup path) (hpush : u.push (.absent { path }) h = (r, u', h')) :
    Kept backup (.ofPush h path false (.absent { path }) :: as) u' h' := by
  cases hheld : h.files.holds path with
  | true =>
    have he : AbsentFile.enable { path } h.files = (.ok (), { path }) := by
      rw [AbsentFile.enable_pending rfl, if_pos hheld]
    have henable := Change.enable_absent he
    rw [UndoStack.push_of_ok henable] at hpush
    cases hpush
    have hdis : (ofPush h path false (.absent { path })).enabled = false :=
      enabled_of_ok henable path false
    exact hk.disabled hapart hdis (.pending hdis (fun h => rfl) hk.stacked) hk.clean .refl
  | false =>
    have he : AbsentFile.enable { path } h.files = (.ok (), { path, state := .enabled }) := by
      rw [AbsentFile.enable_pending rfl, if_neg (by simp [hheld])]
    have henable := Change.enable_absent he
    rw [UndoStack.push_of_ok henable] at hpush
    cases hpush
    have hon : (ofPush h path false (.absent { path })).enabled = true :=
      enabled_of_ok henable path false
    have hsound : (ofPush h path false (.absent { path })).Sound backup := by
      refine ⟨hapart, (fun _ hsave => nomatch hsave), ?_⟩
      intro _ _
      apply FileSystem.fileAt_of_not_isFile
      rw [Bool.eq_false_iff]
      intro hfile
      rw [FileSystem.holds_of_isFile hfile] at hheld
      cases hheld
    obtain ⟨hsounds, hreaches⟩ := hk.mono hsound fun _ hsave => nomatch hsave
    refine ⟨?_, hk.clean, hk.closed, hsounds, hreaches, hk.held.idle fun _ => rfl⟩
    exact .enabled hon hk.stacked

theorem edit {t : FileTree} (hk : Kept backup as u h) (hclosed : t.Closed)
    (hsame : ∀ l, backup.location <+: l → t.node? l = h.files.tree.node? l) :
    Kept backup as u { h with files := { h.files with tree := t } } :=
  ⟨hk.stacked, hk.clean, hclosed, hk.sound, hk.reachable,
    hk.held.congr fun l hl => FileTree.file?_congr (hsame l hl)⟩

end Kept

end Attempt

theorem Tracked.kept {backup : Path} (hb : backup.isAbsolute = true)
    (hdown : .up ∉ backup.steps) {as : List Attempt} {u : UndoStack Change} {h : Host}
    (ht : Tracked backup as u h) : Attempt.Kept backup as u h := by
  induction ht with
  | start hclosed =>
    refine ⟨.nil, rfl, hclosed, by simp, by simp, ?_⟩
    intro later a earlier hsplit
    simp at hsplit
  | save _ hapart hnew hpush ih => exact ih.save hb hdown hapart hnew hpush
  | absent _ hapart hpush ih => exact ih.absent hapart hpush
  | edit _ hclosed hsame ih => exact ih.edit hclosed hsame

/-- After a rollback without failure the path of an enabled attempt leads to what stood there before
the first attempt that lasts. So it leads to what the attempt had found, which may be the very first
one, if and only if the first lasting one had found the same. -/
theorem popAll_settles {backup : Path} (hb : backup.isAbsolute = true)
    (hdown : .up ∉ backup.steps) {as : List Attempt} {u : UndoStack Change} {h : Host}
    (ht : Tracked backup as u h) (hdigests : SavedFile.DigestsApart (as.map (·.path)))
    (hfail : (u.popAll h).2.1.failures = []) {a : Attempt} (ha : a ∈ as)
    (henabled : a.enabled = true) :
    (∀ l, a.path.Reaches l → ∃ b later earlier,
      Attempt.FirstLasting backup l as b later earlier ∧
        (u.popAll h).2.2.files.fileAt a.path = b.before) ∧
    ((u.popAll h).2.2.files.fileAt a.path = a.before ↔
      ∀ l b later earlier, a.path.Reaches l →
        Attempt.FirstLasting backup l as b later earlier → b.before = a.before) := by
  have hk := ht.kept hb hdown
  obtain ⟨hworld, hfailures⟩ := u.popAll_restores h
  rw [hk.clean, List.nil_append] at hfailures
  rw [hfailures] at hfail
  obtain ⟨hunwound, hclosed⟩ := hk.stacked.unwinds hk.sound hk.reachable hk.closed hfail
  rw [← hworld] at hunwound hclosed
  have hsettled {l : Location} {b : Attempt} {later earlier : List Attempt}
      (hl : a.path.Reaches l) (hfirst : Attempt.FirstLasting backup l as b later earlier) :
      (u.popAll h).2.2.files.fileAt a.path = b.before := by
    rw [hl.fileAt hclosed]
    exact hfirst.settles hunwound hk.sound fun hsave copy hcopy =>
      hk.held later b earlier hfirst.split hfirst.lasts hsave copy hcopy
  have hexists {l : Location} (hl : a.path.Reaches l) :
      ∃ b later earlier, Attempt.FirstLasting backup l as b later earlier := by
    have hshare : ∀ a ∈ as, ∀ b ∈ as, b.copy? backup = a.copy? backup →
        b.copy? backup ≠ none → b.path.location = a.path.location := by
      intro a ha b hbm hcopy hsome
      obtain ⟨copy, hc⟩ := Option.ne_none_iff_exists'.mp hsome
      exact SavedFile.place_of_same_copy hc (hcopy.symm.trans hc) rfl
        (hdigests _ (List.mem_map_of_mem hbm) _ (List.mem_map_of_mem ha))
    obtain ⟨later, b, earlier, hsplit, hr, hlast⟩ :=
      Attempt.exists_lasting hk.sound hshare ⟨a, ha, henabled, hl⟩
    exact Attempt.exists_firstLasting hsplit hr hlast
  refine ⟨?_, ?_, ?_⟩
  · intro l hl
    obtain ⟨b, later, earlier, hfirst⟩ := hexists hl
    exact ⟨b, later, earlier, hfirst, hsettled hl hfirst⟩
  · intro hsame l b later earlier hl hfirst
    rw [← hsettled hl hfirst, hsame]
  · intro hall
    by_cases hl : a.path.Reaches a.path.location
    · obtain ⟨b, later, earlier, hfirst⟩ := hexists hl
      rw [hsettled hl hfirst]
      exact hall _ b later earlier hl hfirst
    · have hapart := (hk.sound a ha).apart
      rw [Path.fileAt_of_not_reaches hapart.isAbsolute hapart.down hl]
      -- only an absent file can have been tracked where no file can be
      cases hsave : a.saves with
      | true => exact absurd ((hk.sound a ha).copied henabled hsave).1 hl
      | false => exact ((hk.sound a ha).absent henabled hsave).symm

section

def unsaved : Host :=
  { files := { tree := { entries := [(["a"], .file "one".toUTF8 false)] } } }

def saving : SavedFile := { path := ⟨"/a"⟩, backupDirectory := ⟨"/b"⟩ }

def savedOnce : UndoStack Change × Host := (UndoStack.push {} (.file saving) unsaved).2

def rewritten : Host :=
  let t := savedOnce.2.files.tree.put ["a"] (.file "two".toUTF8 false)
  { savedOnce.2 with files := { savedOnce.2.files with tree := t } }

def savedTwice : UndoStack Change × Host := (savedOnce.1.push (.file saving) rewritten).2

def savesOfOne : List Attempt :=
  [.ofPush rewritten saving.path true (.file saving),
    .ofPush unsaved saving.path true (.file saving)]

theorem tracked_savedTwice : Tracked ⟨"/b"⟩ savesOfOne savedTwice.1 savedTwice.2 := by
  have hapart : Attempt.Apart ⟨"/b"⟩ saving.path := ⟨by decide, by decide, by decide⟩
  have hstart : Tracked ⟨"/b"⟩ [] {} unsaved :=
    .start (FileTree.closed_of_entries (by decide))
  have honce := hstart.save hapart (f := saving) rfl rfl
  have hedited : Tracked ⟨"/b"⟩ [.ofPush unsaved saving.path true (.file saving)]
      savedOnce.1 rewritten := by
    refine honce.edit (FileTree.closed_of_entries (by decide +kernel)) ?_
    intro l hl
    apply FileTree.node?_put_of_ne
    rintro rfl
    revert hl
    decide
  exact hedited.save hapart rfl rfl

theorem savedTwice_ends : (∀ a ∈ savesOfOne, a.enabled = true) ∧
    (savedTwice.1.popAll savedTwice.2).2.1.failures = [] ∧
    (savedTwice.1.popAll savedTwice.2).2.2.files.fileAt saving.path =
      some ("two".toUTF8, false) := by
  decide +kernel

/-- Saving twice, the rollback brings back what some lasting save had found. -/
theorem popAll_settles_savedTwice : ∃ b later earlier,
    Attempt.FirstLasting ⟨"/b"⟩ ["a"] savesOfOne b later earlier ∧
      (savedTwice.1.popAll savedTwice.2).2.2.files.fileAt saving.path = b.before := by
  obtain ⟨henabled, hfail, -⟩ := savedTwice_ends
  have hdigests : SavedFile.DigestsApart (savesOfOne.map (·.path)) := by
    simp [SavedFile.DigestsApart, savesOfOne, Attempt.ofPush]
  have hreaches : saving.path.Reaches ["a"] := by
    refine ⟨⟨by decide, by decide, by decide⟩, by decide, by decide⟩
  exact (popAll_settles (by decide) (by decide) tracked_savedTwice hdigests hfail
    List.mem_cons_self (henabled _ List.mem_cons_self)).1 ["a"] hreaches

/-- The second save overwrites the copy of the first, and what the first had found is lost. -/
theorem popAll_loses_first_save : Tracked ⟨"/b"⟩ savesOfOne savedTwice.1 savedTwice.2 ∧
    (savedTwice.1.popAll savedTwice.2).2.1.failures = [] ∧
    ∃ a, savesOfOne.getLast? = some a ∧ a.enabled = true ∧
      (savedTwice.1.popAll savedTwice.2).2.2.files.fileAt a.path ≠ a.before := by
  obtain ⟨henabled, hfail, hfile⟩ := savedTwice_ends
  refine ⟨tracked_savedTwice, hfail, .ofPush unsaved saving.path true (.file saving), rfl, ?_, ?_⟩
  · exact henabled _ (by simp [savesOfOne])
  · have hbefore : unsaved.files.fileAt saving.path = some ("one".toUTF8, false) := by
      decide +kernel
    have hend : (savedTwice.1.popAll savedTwice.2).2.2.files.fileAt saving.path ≠
        unsaved.files.fileAt saving.path := by
      rw [hfile, hbefore]
      decide +kernel
    exact hend

end

end Changeover
