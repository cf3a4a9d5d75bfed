import Changeover.Proofs.Files.Below
import Changeover.Proofs.Rollback.Catalog
import Changeover.Proofs.Rollback.Debts

/-!
# The rollback of a conversion is complete

Run one by one, the actions before the point of no return only save files, but for the last file
change: the list of version locks is emptied. While it is empty, restoring the change that saved it
makes good for that. So whenever a conversion ends without having committed, every file is back,
with the exception of copies and reports.
-/

namespace Changeover

namespace Site

variable (site : Site)

def savedHostPaths : List Path := site.savedPaths.map site.path

/-- A location that is neither the place for the copy of a tracked file nor one of a report. -/
structure Spares (d : Location) (tracked : List Change) (q : Location) : Prop where
  copies : ¬ Taken d site.backupDirectory q tracked
  reports : ∀ report, ∀ t ∈ Conversion.reportTexts site .before report, t.1.placeFrom d ≠ q

/-- The root and the paths of files to be created are absolute and never go up. -/
structure Plain : Prop where
  isAbsolute : site.root.isAbsolute = true
  down : .up ∉ site.root.steps
  created : ∀ p ∈ site.config.createdFiles, .up ∉ p.steps

variable {site}

theorem Plain.created_path (h : site.Plain) {p : Path} (hp : p ∈ site.config.createdFiles) :
    (site.path p).isAbsolute = true ∧ .up ∉ (site.path p).steps := by
  rw [path_isAbsolute, path_steps, List.mem_append, not_or]
  exact ⟨h.isAbsolute, h.down, h.created p hp⟩

theorem place_versionLocks (site : Site) (d : Location) : site.versionLocks.placeFrom d =
    site.root.placeFrom d ++ ["etc", "yum", "pluginconf.d", "versionlock.list"] := by
  have hsteps : Path.steps ⟨VersionLocks.listPath⟩ =
      [.name "etc", .name "yum", .name "pluginconf.d", .name "versionlock.list"] := by decide
  rw [versionLocks, placeFrom_path, hsteps]
  simp [Component.next]

/-- The list of version locks is no copy: the directory it is in has too short a name. -/
theorem versionLocks_not_copy {p copy : Path}
    (hc : SavedFile.copyOf? site.backupDirectory p = some copy) (d : Location) :
    copy.placeFrom d ≠ site.versionLocks.placeFrom d := by
  have hlist : site.versionLocks.placeFrom d =
      (site.root.placeFrom d ++ ["etc", "yum"]) ++ ["pluginconf.d", "versionlock.list"] := by
    rw [place_versionLocks, List.append_assoc]
    rfl
  rw [hlist]
  exact SavedFile.place_copyOf_ne hc d _ (by decide)

end Site

/-! ### Conditions -/

section

variable (site : Site) (d q : Location) (v : Option (ByteArray × Bool))

/-- Nothing but copies of tracked files has been touched. -/
def Untouched : Condition := fun u h => Taken d site.backupDirectory q u.changes ∨
  Safe d site.backupDirectory site.savedHostPaths q v u.changes h.files ∧ h.files.tree.Closed

/-- Restoring a saved file is all that is missing. Packages may have been installed since. -/
def Indebted : Condition := fun u h => ∃ sets f cs, u.changes = sets ++ .file f :: cs ∧
  (∀ c ∈ sets, ∃ s, c = .packages s ∧ s.manager.LeavesFiles) ∧
  Safe d site.backupDirectory site.savedHostPaths q v cs (f.restore h.files).2.2

/-- A rollback brings back what stood at `q`. -/
def Recoverable : Condition := fun u h => Untouched site d q v u h ∨ Indebted site d q v u h

end

namespace Untouched

variable {site : Site} {d q : Location} {v : Option (ByteArray × Bool)}

theorem stable : (Untouched site d q v).Stable := ⟨fun _ h => h, fun h => h⟩

theorem push_file (hdigests : SavedFile.DigestsApart site.savedHostPaths) {p : Path}
    (hp : p ∈ site.savedHostPaths) (ha : p.isAbsolute = true) :
    (Untouched site d q v).KeptByPush
      (.file { path := p, backupDirectory := site.backupDirectory }) := by
  intro u h hu
  rcases hu with ht | ⟨hsafe, hclosed⟩
  · exact Or.inl (ht.push _ h)
  · have hends := SavedFile.pushed (f := { path := p, backupDirectory := site.backupDirectory })
      rfl u h
    generalize u.push _ h = pushed at hends ⊢
    obtain ⟨r, u', h'⟩ := pushed
    cases hends with
    | refused he => exact Or.inr ⟨hsafe.save_refused he, he.closed hclosed⟩
    | @tracked f' _ he =>
      by_cases ht : Taken d site.backupDirectory q (.file f' :: u.changes)
      · exact Or.inl ht
      · have hsaved := hsafe.save (f := ⟨p, site.backupDirectory, none, .pending⟩)
          hdigests hp ha rfl rfl (he.not_taken ht) he
        exact Or.inr ⟨hsaved, he.closed hclosed⟩

theorem push_absent {p : Path} (ha : p.isAbsolute = true) (hdown : .up ∉ p.steps) :
    (Untouched site d q v).KeptByPush (.absent { path := p }) := by
  intro u h hu
  rcases hu with ht | ⟨hsafe, hclosed⟩
  · exact Or.inl (ht.push _ h)
  · have henable := AbsentFile.enable_pending (f := { path := p }) rfl h.files
    by_cases hheld : h.files.holds p = true
    · rw [if_pos hheld] at henable
      rw [UndoStack.push_of_ok (Change.enable_absent henable)]
      refine Or.inr ⟨hsafe.cons ⟨ha, hdown⟩ (by simp) ?_, hclosed⟩
      rintro f ⟨⟩ hon
      cases hon
    · rw [if_neg hheld] at henable
      rw [UndoStack.push_of_ok (Change.enable_absent henable)]
      refine Or.inr ⟨hsafe.cons ⟨ha, hdown⟩ (by simp) ?_, hclosed⟩
      rintro f ⟨⟩ - hreach
      -- the path would lead to the file at `q` if there were one
      have hhere := hsafe.here
      cases v with
      | none => rfl
      | some w =>
        obtain ⟨c, x⟩ := w
        have hfile := hreach.isFile hclosed (FileTree.file?_eq_some.mp hhere)
        exact absurd (FileSystem.holds_of_isFile hfile) hheld

theorem push_packages {s : PackageSet} (hm : s.manager.LeavesFiles) (hs : s.state = .pending) :
    (Untouched site d q v).KeptByPush (.packages s) := by
  intro u h hu
  have hends := PackageSet.enabling hs h
  rcases he : s.enable h with ⟨r, s', h'⟩
  rw [he] at hends
  obtain ⟨hfiles, hmanager⟩ := hends.files hm
  have henable := Change.enable_packages he
  rcases hu with ht | ⟨hsafe, hclosed⟩
  · exact Or.inl (ht.push _ h)
  · rw [← hfiles] at hsafe hclosed
    cases r with
    | error e =>
      rw [UndoStack.push_of_error henable]
      exact Or.inr ⟨hsafe, hclosed⟩
    | ok _ =>
      rw [UndoStack.push_of_ok henable]
      have hm' : s'.manager.LeavesFiles := hmanager ▸ hm
      exact Or.inr ⟨hsafe.cons hm' (by simp) (by simp), hclosed⟩

theorem keptBySaves (hdigests : SavedFile.DigestsApart site.savedHostPaths)
    (hsite : site.Plain) : (Untouched site d q v).KeptBySaves site := by
  refine ⟨?_, ?_, ?_⟩
  · intro u h fs hu hg
    exact hu.imp_right fun hu => ⟨hu.1.grows hg, hg.closed hu.2⟩
  · intro p hp ha
    have hm : site.path p ∈ site.savedHostPaths := List.mem_map_of_mem hp
    exact push_file hdigests hm ha
  · intro p hp
    obtain ⟨ha, hdown⟩ := hsite.created_path hp
    exact push_absent ha hdown

theorem start {fs : FileSystem} {h : Host} (hfs : h.files = fs) (hclosed : fs.tree.Closed) :
    Untouched site fs.directory q (fs.tree.file? q) {} h := by
  subst hfs
  have htaken : ¬ Taken h.files.directory site.backupDirectory q [] := by simp [Taken]
  refine Or.inr ⟨⟨rfl, by simp [UndoStack.changes], htaken, rfl, ?_,
    by simp [UndoStack.changes]⟩, hclosed⟩
  intro l hl
  cases hl
  exact Or.inr rfl

end Untouched

namespace Recoverable

variable {site : Site} {d q : Location} {v : Option (ByteArray × Bool)}

theorem stable : (Recoverable site d q v).Stable := ⟨fun _ h => h, fun h => h⟩

theorem of_clearing (hdigests : SavedFile.DigestsApart site.savedHostPaths)
    {u u' : UndoStack Change} {h h' : Host} (hu : Untouched site d q v u h)
    (hc : Procedure.Clearing site u h u' h') : Recoverable site d q v u' h' := by
  have hv : site.versionLocks ∈ site.savedHostPaths :=
    List.mem_map_of_mem (by simp [Site.savedPaths])
  cases hc with
  | idle => exact Or.inl hu
  | saved ha hpush =>
    have hkept := Untouched.push_file hdigests hv ha u h hu
    rw [hpush] at hkept
    exact Or.inl hkept
  | @emptied u' h' fs ha hfile hpush hwrite =>
    have hapart : ∀ copy, SavedFile.copyOf? site.backupDirectory site.versionLocks = some copy →
        copy.placeFrom d ≠ site.versionLocks.placeFrom d :=
      fun _ hc => Site.versionLocks_not_copy hc d
    generalize site.versionLocks = p at *
    have hends := SavedFile.pushed (f := { path := p, backupDirectory := site.backupDirectory })
      rfl u h
    rw [hpush] at hends
    rcases hu with ht | ⟨hsafe, -⟩
    · have hpushed := ht.push (.file { path := p, backupDirectory := site.backupDirectory }) h
      rw [hpush] at hpushed
      exact Or.inl (Or.inl hpushed)
    · cases hends with
      | @tracked f' _ he =>
        by_cases ht : Taken d site.backupDirectory q (.file f' :: u.changes)
        · exact Or.inl (Or.inl ht)
        · refine Or.inr ⟨[], f', u.changes, rfl, by simp, ?_⟩
          exact hsafe.rewrite (f := ⟨p, site.backupDirectory, none, .pending⟩) hdigests hv ha
            rfl rfl (he.not_taken ht) hapart hfile he hwrite

theorem push_packages {s : PackageSet} (hm : s.manager.LeavesFiles) (hs : s.state = .pending) :
    (Recoverable site d q v).KeptByPush (.packages s) := by
  intro u h hu
  rcases hu with hu | ⟨sets, f, cs, hsplit, hsets, hsafe⟩
  · exact Or.inl (Untouched.push_packages hm hs u h hu)
  · have hends := PackageSet.enabling hs h
    rcases he : s.enable h with ⟨r, s', h'⟩
    rw [he] at hends
    obtain ⟨hfiles, hmanager⟩ := hends.files hm
    have henable := Change.enable_packages he
    cases r with
    | error e =>
      rw [UndoStack.push_of_error henable]
      exact Or.inr ⟨sets, f, cs, hsplit, hsets, hfiles ▸ hsafe⟩
    | ok _ =>
      rw [UndoStack.push_of_ok henable]
      refine Or.inr ⟨.packages s' :: sets, f, cs, ?_, ?_, hfiles ▸ hsafe⟩
      · rw [List.cons_append, ← hsplit]
        rfl
      · intro c hc
        rcases List.mem_cons.mp hc with rfl | hc
        · exact ⟨s', rfl, hmanager ▸ hm⟩
        · exact hsets c hc

theorem restoreEach_packages {sets cs : List Change}
    (hsets : ∀ c ∈ sets, ∃ s, c = .packages s ∧ s.manager.LeavesFiles) (h : Host) :
    ∃ h', h'.files = h.files ∧
      (UndoStack.restoreEach (sets ++ cs) h).2.2 = (UndoStack.restoreEach cs h').2.2 := by
  induction sets generalizing h with
  | nil => exact ⟨h, rfl, rfl⟩
  | cons c sets ih =>
    obtain ⟨s, rfl, hm⟩ := hsets c List.mem_cons_self
    obtain ⟨h', hfiles, hrest⟩ := ih (fun c hc => hsets c (List.mem_cons_of_mem _ hc))
      (UndoStack.restoreOne (Change.packages s) h).2.2
    refine ⟨h', hfiles.trans ?_, hrest⟩
    rw [UndoStack.restoreOne_world]
    exact (PackageSet.restoring s h).files hm

theorem rollback (hdigests : SavedFile.DigestsApart site.savedHostPaths)
    {u : UndoStack Change} {h : Host} (hr : Recoverable site d q v u h)
    (ht : ¬ Taken d site.backupDirectory q u.changes) :
    Safe d site.backupDirectory site.savedHostPaths q v [] (u.popAll h).2.2.files := by
  rw [(u.popAll_restores h).1]
  rcases hr with (htaken | ⟨hsafe, -⟩) | ⟨sets, f, cs, hsplit, hsets, hsafe⟩
  · exact absurd htaken ht
  · exact hsafe.restoreEach hdigests
  · obtain ⟨h', hfiles, hrest⟩ := restoreEach_packages hsets h
    rw [hsplit, hrest, UndoStack.restoreEach_cons_world, UndoStack.restoreOne_world,
      (Change.restore_file f h').1]
    rw [← hfiles] at hsafe
    exact Safe.restoreEach hsafe hdigests

end Recoverable

namespace Stocked

variable {m : PackageManager} {present : String → Prop}

/-- The packages that the changes on the stack have not installed are those of `present`. -/
def condition (m : PackageManager) (present : String → Prop) : Condition := fun u h =>
  Stocked m present u.changes h

theorem stable : (condition m present).Stable :=
  ⟨fun _ h => h.congr fun _ => Iff.rfl, fun h => h⟩

theorem push_file (f : SavedFile) : (condition m present).KeptByPush (.file f) := by
  intro u h hu
  rcases he : f.enable h.files with ⟨r, f', fs'⟩
  have henable := Change.enable_file he
  have hkept : Stocked m present u.changes { h with files := fs' } := hu.congr fun _ => Iff.rfl
  cases r with
  | error e =>
    rw [UndoStack.push_of_error henable]
    exact hkept
  | ok _ =>
    rw [UndoStack.push_of_ok henable]
    exact (cons_of_ne (by simp)).mpr hkept

theorem push_absent (f : AbsentFile) : (condition m present).KeptByPush (.absent f) := by
  intro u h hu
  rcases he : f.enable h.files with ⟨r, f'⟩
  have henable := Change.enable_absent he
  cases r with
  | error e =>
    rw [UndoStack.push_of_error henable]
    exact hu
  | ok _ =>
    rw [UndoStack.push_of_ok henable]
    exact (cons_of_ne (by simp)).mpr hu

theorem keptBySaves (site : Site) : (condition m present).KeptBySaves site :=
  ⟨fun hu _ => hu.congr fun _ => Iff.rfl, fun _ _ _ => push_file _, fun _ _ => push_absent _⟩

theorem of_clearing {site : Site} {u u' : UndoStack Change} {h h' : Host}
    (hu : condition m present u h) (hc : Procedure.Clearing site u h u' h') :
    condition m present u' h' := by
  cases hc with
  | idle => exact hu
  | saved _ hpush =>
    have hkept := push_file ⟨site.versionLocks, site.backupDirectory, none, .pending⟩ u h hu
    rwa [hpush] at hkept
  | emptied _ _ hpush _ =>
    have hkept := push_file ⟨site.versionLocks, site.backupDirectory, none, .pending⟩ u h hu
    rw [hpush] at hkept
    exact hkept.congr fun _ => Iff.rfl

theorem start (h : Host) : condition m (· ∈ h.packages.installed) {} h :=
  .nil m h

theorem rollback (hm : m.Orderly) {u : UndoStack Change} {h : Host}
    (hs : condition m present u h) (p : String) :
    p ∈ (u.popAll h).2.2.packages.installed ↔ present p := by
  have hend := UndoStack.restoreEach_induct
    (P := fun (cs : List Change) (w : Host) => Stocked m present cs w)
    (fun c cs w hw => by
      rw [UndoStack.restoreOne_world]
      exact hw.restore hm) u.changes h hs
  rw [(u.popAll_restores h).1, ← hend.kept p]
  simp [RemovedBy]

end Stocked

/-! ### Conversions -/

namespace Conversion

variable {site : Site} {d q : Location}

theorem write_file {p : Path} {c : ByteArray} {fs fs' : FileSystem} (hd : fs.directory = d)
    (hq : p.placeFrom d ≠ q) (hw : fs.write p c = .ok fs') :
    fs'.directory = d ∧ fs'.tree.file? q = fs.tree.file? q := by
  obtain ⟨x, rfl, -, hfree, -⟩ := FileSystem.writeWith_ok hw
  refine ⟨hd, ?_⟩
  rw [FileTree.file?_put (FileTree.ne_nil_of_node? hfree), if_neg]
  rw [FileSystem.place, hd]
  exact hq.symm

theorem writeText_file {p : Path} (body : String) {fs : FileSystem} (hd : fs.directory = d)
    (hq : p.placeFrom d ≠ q) : (writeText p body fs).2.directory = d ∧
      (writeText p body fs).2.tree.file? q = fs.tree.file? q := by
  unfold writeText
  cases p.parent? with
  | none =>
    simp only
    cases hw : fs.write p body.toUTF8 with
    | error e => exact ⟨hd, rfl⟩
    | ok fs' => exact write_file hd hq hw
  | some directory =>
    have hg := fs.makeDirectories_grows directory
    rcases hm : fs.makeDirectories directory with ⟨r, fs'⟩
    rw [hm] at hg
    have hd' : fs'.directory = d := hg.cwd.trans hd
    simp only [hm]
    cases r with
    | error e => exact ⟨hd', hg.file? q⟩
    | ok _ =>
      simp only
      cases hw : fs'.write p body.toUTF8 with
      | error e => exact ⟨hd', hg.file? q⟩
      | ok fs'' =>
        obtain ⟨hd'', hfile⟩ := write_file hd' hq hw
        exact ⟨hd'', hfile.trans (hg.file? q)⟩

theorem writeAll_file {ts : List (Path × String)} {fs : FileSystem} (hd : fs.directory = d)
    (hq : ∀ t ∈ ts, t.1.placeFrom d ≠ q) :
    (writeAll ts fs).2.tree.file? q = fs.tree.file? q := by
  induction ts generalizing fs with
  | nil => rfl
  | cons t ts ih =>
    obtain ⟨p, body⟩ := t
    obtain ⟨hd', hfile⟩ := writeText_file body hd (hq (p, body) List.mem_cons_self)
    have hrest := ih hd' fun t ht => hq t (List.mem_cons_of_mem _ ht)
    exact hrest.trans hfile

theorem giveUp_host (site : Site) (clean : Status) (asked : Bool) (events : List Event)
    (report : Report) (s : Session) :
    (∃ written, (giveUp site clean asked events report s).session.host.files =
      (writeAll (reportTexts site .before written) (s.undo.popAll s.host).2.2.files).2) ∧
    (giveUp site clean asked events report s).session.host.packages =
      (s.undo.popAll s.host).2.2.packages := by
  rcases hpop : s.undo.popAll s.host with ⟨restored, undo, host⟩
  refine ⟨⟨if undo.failures.isEmpty then report else report.push (rollbackEntry undo.failures), ?_⟩,
    ?_⟩
  · simp only [giveUp, rollback, finish, hpop]
  · simp only [giveUp, rollback, finish, hpop]

/-- Every conversion that has not committed has put back the file of each location that is not for a
copy or a report, and the packages too if the manager keeps its books. -/
theorem rollback_complete {site : Site} {settings : Settings} {stamps : Stamps} {mode : Mode}
    {answer : Answer} {h : Host} (hp : settings.parallel = false) (hsite : site.Plain)
    (hdigests : SavedFile.DigestsApart site.savedHostPaths) (hmanager : site.manager.LeavesFiles)
    (hclosed : h.files.tree.Closed) :
    (∃ ms, Goes site (.ofSettings settings) stamps mode answer (stagesBefore site)
      (stagesAfter site) { host := h } ms
      (run site (.ofSettings settings) stamps mode answer { host := h })) ∧
    ∀ ms e o, Goes site (.ofSettings settings) stamps mode answer (stagesBefore site)
        (stagesAfter site) { host := h } ms e →
      e.outcome = .ok o → o.committed = false →
        (∃ first, (Runner.ofSettings settings).Goes stamps.before [] (stagesBefore site)
            { host := h } ms first ∧ course site mode answer first = .ended e ∧
          ∀ q, site.Spares h.files.directory first.session.undo.changes q →
            e.session.host.files.tree.file? q = h.files.tree.file? q) ∧
        (site.manager.Orderly → ∀ p,
          p ∈ e.session.host.packages.installed ↔ p ∈ h.packages.installed) := by
  refine ⟨exists_goes _ _ _ _ _ _ _ _, ?_⟩
  intro ms e o hgoes ho hc
  obtain ⟨first, clean, asked, report, s', hfirst, hcourse, he, hu, i, hh⟩ :=
    hgoes.rolls_back ho hc
  obtain ⟨⟨written, hfiles⟩, hpackages⟩ := giveUp_host site clean asked first.events report s'
  rw [← he] at hfiles hpackages
  have hend {I J : Condition} (hI : I.Stable) (hJ : J.Stable) (hIJ : ∀ u h, I u h → J u h)
      (hsaves : I.KeptBySaves site)
      (hclear : ∀ u h u' h', I u h → Procedure.Clearing site u h u' h' → J u' h')
      (hinstall : J.KeptByPush (.packages site.vendorSet)) (hs : I {} h) : J s'.undo s'.host := by
    rw [hu, hh]
    exact hJ.interrupt i (runs_lead hI hJ hIJ hsaves hclear hinstall hp hfirst hs)
  refine ⟨⟨first, hfirst, hcourse, ?_⟩, ?_⟩
  · intro q hq
    rw [hfiles]
    have hrecoverable : Recoverable site h.files.directory q (h.files.tree.file? q)
        s'.undo s'.host :=
      hend Untouched.stable Recoverable.stable (fun _ _ => Or.inl)
        (Untouched.keptBySaves hdigests hsite)
        (fun _ _ _ _ => Recoverable.of_clearing hdigests)
        (Recoverable.push_packages hmanager rfl) (Untouched.start rfl hclosed)
    have hsafe := hrecoverable.rollback hdigests (hu ▸ hq.copies)
    exact (writeAll_file hsafe.cwd (hq.reports written)).trans hsafe.here
  · intro horderly p
    rw [hpackages]
    have hstocked : Stocked.condition site.manager (· ∈ h.packages.installed) s'.undo s'.host :=
      hend Stocked.stable Stocked.stable (fun _ _ hs => hs) (Stocked.keptBySaves site)
        (fun _ _ _ _ => Stocked.of_clearing)
        (fun u w hs => Stocked.push horderly hs rfl rfl rfl) (Stocked.start h)
    exact Stocked.rollback horderly hstocked p

section

def vendorSite : Site where
  config := {
    backupFiles := releaseFiles
    createdFiles := [⟨"/etc/vendor"⟩]
    vendorPackages := ["vendor-release"] }
  manager := .prompt

def lockList : Location := ["etc", "yum", "pluginconf.d", "versionlock.list"]

def vendorStamps : Stamps := ⟨⟨"before", 0, 0⟩, ⟨"after", 0, 0⟩⟩

def lockedHost : Host where
  files := { tree := { entries := [
    (["proc"], .directory), (["proc", "mounts"], .file .empty false),
    (["etc"], .directory), (["etc", "os-release"], .file "old".toUTF8 false),
    (["etc", "yum"], .directory), (["etc", "yum", "pluginconf.d"], .directory),
    (lockList, .file "kernel".toUTF8 false)] } }
  packages := { installed := ["kernel"] }

theorem vendorSite_digests : SavedFile.DigestsApart vendorSite.savedHostPaths := by
  have hparents : ∀ p ∈ vendorSite.savedHostPaths,
      p.parentOrRoot.text = "/etc" ∨ p.parentOrRoot.text = "/etc/yum/pluginconf.d" := by
    decide
  have hne : Sha256.ofText "/etc" ≠ Sha256.ofText "/etc/yum/pluginconf.d" := by decide +kernel
  intro p hp p' hp' hd
  rcases hparents p hp with h | h <;> rcases hparents p' hp' with h' | h' <;>
    rw [h, h'] at hd ⊢
  · exact absurd hd hne
  · exact absurd hd.symm hne

/-- On a locked host an analysis leaves the version locks and the packages as they were. -/
theorem rollback_complete_vendorSite : ∃ ms e o,
    Goes vendorSite (.ofSettings ⟨true, false⟩) vendorStamps .analyze ⟨false, false⟩
      (stagesBefore vendorSite) (stagesAfter vendorSite) ⟨lockedHost, {}⟩ ms e ∧
    e.outcome = .ok o ∧ o.committed = false ∧
    e.session.host.files.tree.file? lockList = some ("kernel".toUTF8, false) ∧
    ∀ p, p ∈ e.session.host.packages.installed ↔ p = "kernel" := by
  have hplain : vendorSite.Plain := ⟨by decide, by decide, by decide⟩
  obtain ⟨⟨ms, hgoes⟩, hcomplete⟩ := @rollback_complete vendorSite ⟨true, false⟩ vendorStamps
    .analyze ⟨false, false⟩ lockedHost rfl hplain vendorSite_digests
    PackageManager.prompt_leavesFiles (FileTree.closed_of_entries (by decide))
  obtain ⟨o, ho, hc⟩ := analyze_committed (plan_stagesBefore vendorSite) vendorSite
    (.ofSettings ⟨true, false⟩) vendorStamps ⟨false, false⟩ (stagesAfter vendorSite)
    ⟨lockedHost, {}⟩
  obtain ⟨⟨first, -, -, hfiles⟩, hpackages⟩ := hcomplete ms _ o hgoes ho hc
  have hspares : vendorSite.Spares lockedHost.files.directory first.session.undo.changes
      lockList := by
    constructor
    · rintro ⟨f, -, copy, hcopy, hplace⟩
      obtain ⟨name, -, hcopied⟩ := SavedFile.place_copyOf hcopy lockedHost.files.directory
      have hbackup : vendorSite.backupDirectory.placeFrom lockedHost.files.directory =
          ["var", "lib", "crossgrade", "backup"] := by decide
      rw [hplace, hbackup] at hcopied
      simp [lockList] at hcopied
    · have hreports : ∀ suffix ∈ [".json", ".txt"],
          (vendorSite.reportDirectory.join ⟨"crossgrade-pre-conversion" ++ suffix⟩).placeFrom
            lockedHost.files.directory ≠ lockList := by decide
      intro report t ht
      simp only [reportTexts, List.mem_cons, List.not_mem_nil, or_false] at ht
      rcases ht with rfl | rfl
      · exact hreports ".json" (by simp)
      · exact hreports ".txt" (by simp)
  refine ⟨ms, _, o, hgoes, ho, hc, ?_, fun p => ?_⟩
  · exact (hfiles lockList hspares).trans (by decide +kernel)
  · exact (hpackages PackageManager.prompt_orderly p).trans (by simp [lockedHost])

end

end Conversion

end Changeover
