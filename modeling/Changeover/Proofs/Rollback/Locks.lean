import Changeover.Proofs.Rollback.Complete

/-!
# While the list of version locks is empty

The list of version locks is saved and emptied, and then more files may be saved before it is
restored. Their changes are undone first. If none of them has taken the place of the copy, the list
is restored to what it held; and a path that takes this place leads to the list itself.
-/

namespace Changeover

/-! ### Conditions on what is pushed -/

def Condition.Over (I : Condition) (cs : List Change) : Condition := fun u h =>
  ∃ u', u.changes = u'.changes ++ cs ∧ I u' h

theorem Condition.KeptByPush.over {I : Condition} {c : Change} (hI : I.KeptByPush c)
    (cs : List Change) : (I.Over cs).KeptByPush c := by
  rintro u h ⟨u', hsplit, hu'⟩
  have hkept := hI u' h hu'
  rcases he : Reversible.enable c h with ⟨r, c', h'⟩
  cases r with
  | error e =>
    rw [UndoStack.push_of_error he] at hkept ⊢
    exact ⟨u', hsplit, hkept⟩
  | ok _ =>
    rw [UndoStack.push_of_ok he] at hkept ⊢
    exact ⟨{ u' with entries := .change c' :: u'.entries }, congrArg (c' :: ·) hsplit, hkept⟩

/-- Files on the stack are those of `paths`. -/
def FilesFrom (paths : List Path) : Condition := fun u _ => ∀ f, .file f ∈ u.changes →
  f.path ∈ paths

/-- The directories of `fs` are still there. -/
def DirectoriesOf (fs : FileSystem) : Condition := fun _ h => ∀ m,
  fs.tree.node? m = some .directory → h.files.tree.node? m = some .directory

section

variable {paths : List Path} {fs : FileSystem}

theorem FilesFrom.start (h : Host) : FilesFrom paths {} h := by
  intro f hf
  cases hf

theorem FilesFrom.push_file {f : SavedFile} (hf : f.state = .pending) (hp : f.path ∈ paths) :
    (FilesFrom paths).KeptByPush (.file f) := by
  intro u h hu
  have hends := SavedFile.pushed hf u h
  generalize u.push _ h = pushed at hends ⊢
  obtain ⟨r, u', h'⟩ := pushed
  cases hends with
  | refused _ => exact hu
  | @tracked f' _ he =>
    intro g hg
    rcases List.mem_cons.mp hg with hg | hg
    · cases hg
      rw [he.path]
      exact hp
    · exact hu g hg

theorem FilesFrom.push_other {c : Change}
    (hc : ∀ h, ∀ f, (Reversible.enable c h).2.1 ≠ .file f) : (FilesFrom paths).KeptByPush c := by
  intro u h hu
  have hne := hc h
  rcases he : Reversible.enable c h with ⟨r, c', h'⟩
  rw [he] at hne
  cases r with
  | error e =>
    rw [UndoStack.push_of_error he]
    exact hu
  | ok _ =>
    rw [UndoStack.push_of_ok he]
    intro g hg
    rcases List.mem_cons.mp hg with hg | hg
    · exact absurd hg.symm (hne g)
    · exact hu g hg

theorem FilesFrom.push_absent (f : AbsentFile) : (FilesFrom paths).KeptByPush (.absent f) :=
  push_other fun _ _ h => nomatch h

theorem FilesFrom.push_packages (s : PackageSet) : (FilesFrom paths).KeptByPush (.packages s) :=
  push_other fun _ _ h => nomatch h

theorem DirectoriesOf.push_file {f : SavedFile} (hf : f.state = .pending) :
    (DirectoriesOf fs).KeptByPush (.file f) := by
  intro u h hu
  have hends := SavedFile.pushed hf u h
  generalize u.push _ h = pushed at hends ⊢
  obtain ⟨r, u', h'⟩ := pushed
  cases hends with
  | refused he => exact fun m hm => he.keepsDirectory (hu m hm)
  | tracked he => exact fun m hm => he.keepsDirectory (hu m hm)

theorem DirectoriesOf.push_other {c : Change}
    (hc : ∀ h, (Reversible.enable c h).2.2.files = h.files) :
    (DirectoriesOf fs).KeptByPush c := by
  intro u h hu
  have hfiles := hc h
  rcases he : Reversible.enable c h with ⟨r, c', h'⟩
  rw [he] at hfiles
  have hkept : DirectoriesOf fs u h' := by
    intro m hm
    rw [hfiles]
    exact hu m hm
  cases r with
  | error e =>
    rw [UndoStack.push_of_error he]
    exact hkept
  | ok _ =>
    rw [UndoStack.push_of_ok he]
    exact hkept

end

theorem restoreEach_keepsDirectory {backup : Path} {paths : List Path} {cs : List Change}
    {h : Host} (hreg : ∀ c ∈ cs, c.Regular backup paths) {m : Location}
    (hm : h.files.tree.node? m = some .directory) :
    (UndoStack.restoreEach cs h).2.2.files.tree.node? m = some .directory := by
  have hend := UndoStack.restoreEach_induct
    (P := fun (cs : List Change) (w : Host) => (∀ c ∈ cs, c.Regular backup paths) ∧
      w.files.tree.node? m = some .directory) ?_ cs h ⟨hreg, hm⟩
  · exact hend.2
  · rintro c cs w ⟨hreg, hm⟩
    refine ⟨fun c' hc' => hreg c' (List.mem_cons_of_mem c hc'), ?_⟩
    rw [UndoStack.restoreOne_world]
    cases c with
    | file f =>
      rw [(Change.restore_file f w).1]
      exact (SavedFile.restoring f w.files).keepsDirectory hm
    | absent f =>
      rw [(Change.restore_absent f w).1]
      exact (AbsentFile.restoring f w.files).keepsDirectory hm
    | packages s =>
      have hfiles := (PackageSet.restoring s w).files (hreg _ List.mem_cons_self)
      change (s.restore w).2.2.files.tree.node? m = _
      rw [hfiles]
      exact hm
    | rehearsed c =>
      obtain ⟨journal, hworld⟩ := Change.restore_rehearsed c w
      rw [hworld]
      exact hm

theorem FileSystem.isFile_of_directories {fs fs' : FileSystem} {p : Path}
    (hcwd : fs'.directory = fs.directory)
    (hdirs : ∀ m, fs.tree.node? m = some .directory → fs'.tree.node? m = some .directory)
    (h : fs.isFile p = true) (w : ByteArray × Bool)
    (hw : fs'.tree.file? (fs.place p) = some w) : fs'.isFile p = true := by
  rw [isFile_iff, place_congr hcwd]
  exact ⟨locate_mono hcwd hdirs (isFile_iff.mp h).1, w.1, w.2, FileTree.file?_eq_some.mp hw⟩

/-! ### Paths of the site -/

namespace Site

variable (site : Site)

def releasePaths : List Path := releaseFiles.map site.path

/-- Paths below the root that are saved but for the list of version locks. -/
def namedPaths : List Path := (releaseFiles ++ site.config.backupFiles).map site.path

/-- A path that the operator named leads to the list of version locks. -/
def NamesLocks (d : Location) : Prop :=
  ∃ p ∈ site.config.backupFiles, (site.path p).placeFrom d = site.versionLocks.placeFrom d

variable {site}

theorem releasePaths_subset : site.releasePaths ⊆ site.namedPaths :=
  List.map_subset _ (List.subset_append_left _ _)

theorem namedPaths_subset : site.namedPaths ⊆ site.savedHostPaths :=
  List.map_subset _ (List.subset_append_left _ _)

theorem place_releaseFile {p : Path} (h : p ∈ releaseFiles) (d : Location) :
    ∃ name, (site.path p).placeFrom d = site.root.placeFrom d ++ ["etc", name] := by
  have hsteps : ∀ p ∈ releaseFiles, ∃ name ∈ ["os-release", "system-release"],
      p.steps = [.name "etc", .name name] := by decide
  obtain ⟨name, -, hname⟩ := hsteps p h
  refine ⟨name, ?_⟩
  rw [placeFrom_path, hname]
  simp [Component.next]

theorem releasePath_apart {p : Path} (h : p ∈ site.releasePaths) (d : Location) :
    p.placeFrom d ≠ site.versionLocks.placeFrom d ∧
      ∀ q copy, SavedFile.copyOf? site.backupDirectory q = some copy →
        copy.placeFrom d ≠ p.placeFrom d := by
  obtain ⟨p, hp, rfl⟩ := List.mem_map.mp h
  obtain ⟨name, hplace⟩ :
      ∃ name, (site.path p).placeFrom d = site.root.placeFrom d ++ ["etc", name] :=
    place_releaseFile hp d
  rw [hplace, place_versionLocks]
  constructor
  · intro heq
    simpa using List.append_cancel_left heq
  · intro q copy hc
    exact SavedFile.place_copyOf_ne hc d _ (by decide)

theorem namedPath_ne {p : Path} (h : p ∈ site.namedPaths) {d : Location}
    (hnames : ¬ site.NamesLocks d) : p.placeFrom d ≠ site.versionLocks.placeFrom d := by
  obtain ⟨p, hp, rfl⟩ := List.mem_map.mp h
  rcases List.mem_append.mp hp with hp | hp
  · exact (releasePath_apart (List.mem_map_of_mem hp) d).1
  · exact fun heq => hnames ⟨p, hp, heq⟩

end Site

/-! ### What is owed -/

section

variable (site : Site) (d : Location) (v : Option (ByteArray × Bool))

/-- The list of version locks has been saved on `fs`, by the latest change. -/
structure LocksSaved (f : SavedFile) (copy : Path) (cs : List Change) (fs : FileSystem) :
    Prop where
  path : f.path = site.versionLocks
  state : f.state = .enabled
  copied : f.copy = some copy
  stems : ∀ g, .file g ∈ cs → g.path ∈ site.namedPaths
  safe : Safe d site.backupDirectory site.savedHostPaths (site.versionLocks.placeFrom d) v
    (.file f :: cs) fs
  there : fs.isFile copy = true
  here : fs.isFile site.versionLocks = true
  same : fs.tree.file? (copy.placeFrom d) = fs.tree.file? (site.versionLocks.placeFrom d)

/-- What holds since then of the changes above: undoing them leaves the emptied list where it is,
and what would move to it. -/
structure LocksOwed (f : SavedFile) (cs : List Change) (fs : FileSystem) (x : Bool)
    (allowed : List Path) (u : UndoStack Change) (h : Host) : Prop where
  files : FilesFrom allowed u h
  directories : DirectoriesOf fs u h
  list : Untouched site d (site.versionLocks.placeFrom d) (some (.empty, x)) u h
  due : ∀ l, Due d (site.versionLocks.placeFrom d) (.file f :: cs) l →
    l ≠ site.versionLocks.placeFrom d → Untouched site d l (fs.tree.file? l) u h

/-- What is left once the changes above are undone. -/
structure LocksLeft (f : SavedFile) (cs : List Change) (fs : FileSystem) (x : Bool)
    (fs' : FileSystem) : Prop where
  cwd : fs'.directory = d
  directories : ∀ m, fs.tree.node? m = some .directory → fs'.tree.node? m = some .directory
  list : fs'.tree.file? (site.versionLocks.placeFrom d) = some (.empty, x)
  due : ∀ l, Due d (site.versionLocks.placeFrom d) (.file f :: cs) l →
    l ≠ site.versionLocks.placeFrom d → fs'.tree.file? l = fs.tree.file? l

/-- The list of version locks is empty, and its change is on the stack below others whose files are
those of `allowed`. -/
def Owing (allowed : List Path) : Condition := fun u h => ∃ f copy cs fs x,
  LocksSaved site d v f copy cs fs ∧ Condition.Over (LocksOwed site d f cs fs x allowed)
    (.file f :: cs) u h

end

section

variable {site : Site} {d : Location} {v : Option (ByteArray × Bool)} {allowed : List Path}

theorem Owing.stable : (Owing site d v allowed).Stable := by
  refine ⟨?_, fun hu => hu⟩
  rintro u h i ⟨f, copy, cs, fs, x, hsaved, u', hsplit, howed⟩
  exact ⟨f, copy, cs, fs, x, hsaved, u', hsplit, howed.files, howed.directories, howed.list,
    howed.due⟩

theorem Owing.mono {allowed' : List Path} (hsub : allowed ⊆ allowed') {u : UndoStack Change}
    {h : Host} (hu : Owing site d v allowed u h) : Owing site d v allowed' u h := by
  obtain ⟨f, copy, cs, fs, x, hsaved, u', hsplit, howed⟩ := hu
  exact ⟨f, copy, cs, fs, x, hsaved, u', hsplit,
    fun g hg => hsub (howed.files g hg), howed.directories, howed.list, howed.due⟩

theorem Owing.push {c : Change} (hfiles : (FilesFrom allowed).KeptByPush c)
    (hdirs : ∀ fs, (DirectoriesOf fs).KeptByPush c)
    (hplaces : ∀ q w, (Untouched site d q w).KeptByPush c) :
    (Owing site d v allowed).KeptByPush c := by
  rintro u h ⟨f, copy, cs, fs, x, hsaved, hover⟩
  have hkept : Condition.KeptByPush (LocksOwed site d f cs fs x allowed) c := fun u' h' hu' =>
    ⟨hfiles u' h' hu'.files, hdirs fs u' h' hu'.directories, hplaces _ _ u' h' hu'.list,
      fun l hl hne => hplaces _ _ u' h' (hu'.due l hl hne)⟩
  exact ⟨f, copy, cs, fs, x, hsaved, hkept.over _ u h hover⟩

theorem Owing.push_file (hdigests : SavedFile.DigestsApart site.savedHostPaths) {p : Path}
    (hp : p ∈ site.savedHostPaths) (hallowed : p ∈ allowed) (ha : p.isAbsolute = true) :
    (Owing site d v allowed).KeptByPush
      (.file { path := p, backupDirectory := site.backupDirectory }) :=
  push (FilesFrom.push_file rfl hallowed) (fun _ => DirectoriesOf.push_file rfl)
    fun _ _ => Untouched.push_file hdigests hp ha

theorem Owing.push_absent {p : Path} (ha : p.isAbsolute = true) (hdown : .up ∉ p.steps) :
    (Owing site d v allowed).KeptByPush (.absent { path := p }) :=
  push (FilesFrom.push_absent _) (fun _ => DirectoriesOf.push_other fun _ => rfl)
    fun _ _ => Untouched.push_absent ha hdown

theorem Owing.push_packages {s : PackageSet} (hm : s.manager.LeavesFiles)
    (hs : s.state = .pending) : (Owing site d v allowed).KeptByPush (.packages s) := by
  refine push (FilesFrom.push_packages s) (fun _ => ?_) fun _ _ => Untouched.push_packages hm hs
  exact DirectoriesOf.push_other fun h => ((PackageSet.enabling hs h).files hm).1

theorem Owing.grows {u : UndoStack Change} {h : Host} {fs' : FileSystem}
    (hu : Owing site d v allowed u h) (hg : h.files.Grows fs') :
    Owing site d v allowed u { h with files := fs' } := by
  obtain ⟨f, copy, cs, fs, x, hsaved, u', hsplit, howed⟩ := hu
  have hplace {q : Location} {w : Option (ByteArray × Bool)} (hq : Untouched site d q w u' h) :
      Untouched site d q w u' { h with files := fs' } :=
    hq.imp_right fun hq => ⟨hq.1.grows hg, hg.closed hq.2⟩
  exact ⟨f, copy, cs, fs, x, hsaved, u', hsplit, howed.files,
    fun m hm => hg.keepsDirectory (howed.directories m hm), hplace howed.list,
    fun l hl hne => hplace (howed.due l hl hne)⟩

theorem Owing.start (hdigests : SavedFile.DigestsApart site.savedHostPaths)
    {u u' : UndoStack Change} {h h' : Host} {fs : FileSystem}
    (hu : Untouched site d (site.versionLocks.placeFrom d) v u h)
    (hstems : FilesFrom site.namedPaths u h) (ha : site.versionLocks.isAbsolute = true)
    (hfile : h.files.isFile site.versionLocks = true)
    (hpush : u.push (.file { path := site.versionLocks, backupDirectory := site.backupDirectory })
      h = (.ok (), u', h')) (hwrite : h'.files.write site.versionLocks .empty = .ok fs) :
    Owing site d v allowed u' { h' with files := fs } := by
  rcases hu with ⟨f, -, copy, hcopy, hplace⟩ | ⟨hsafe, hclosed⟩
  · exact absurd hplace (Site.versionLocks_not_copy hcopy d)
  · have hends := SavedFile.pushed (f := ⟨site.versionLocks, site.backupDirectory, none, .pending⟩)
      rfl u h
    rw [hpush] at hends
    cases hends with
    | @tracked f' fs' he =>
      have hv : site.versionLocks ∈ site.savedHostPaths :=
        List.mem_map_of_mem (by simp [Site.savedPaths])
      have hsaved := hsafe.save (f := ⟨site.versionLocks, site.backupDirectory, none, .pending⟩)
        hdigests hv ha rfl rfl (fun copy hc => Site.versionLocks_not_copy hc d) he
      have hclosed' := FileSystem.closed_writeWith hwrite (he.closed hclosed)
      obtain ⟨copy, -, rfl, hthere, hhere, hsame⟩ :=
        he.copies hfile fun copy hc => Site.versionLocks_not_copy hc _
      rw [hsafe.cwd] at hsame
      obtain ⟨x, hfs, -, hfree, -⟩ := FileSystem.writeWith_ok hwrite
      have hcwd : fs.directory = d := by
        rw [hfs]
        exact hsaved.cwd
      have hput (l : Location) : fs.tree.file? l =
          if l = site.versionLocks.placeFrom d then some (.empty, x) else fs'.tree.file? l := by
        rw [hfs, FileTree.file?_put (FileTree.ne_nil_of_node? hfree), FileSystem.place, hsaved.cwd]
      have hstart (l : Location) :
          Untouched site d l (fs.tree.file? l) {} { h with files := fs } := by
        rw [← hcwd]
        exact Untouched.start rfl hclosed'
      -- nothing has been pushed since, so all is as this write has left it
      refine ⟨_, copy, u.changes, fs', x,
        ⟨rfl, rfl, rfl, hstems, hsaved, hthere, hhere, hsame⟩, {}, rfl, .start _, ?_, ?_, ?_⟩
      · exact fun m hm => FileSystem.keepsDirectory_writeWith hwrite hm
      · have hlist := hstart (site.versionLocks.placeFrom d)
        rwa [hput, if_pos rfl] at hlist
      · intro l _ hne
        have hdue := hstart l
        rwa [hput, if_neg hne] at hdue

/-! ### Paying it back -/

/-- Where no path named leads to the list, nothing but its copy is due. -/
theorem Due.eq_of_named {cs : List Change} {l : Location}
    (hstems : ∀ g, .file g ∈ cs → g.path ∈ site.namedPaths) (hnames : ¬ site.NamesLocks d)
    (h : Due d (site.versionLocks.placeFrom d) cs l) : l = site.versionLocks.placeFrom d := by
  induction h with
  | here => rfl
  | later _ ih => exact ih fun g hg => hstems g (List.mem_cons_of_mem _ hg)
  | copied _ _ _ ih =>
    have hlist := ih fun g hg => hstems g (List.mem_cons_of_mem _ hg)
    exact absurd hlist (Site.namedPath_ne (hstems _ List.mem_cons_self) hnames)

theorem LocksSaved.not_taken {f : SavedFile} {copy : Path} {cs cs' : List Change}
    {fs : FileSystem} (h : LocksSaved site d v f copy cs fs)
    (hdigests : SavedFile.DigestsApart site.savedHostPaths)
    (hreg : ∀ c ∈ cs', c.Regular site.backupDirectory site.savedHostPaths)
    (hfrom : (∀ g, .file g ∈ cs' → g.path ∈ site.releasePaths) ∨
      (∀ g, .file g ∈ cs' → g.path ∈ site.namedPaths) ∧ ¬ site.NamesLocks d) {l : Location}
    (hl : Due d (site.versionLocks.placeFrom d) (.file f :: cs) l) :
    ¬ Taken d site.backupDirectory l cs' := by
  rintro ⟨g, hg, copy', hcopy', hplace⟩
  obtain ⟨hp, hga, -⟩ := hreg _ hg
  have hout := Site.versionLocks_not_copy hcopy' d
  rcases hfrom with hfrom | ⟨hfrom, hnames⟩
  · -- a release file would have to be due itself
    obtain ⟨hlist, hcopies⟩ := Site.releasePath_apart (hfrom g hg) d
    have hsource := Due.source hdigests h.safe.regular hp hcopy' hout hplace hl
    rcases Due.eq_or_taken h.safe.regular hsource with heq | ⟨f', -, copy'', hcopy'', hsame⟩
    · exact hlist heq
    · exact hcopies _ _ hcopy'' hsame
  · -- only the copy of the list is due, and no other path has the same one
    have hne := Site.namedPath_ne (hfrom g hg) hnames
    cases hl with
    | later hl => exact hout (hplace.trans (Due.eq_of_named h.stems hnames hl))
    | @copied _ copy'' _ hstate hcopied _ =>
      obtain ⟨hf, hfa, hfc⟩ := h.safe.regular _ List.mem_cons_self
      have hc := (hfc hstate).symm.trans hcopied
      have hsame := SavedFile.place_of_same_copy hcopy' hc hplace
        (hdigests _ hp _ hf)
      exact hne (hsame.trans (by rw [h.path]))

theorem LocksOwed.undone {f : SavedFile} {copy : Path} {cs : List Change} {fs : FileSystem}
    {x : Bool} {u : UndoStack Change} {h : Host}
    (howed : LocksOwed site d f cs fs x allowed u h) (hsaved : LocksSaved site d v f copy cs fs)
    (hdigests : SavedFile.DigestsApart site.savedHostPaths)
    (hallowed : allowed ⊆ site.releasePaths ∨
      allowed ⊆ site.namedPaths ∧ ¬ site.NamesLocks d) :
    LocksLeft site d f cs fs x (UndoStack.restoreEach u.changes h).2.2.files := by
  have hlist : Safe d site.backupDirectory site.savedHostPaths (site.versionLocks.placeFrom d)
      (some (.empty, x)) u.changes h.files := by
    rcases howed.list with ⟨g, -, copy', hcopy', hplace⟩ | ⟨hsafe, -⟩
    · exact absurd hplace (Site.versionLocks_not_copy hcopy' d)
    · exact hsafe
  have hfrom : (∀ g, .file g ∈ u.changes → g.path ∈ site.releasePaths) ∨
      (∀ g, .file g ∈ u.changes → g.path ∈ site.namedPaths) ∧ ¬ site.NamesLocks d :=
    hallowed.imp (fun hsub g hg => hsub (howed.files g hg))
      (And.imp_left fun hsub g hg => hsub (howed.files g hg))
  have hundone := hlist.restoreEach hdigests
  refine ⟨hundone.cwd, ?_, hundone.here, ?_⟩
  · intro m hm
    exact restoreEach_keepsDirectory hlist.regular (howed.directories m hm)
  · intro l hl hne
    have hsafe := (howed.due l hl hne).resolve_left
      (hsaved.not_taken hdigests hlist.regular hfrom hl)
    exact (hsafe.1.restoreEach hdigests).here

/-- Then restoring the list makes good for emptying it. -/
theorem LocksSaved.repaid {f : SavedFile} {copy : Path} {cs : List Change} {fs fs' : FileSystem}
    {x : Bool} (hsaved : LocksSaved site d v f copy cs fs)
    (hleft : LocksLeft site d f cs fs x fs') :
    Safe d site.backupDirectory site.savedHostPaths (site.versionLocks.placeFrom d) v cs
      (f.restore fs').2.2 := by
  have hpath := hsaved.path
  have hcopyOf : SavedFile.copyOf? site.backupDirectory f.path = some copy :=
    ((hsaved.safe.regular _ List.mem_cons_self).2.2 hsaved.state).symm.trans hsaved.copied
  have hapart : copy.placeFrom d ≠ site.versionLocks.placeFrom d :=
    Site.versionLocks_not_copy hcopyOf d
  have hcopy : fs'.tree.file? (copy.placeFrom d) = fs.tree.file? (copy.placeFrom d) := by
    refine hleft.due _ (.copied hsaved.state hsaved.copied ?_) hapart
    rw [hpath]
    exact Due.self _ _ _
  have hcwd : fs'.directory = fs.directory := hleft.cwd.trans hsaved.safe.cwd.symm
  have hplace (p : Path) : fs.place p = p.placeFrom d := by
    rw [FileSystem.place, hsaved.safe.cwd]
  obtain ⟨-, c, y, hnode⟩ := FileSystem.isFile_iff.mp hsaved.there
  rw [hplace] at hnode
  have hthere : fs'.isFile copy = true := by
    refine FileSystem.isFile_of_directories hcwd hleft.directories hsaved.there (c, y) ?_
    rw [hplace, hcopy, FileTree.file?_eq_some.mpr hnode]
  have hhere : fs'.isFile site.versionLocks = true := by
    refine FileSystem.isFile_of_directories hcwd hleft.directories hsaved.here (.empty, x) ?_
    rw [hplace, hleft.list]
  refine hsaved.safe.restore_agreeing hsaved.state hsaved.copied (hpath ▸ hapart)
    (hpath ▸ hsaved.same) hleft.cwd hthere (hpath ▸ hhere) hcopy ?_
  intro l hl hne
  exact hleft.due l (.later hl) (hpath ▸ hne)

theorem Owing.rollback (hdigests : SavedFile.DigestsApart site.savedHostPaths)
    {u : UndoStack Change} {h : Host} (hu : Owing site d v allowed u h)
    (hallowed : allowed ⊆ site.releasePaths ∨
      allowed ⊆ site.namedPaths ∧ ¬ site.NamesLocks d) :
    Safe d site.backupDirectory site.savedHostPaths (site.versionLocks.placeFrom d) v []
      (u.popAll h).2.2.files := by
  obtain ⟨f, copy, cs, fs, x, hsaved, u', hsplit, howed⟩ := hu
  have hleft := howed.undone hsaved hdigests hallowed
  rw [(u.popAll_restores h).1, hsplit, UndoStack.restoreEach_append_world,
    UndoStack.restoreEach_cons_world, UndoStack.restoreOne_world, (Change.restore_file f _).1]
  exact Safe.restoreEach (hsaved.repaid hleft) hdigests

end

end Changeover
