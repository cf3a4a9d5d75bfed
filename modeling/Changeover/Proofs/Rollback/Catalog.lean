import Changeover.Action.Catalog
import Changeover.Proofs.Files.Saving
import Changeover.Proofs.Run.Conditions
import Changeover.Proofs.Run.Conversions

/-!
# What the actions of the catalog do

The actions before the point of no return look at the host, make the backup directory, push saved,
absent and packaged changes, and one of them empties a file that it has saved. A condition that all
these steps keep is kept by the actions, wherever they stop.
-/

namespace Changeover

namespace Site

/-- Paths of the host that may be saved. -/
def savedPaths (site : Site) : List Path :=
  releaseFiles ++ site.config.backupFiles ++ [⟨VersionLocks.listPath⟩]

theorem mem_savedPaths_of_release (site : Site) {p : Path} (h : p ∈ releaseFiles) :
    p ∈ site.savedPaths := by simp [savedPaths, h]

theorem mem_savedPaths_of_configured (site : Site) {p : Path} (h : p ∈ site.config.backupFiles) :
    p ∈ site.savedPaths := by simp [savedPaths, h]

def versionLocks (site : Site) : Path := site.path ⟨VersionLocks.listPath⟩

def vendorSet (site : Site) : PackageSet where
  packages := site.config.vendorPackages
  repositories := site.config.repositories
  manager := site.manager

end Site

/-- A condition that pushing a change keeps, whether the change can be enabled or not. -/
def Condition.KeptByPush (I : Condition) (c : Change) : Prop :=
  ∀ (u : UndoStack Change) (h : Host), I u h → I (u.push c h).2.1 (u.push c h).2.2

/-- A condition that the saving actions keep. -/
structure Condition.KeptBySaves (I : Condition) (site : Site) : Prop where
  directories : ∀ {u : UndoStack Change} {h : Host} {fs : FileSystem}, I u h → h.files.Grows fs →
    I u { h with files := fs }
  file : ∀ p ∈ site.savedPaths, (site.path p).isAbsolute = true →
    I.KeptByPush (.file { path := site.path p, backupDirectory := site.backupDirectory })
  absent : ∀ p ∈ site.config.createdFiles, I.KeptByPush (.absent { path := site.path p })

namespace Procedure

variable {I : Condition} {site : Site} {settings : Settings}

theorem keeps_readHostText (p : Path) : Leads I I (readHostText p) := by
  refine keeps_get.andThen fun w => ?_
  cases w.host.files.readText p with
  | ok s => exact keeps_pure s
  | error e => exact keeps_fail _

theorem keeps_mountCheck (c : MountCheck) : Leads I I ((c.toAction site).run settings) := by
  refine (keeps_readHostText _).andThen fun table => ?_
  split
  · exact keeps_setResult _ _
  · exact keeps_pure _

theorem keeps_checkBackupDirectory (hI : ∀ u h, I u h →
    I u { h with files := (h.files.makeDirectories site.backupDirectory).2 }) :
    Leads I I ((checkBackupDirectory site).run settings) := by
  refine (leads_onHost (J := I) fun u h hu => ?_).andThen fun r => ?_
  · have hmade := hI u h hu
    rcases hm : h.files.makeDirectories site.backupDirectory with ⟨r, fs⟩
    rw [hm] at hmade
    exact hmade
  · cases r with
    | ok _ => exact keeps_pure _
    | error e => exact keeps_setResult _ _

theorem keeps_saveFile {p : Path} (hI : (site.path p).isAbsolute = true →
    I.KeptByPush (.file { path := site.path p, backupDirectory := site.backupDirectory })) :
    Leads I I (saveFile site (site.path p)) := by
  refine keeps_get.andThen fun w => ?_
  cases hnew : SavedFile.new? w.host.files (site.path p) site.backupDirectory with
  | error e => exact keeps_pure _
  | ok f =>
    obtain ⟨ha, rfl⟩ := SavedFile.new?_ok hnew
    refine (leads_tryPush (hI ha)).andThen fun r => ?_
    cases r with
    | ok _ => exact keeps_pure _
    | error e => exact keeps_pure _

theorem keeps_saveFiles (ps : List Path) (hI : ∀ p ∈ ps, (site.path p).isAbsolute = true →
    I.KeptByPush (.file { path := site.path p, backupDirectory := site.backupDirectory })) :
    Leads I I (saveFiles site ps) := by
  induction ps with
  | nil => exact keeps_pure _
  | cons p ps ih =>
    refine (keeps_saveFile (hI p List.mem_cons_self)).andThen fun found => ?_
    cases found with
    | none => exact ih fun p' hp' => hI p' (List.mem_cons_of_mem p hp')
    | some f => exact keeps_pure _

theorem keeps_saveReleaseFiles (hI : ∀ p ∈ releaseFiles, (site.path p).isAbsolute = true →
    I.KeptByPush (.file { path := site.path p, backupDirectory := site.backupDirectory })) :
    Leads I I ((saveReleaseFiles site).run settings) := by
  refine (keeps_saveFiles releaseFiles hI).andThen fun found => ?_
  cases found with
  | none => exact keeps_pure _
  | some f => exact keeps_setResult _ _

theorem keeps_saveConfiguredFiles
    (hI : ∀ p ∈ site.config.backupFiles, (site.path p).isAbsolute = true →
      I.KeptByPush (.file { path := site.path p, backupDirectory := site.backupDirectory }))
    (habsent : ∀ p ∈ site.config.createdFiles, I.KeptByPush (.absent { path := site.path p })) :
    Leads I I ((saveConfiguredFiles site).run settings) := by
  refine (keeps_saveFiles site.config.backupFiles hI).andThen fun found => ?_
  cases found with
  | none => exact keeps_forM _ fun p hp => leads_push (habsent p hp)
  | some f => exact keeps_setResult _ _

theorem keeps_installVendorPackages (hI : I.KeptByPush (.packages site.vendorSet)) :
    Leads I I ((installVendorPackages site).run settings) := by
  simp only [installVendorPackages]
  split
  · refine (leads_tryPush hI).andThen fun r => ?_
    cases r with
    | ok _ => exact keeps_pure _
    | error e =>
      cases e with
      | nothingToRestore => exact keeps_fail _
      | enableFailed change cause => exact keeps_setResult _ _
  · exact keeps_pure _

/-! ### Version locks -/

/-- What clearing the version locks does, wherever it stops. -/
inductive Clearing (site : Site) (u : UndoStack Change) (h : Host) :
    UndoStack Change → Host → Prop
  | idle : Clearing site u h u h
  | saved {r : Except (Stop UndoError) Unit} {u' : UndoStack Change} {h' : Host} :
    site.versionLocks.isAbsolute = true →
    u.push (.file { path := site.versionLocks, backupDirectory := site.backupDirectory }) h =
      (r, u', h') → Clearing site u h u' h'
  | emptied {u' : UndoStack Change} {h' : Host} {fs : FileSystem} :
    site.versionLocks.isAbsolute = true → h.files.isFile site.versionLocks = true →
    u.push (.file { path := site.versionLocks, backupDirectory := site.backupDirectory }) h =
      (.ok (), u', h') →
    h'.files.write site.versionLocks .empty = .ok fs →
    Clearing site u h u' { h' with files := fs }

theorem perform_readHostText (p : Path) (w : Workspace) :
    ∃ r, (readHostText p).perform w = (r, w) := by
  simp only [readHostText, perform_bind, perform_get]
  cases w.host.files.readText p with
  | ok s => exact ⟨_, rfl⟩
  | error e => exact ⟨_, rfl⟩

theorem perform_saveFile (site : Site) (p : Path) (w : Workspace) :
    (∃ f, (saveFile site p).perform w = (.ok (some f), w)) ∨
    p.isAbsolute = true ∧ ∃ r pushed u h,
      w.undo.push (.file { path := p, backupDirectory := site.backupDirectory }) w.host =
        (pushed, u, h) ∧
      (saveFile site p).perform w = (r, { w with undo := u, host := h }) ∧
      (r = .ok none → pushed = .ok ()) := by
  simp only [saveFile, perform_bind, perform_get]
  cases hnew : SavedFile.new? w.host.files p site.backupDirectory with
  | error e => exact Or.inl ⟨_, rfl⟩
  | ok f =>
    obtain ⟨ha, rfl⟩ := SavedFile.new?_ok hnew
    refine Or.inr ⟨ha, ?_⟩
    simp only [perform_bind, perform_tryPush]
    rcases w.undo.push (.file { path := p, backupDirectory := site.backupDirectory }) w.host with
      ⟨_ | _, u, h⟩
    · rename_i stop
      cases stop with
      | failed e => exact ⟨_, _, u, h, rfl, rfl, by simp⟩
      | panicked t => exact ⟨_, _, u, h, rfl, rfl, by simp⟩
    · exact ⟨_, _, u, h, rfl, rfl, fun _ => rfl⟩

theorem clearing_clear (site : Site) (entries : Nat) {w : Workspace}
    (hfile : w.host.files.isFile site.versionLocks = true) : Clearing site w.undo w.host
      ((VersionLocks.clear site site.versionLocks entries).perform w).2.undo
      ((VersionLocks.clear site site.versionLocks entries).perform w).2.host := by
  simp only [VersionLocks.clear, perform_bind]
  rcases perform_saveFile site site.versionLocks w with
    ⟨f, hsave⟩ | ⟨ha, r, pushed, u, h, hpush, hsave, hok⟩
  · rw [hsave]
    exact keeps_setResult (I := Clearing site w.undo w.host) _ _ w .idle
  · rw [hsave]
    have hsaved : Clearing site w.undo w.host u h := .saved ha hpush
    rcases r with e | found
    · exact hsaved
    · cases found with
      | some f => exact keeps_setResult (I := Clearing site w.undo w.host) _ _ _ hsaved
      | none =>
        obtain rfl := hok rfl
        simp only [perform_bind, perform_get]
        cases hwrite : h.files.write site.versionLocks .empty with
        | error e => exact hsaved
        | ok fs => exact .emptied ha hfile hpush hwrite

theorem clearing (site : Site) (settings : Settings) (w : Workspace) :
    Clearing site w.undo w.host
      (((clearVersionLocks site).run settings).perform w).2.undo
      (((clearVersionLocks site).run settings).perform w).2.host := by
  simp only [clearVersionLocks, perform_bind, perform_get]
  split
  · rename_i hfile
    simp only [perform_bind]
    obtain ⟨r, hread⟩ := perform_readHostText (site.path ⟨VersionLocks.listPath⟩) w
    rw [hread]
    cases r with
    | error e => exact .idle
    | ok content =>
      simp only
      split
      · split
        · exact clearing_clear site _ hfile
        · exact keeps_setResult (I := Clearing site w.undo w.host) _ _ w .idle
      · exact .idle
  · exact .idle

theorem keeps_clearVersionLocks (h : settings.allowOverridable = false) :
    Leads I I ((clearVersionLocks site).run settings) := by
  refine keeps_get.andThen fun w => ?_
  split
  · refine (keeps_readHostText _).andThen fun content => ?_
    simp only [h, Bool.false_eq_true, if_false]
    split
    · exact keeps_setResult _ _
    · exact keeps_pure _
  · exact keeps_pure _

theorem leads_clearVersionLocks {J : Condition}
    (h : ∀ u h u' h', I u h → Clearing site u h u' h' → J u' h') :
    Leads I J ((clearVersionLocks site).run settings) :=
  fun w hw => h _ _ _ _ hw (clearing site settings w)

end Procedure

/-! ### Both stages -/

theorem plan_stagesBefore (site : Site) : plan ((stagesBefore site).map Stage.jobs) [] =
    .ok [⟨"system_checks", [0, 1, 2], [0, 0, 0]⟩,
      ⟨"pre_ponr_changes", [0, 1, 2, 3], [0, 0, 0, 1]⟩] := rfl

/-- Run one by one, the actions lead from a condition that the saves keep on to one that is made by
clearing the version locks and kept by installing the packages. -/
theorem runs_lead {site : Site} {settings : Settings} {I J : Condition} (hI : I.Stable)
    (hJ : J.Stable) (hIJ : ∀ u h, I u h → J u h) (hsaves : I.KeptBySaves site)
    (hclear : ∀ u h u' h', I u h → Procedure.Clearing site u h u' h' → J u' h')
    (hinstall : J.KeptByPush (.packages site.vendorSet)) (hp : settings.parallel = false)
    {stamp : Stamp} {s : Session} {ms : List Moment} {e : RunEnd}
    (h : (Runner.ofSettings settings).Goes stamp [] (stagesBefore site) s ms e)
    (hs : I s.undo s.host) : J e.session.undo e.session.host := by
  rw [Runner.goes_of_plan (plan_stagesBefore site)] at h
  obtain ⟨p, hruns, rfl⟩ := h
  have hchecks : LeadsOn settings I
      [MountCheck.mnt.toAction site, MountCheck.sys.toAction site,
        checkBackupDirectory site] I := by
    refine .keep hI fun a ha => ?_
    simp only [List.mem_cons, List.not_mem_nil, or_false] at ha
    rcases ha with rfl | rfl | rfl
    · exact Procedure.keeps_mountCheck _
    · exact Procedure.keeps_mountCheck _
    · exact Procedure.keeps_checkBackupDirectory fun _ h hu =>
        hsaves.directories hu (h.files.makeDirectories_grows _)
  have hchanges : LeadsOn settings I [saveReleaseFiles site, saveConfiguredFiles site,
      clearVersionLocks site, installVendorPackages site] J :=
    .cons hI (fun _ _ h => h) (Procedure.keeps_saveReleaseFiles fun p hp =>
      hsaves.file p (site.mem_savedPaths_of_release hp)) <|
    .cons hI (fun _ _ h => h) (Procedure.keeps_saveConfiguredFiles (fun p hp =>
      hsaves.file p (site.mem_savedPaths_of_configured hp)) hsaves.absent) <|
    .cons hJ hIJ (Procedure.leads_clearVersionLocks hclear) <|
    .cons hJ (fun _ _ h => h) (Procedure.keeps_installVendorPackages hinstall) .nil
  have hsingle (stage : Stage) (plan : StagePlan) (as : List Action)
      (has : plan.order.map (fun i => [i].filterMap (stage.actions[·]?)) = as.map ([·])) :
      (Runner.ofSettings settings).batchesOf (stage, plan) = as.map ([·]) := by
    simp only [Runner.batchesOf, Runner.ofSettings, batchesFor, hp, Bool.false_eq_true, if_false,
      singleBatches, List.map_map]
    exact has
  obtain ⟨q, ns, hq, hrest⟩ := hruns.leads_cons hI (hsingle _ _ _ rfl) hchecks hs
  obtain ⟨q', ns', hq', hend⟩ := hrest.leads_cons hI (hsingle _ _ _ rfl) hchanges hq
  exact hend.leads_nil hJ hq'

end Changeover
