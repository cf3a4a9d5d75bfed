import Changeover.Proofs.Change.Confined
import Changeover.Proofs.Conversion.Endings
import Changeover.Proofs.Conversion.Runs
import Changeover.Proofs.Rollback.Orders

/-!
# Conversions below a root

All paths of the host are mapped below the root of the site by their text, and `..` is mapped as it
stands. As long as no configured path climbs above where it starts, no action, no rollback and no
report touches anything outside of the root.
-/

namespace Changeover

namespace Site

def mappedPaths (site : Site) : List Path :=
  [site.config.backupDirectory, site.config.workDirectory, site.config.reportDirectory] ++
    site.config.backupFiles ++ site.config.createdFiles

/-- No configured path climbs above the root, or nothing is above it. -/
def Contained (site : Site) : Prop :=
  site.root.resolved = { absolute := true } ∨ ∀ p ∈ site.mappedPaths, p.Grounded

variable {site : Site}

theorem Contained.within (h : site.Contained) {p : Path} (hp : p ∈ site.mappedPaths) :
    site.root.Within (site.path p) := by
  rcases h with htop | hgrounded
  · exact Path.within_of_top htop _
  · exact site.within_of_grounded (hgrounded p hp)

theorem Contained.backup (h : site.Contained) : site.root.Within site.backupDirectory :=
  h.within (by simp [mappedPaths])

theorem Contained.work (h : site.Contained) : site.root.Within site.workDirectory :=
  h.within (by simp [mappedPaths])

theorem within_releaseFile {p : Path} (hp : p ∈ releaseFiles) :
    site.root.Within (site.path p) := by
  have hgrounded : ∀ p ∈ releaseFiles, p.Grounded := by decide
  exact site.within_of_grounded (hgrounded p hp)

theorem within_versionLocks : site.root.Within site.versionLocks :=
  site.within_of_grounded (by decide)

end Site

/-! ### What the actions keep -/

/-- Since `fs` nothing outside of the root has changed, and undoing what is on the stack will change
nothing there. -/
def Enclosed (root : Path) (fs : FileSystem) : Condition := fun u h =>
  (∀ c ∈ u.changes, c.Within root) ∧ fs.Confined root h.files

namespace Enclosed

variable {root : Path} {fs : FileSystem} {site : Site} {settings : Settings} {a : Action}

theorem stable : (Enclosed root fs).Stable := ⟨fun _ h => h, fun h => h⟩

theorem push {c : Change} (hc : c.Within root) : (Enclosed root fs).KeptByPush c := by
  rintro u h ⟨hu, hfs⟩
  obtain ⟨hwithin, hconfined⟩ := hc.enable h
  rcases he : Reversible.enable c h with ⟨r, c', h'⟩
  rw [he] at hwithin hconfined
  cases r with
  | error e =>
    rw [UndoStack.push_of_error he]
    exact ⟨hu, hfs.trans hconfined⟩
  | ok _ =>
    rw [UndoStack.push_of_ok he]
    refine ⟨fun d hd => ?_, hfs.trans hconfined⟩
    rcases List.mem_cons.mp hd with rfl | hd
    · exact hwithin
    · exact hu d hd

theorem push_file (hsite : site.Contained) {p : Path} (hp : site.root.Within p) :
    (Enclosed site.root fs).KeptByPush
      (.file { path := p, backupDirectory := site.backupDirectory }) :=
  push ⟨hp, hsite.backup, nofun⟩

theorem keptAnyway (hsite : site.Contained) (hmanager : site.manager.LeavesFiles) :
    (Enclosed site.root fs).KeptAnyway site where
  directories u h hu := by
    have hmade := FileSystem.confined_makeDirectories hsite.backup.along h.files
    rcases hm : h.files.makeDirectories site.backupDirectory with ⟨r, fs'⟩
    rw [hm] at hmade
    exact ⟨hu.1, hu.2.trans hmade⟩
  release _ hp _ := push_file hsite (Site.within_releaseFile hp)
  packages := push hmanager

theorem keptByConfigured (hsite : site.Contained) :
    (Enclosed site.root fs).KeptByConfigured site where
  file _ hp _ := push_file hsite (hsite.within (by simp [Site.mappedPaths, hp]))
  absent _ hp := push (hsite.within (by simp [Site.mappedPaths, hp]))

theorem of_clearing (hsite : site.Contained) {u u' : UndoStack Change} {h h' : Host}
    (hu : Enclosed site.root fs u h) (hc : Procedure.Clearing site u h u' h') :
    Enclosed site.root fs u' h' := by
  have hkept := push_file hsite Site.within_versionLocks u h hu
  cases hc with
  | idle => exact hu
  | saved _ hpush =>
    rw [hpush] at hkept
    exact hkept
  | emptied _ _ hpush hwrite =>
    rw [hpush] at hkept
    have hempty := FileSystem.confined_writeWith Site.within_versionLocks hwrite
    exact ⟨hkept.1, hkept.2.trans hempty⟩

theorem leads_before (hsite : site.Contained) (hmanager : site.manager.LeavesFiles)
    (ha : a ∈ (stagesBefore site).flatMap (·.actions)) (fs : FileSystem) :
    Procedure.Leads (Enclosed site.root fs) (Enclosed site.root fs) (a.run settings) := by
  refine (keptAnyway hsite hmanager).leads (keptByConfigured hsite) ?_ ha
  exact Procedure.leads_clearVersionLocks fun _ _ _ _ => of_clearing hsite

theorem leads_after (hsite : site.Contained)
    (ha : a ∈ (stagesAfter site).flatMap (·.actions)) (fs : FileSystem) :
    Procedure.Leads (Enclosed site.root fs) (Enclosed site.root fs) (a.run settings) := by
  obtain rfl : a = removeWorkDirectory site := by simpa [stagesAfter] using ha
  refine (Procedure.leads_onHost (J := Enclosed site.root fs) fun u h hu => ?_).andThen
    fun r => ?_
  · have hremoved := FileSystem.confined_removeTree hsite.work h.files
    rcases hr : h.files.removeTree site.workDirectory with ⟨r, fs'⟩
    rw [hr] at hremoved
    exact ⟨hu.1, hu.2.trans hremoved⟩
  · split
    · exact Procedure.keeps_pure _
    · exact Procedure.keeps_pure _
    · exact Procedure.keeps_addMessage _

end Enclosed

/-! ### Reports -/

namespace Conversion

variable {site : Site} {root p : Path}

theorem confined_writeText (hp : root.Within p) (body : String) (fs : FileSystem) :
    fs.Confined root (writeText p body fs).2 := by
  have hwrite {fs fs' : FileSystem} (h : fs.write p body.toUTF8 = .ok fs') : fs.Confined root fs' :=
    FileSystem.confined_writeWith hp h
  unfold writeText
  cases hparent : p.parent? with
  | none =>
    simp only
    cases hw : fs.write p body.toUTF8 with
    | error e => exact .refl root fs
    | ok fs' => exact hwrite hw
  | some directory =>
    have hmade := FileSystem.confined_makeDirectories (hp.along.parent hparent) fs
    rcases hm : fs.makeDirectories directory with ⟨r, fs'⟩
    rw [hm] at hmade
    simp only [hm]
    cases r with
    | error e => exact hmade
    | ok _ =>
      simp only
      cases hw : fs'.write p body.toUTF8 with
      | error e => exact hmade
      | ok fs'' => exact hmade.trans (hwrite hw)

theorem confined_writeAll {ts : List (Path × String)} (hts : ∀ t ∈ ts, root.Within t.1)
    (fs : FileSystem) : fs.Confined root (writeAll ts fs).2 := by
  induction ts generalizing fs with
  | nil => exact .refl root fs
  | cons t ts ih =>
    have hfirst := confined_writeText (hts t List.mem_cons_self) t.2 fs
    exact hfirst.trans (ih (fun t' ht' => hts t' (List.mem_cons_of_mem t ht')) _)

theorem within_reportText (hsite : site.Contained) {reach : Reach} {report : Report}
    {t : Path × String} (ht : t ∈ reportTexts site reach report) : site.root.Within t.1 := by
  have hdirectory : site.root.Within site.reportDirectory :=
    hsite.within (by simp [Site.mappedPaths])
  have hnames : ∀ ending ∈ [".json", ".txt"],
      Path.IsName ("crossgrade-" ++ reach.name ++ ending) := by
    cases reach with
    | before => decide
    | after => decide
  have hpath : ∃ ending ∈ [".json", ".txt"],
      t.1 = site.reportDirectory.join ⟨"crossgrade-" ++ reach.name ++ ending⟩ := by
    simp only [reportTexts, List.mem_cons, List.not_mem_nil, or_false] at ht
    rcases ht with rfl | rfl
    · exact ⟨".json", List.mem_cons_self, by dsimp only⟩
    · exact ⟨".txt", List.mem_cons_of_mem _ List.mem_cons_self, by dsimp only⟩
  obtain ⟨ending, hending, hpath⟩ := hpath
  rw [hpath]
  exact hdirectory.join_name (hnames ending hending)

theorem Finished.confined (hsite : site.Contained) {reach : Reach} {report : Report}
    {s s' : Session} {o : Outcome} (h : Finished site reach report s s' o) :
    s.host.files.Confined site.root s'.host.files := by
  have hwithin : ∀ t ∈ reportTexts site reach o.report, site.root.Within t.1 :=
    fun t ht => within_reportText hsite ht
  have hwritten := confined_writeAll hwithin s.host.files
  have hfiles := congrArg Host.files h.host
  dsimp only at hfiles
  rw [hfiles]
  exact hwritten

/-! ### Whole conversions -/

def KeptTo (root : Path) (settings : Settings) (ms : List Moment) : Prop :=
  ∀ a t, .ran a t ∈ ms → t.host.files.Confined root (perform settings a t).2.host.files

theorem lasting_enclosed (settings : Settings) {as : List Action}
    (has : ∀ a ∈ as, ∀ fs,
      Procedure.Leads (Enclosed root fs) (Enclosed root fs) (a.run settings))
    (fs : FileSystem) : Lasting settings as fun ms s =>
      Enclosed root fs s.undo s.host ∧ KeptTo root settings ms := by
  refine (Lasting.of_condition Enclosed.stable fun a ha => has a ha fs).each_ran ?_
  intro ms s a ha hs
  have hstart : Enclosed root s.host.files s.undo s.host := ⟨hs.1, .refl root s.host.files⟩
  exact ((has a ha s.host.files).perform_action Enclosed.stable hstart).2

section

variable {settings : Settings} {stamps : Stamps} {mode : Mode} {answer : Answer} {s : Session}
  {ms : List Moment} {first : RunEnd} {e : ConversionEnd}

theorem confined_ended (hsite : site.Contained)
    (hu : ∀ c ∈ first.session.undo.changes, c.Within site.root)
    (hcourse : course site mode answer first = .ended e) :
    first.session.host.files.Confined site.root e.session.host.files := by
  rcases ended_of_course hcourse with ⟨err, -, rfl⟩ | ⟨report, clean, asked, -, -, he⟩
  · exact .refl site.root _
  · obtain ⟨o, ho, -⟩ := giveUp_committed site clean asked first.events report
      (first.session.heard asked answer)
    rw [← he] at ho
    obtain ⟨-, -, hfinished⟩ := giveUp_finished he ho
    have hback : first.session.host.files.Confined site.root
        (undone (first.session.heard asked answer)).host.files :=
      UndoStack.confined_popAll hu (first.session.heard asked answer).host
    exact hback.trans (hfinished.confined hsite)

theorem confined_arrive (hsite : site.Contained) (events : List Event) (report : Report)
    (last : RunEnd) : last.session.host.files.Confined site.root
      (arrive site events report last).session.host.files := by
  cases hlast : last.report with
  | error err =>
    rw [arrive_of_error hlast]
    exact .refl site.root _
  | ok later =>
    obtain ⟨o, ho⟩ : ∃ o, (arrive site events report last).outcome = .ok o :=
      arrive_of_ok hlast
    obtain ⟨-, -, hfinished⟩ := arrive_finished hlast rfl ho
    exact hfinished.confined hsite

theorem Goes.confined (hsite : site.Contained) (hmanager : site.manager.LeavesFiles)
    (h : Goes site (.ofSettings settings) stamps mode answer (stagesBefore site)
      (stagesAfter site) s ms e) (hu : ∀ c ∈ s.undo.changes, c.Within site.root) :
    KeptTo site.root settings ms ∧ s.host.files.Confined site.root e.session.host.files := by
  have hbefore := lasting_enclosed settings (fun _ => Enclosed.leads_before hsite hmanager)
    s.host.files
  have hstart : Enclosed site.root s.host.files s.undo s.host := ⟨hu, .refl site.root _⟩
  cases h with
  | ended hfirst hcourse =>
    obtain ⟨⟨hwithin, hrun⟩, hkept⟩ := hfirst.lasting hbefore ⟨hstart, nofun⟩
    exact ⟨hkept, hrun.trans (confined_ended hsite hwithin hcourse)⟩
  | @goOn ms ns first last report s' hfirst hcourse hlast =>
    obtain ⟨⟨-, hrun⟩, hkept⟩ := hfirst.lasting hbefore ⟨hstart, nofun⟩
    obtain ⟨-, -, -, -, rfl⟩ := goOn_of_course hcourse
    have hafter := lasting_enclosed settings (fun _ => Enclosed.leads_after hsite)
      first.session.host.files
    obtain ⟨⟨-, hrest⟩, hkept'⟩ :=
      hlast.lasting hafter ⟨⟨nofun, .refl site.root _⟩, nofun⟩
    refine ⟨fun a t hmem => ?_, (hrun.trans hrest).trans (confined_arrive hsite _ _ _)⟩
    rcases List.mem_append.mp hmem with hmem | hmem
    · exact hkept a t hmem
    · exact hkept' a t hmem

end

/-- A host path is mapped to the root or below it exactly if it goes down again by those names of
the root that it climbs over. Where no configured path climbs, nothing outside of the root is
touched by an action, or changed by a conversion with its rollback and its reports; only directories
that lead to the root may be made, if it is not there yet. -/
theorem host_paths_confined (site : Site) :
    (∀ p : Path, (site.root.resolved.Encloses (site.path p).resolved ↔
        (site.root.isAbsolute = true ∨ p.descent.ups ≤ site.root.resolved.names.length) ∧
          site.root.resolved.names.drop (site.root.resolved.names.length - p.descent.ups) <+:
            p.descent.names) ∧
      (site.root.resolved.Encloses (site.path p).resolved →
        ∀ d, site.root.placeFrom d <+: (site.path p).placeFrom d)) ∧
    (site.Contained → site.manager.LeavesFiles →
      ∀ (settings : Settings) (stamps : Stamps) (mode : Mode) (answer : Answer) (h : Host),
      (∃ ms, Goes site (.ofSettings settings) stamps mode answer (stagesBefore site)
        (stagesAfter site) { host := h } ms
        (run site (.ofSettings settings) stamps mode answer { host := h })) ∧
      ∀ ms e, Goes site (.ofSettings settings) stamps mode answer (stagesBefore site)
          (stagesAfter site) { host := h } ms e →
        KeptTo site.root settings ms ∧ h.files.Confined site.root e.session.host.files ∧
        (h.files.isDirectory site.root = true →
          ∀ m, ¬ site.root.placeFrom h.files.directory <+: m →
            e.session.host.files.tree.node? m = h.files.tree.node? m)) := by
  constructor
  · intro p
    refine ⟨site.encloses_path_iff p, fun hencloses d => ?_⟩
    rw [Path.placeFrom_eq_resolved, Path.placeFrom_eq_resolved]
    exact hencloses.place d
  · intro hsite hmanager settings stamps mode answer h
    refine ⟨exists_goes _ _ _ _ _ _ _ _, fun ms e hgoes => ?_⟩
    obtain ⟨hkept, hconfined⟩ := hgoes.confined hsite hmanager nofun
    exact ⟨hkept, hconfined, fun hroot m hm => hconfined.unchanged hroot hm⟩

/-- A site below a directory. One of its configured paths goes up, but not above where it starts. -/
def nestedSite : Site where
  root := ⟨"/srv/host"⟩
  config := { backupFiles := [⟨"/etc/yum/../hosts"⟩], createdFiles := [⟨"/etc/new"⟩] }
  manager := .prompt

def nestingHost : Host where
  files := { tree := { entries := [
    (["etc"], .directory), (["etc", "hosts"], .file "machine".toUTF8 false),
    (["srv"], .directory), (["srv", "host"], .directory), (["srv", "host", "etc"], .directory),
    (["srv", "host", "etc", "hosts"], .file "host".toUTF8 false)] } }

/-- The files of the machine are not those of the host. -/
theorem host_paths_confined_nestedSite : nestedSite.config.validate = .ok () ∧
    nestedSite.Contained ∧ nestedSite.manager.LeavesFiles ∧
    (∃ ms e, Goes nestedSite (.ofSettings ⟨true, false⟩) vendorStamps .convert ⟨true, false⟩
      (stagesBefore nestedSite) (stagesAfter nestedSite) ⟨nestingHost, {}⟩ ms e) ∧
    ∀ ms e, Goes nestedSite (.ofSettings ⟨true, false⟩) vendorStamps .convert ⟨true, false⟩
        (stagesBefore nestedSite) (stagesAfter nestedSite) ⟨nestingHost, {}⟩ ms e →
      e.session.host.files.tree.node? ["etc", "hosts"] =
        some (.file "machine".toUTF8 false) := by
  have hsite : nestedSite.Contained := .inr (by decide)
  obtain ⟨⟨ms, hgoes⟩, hany⟩ := (host_paths_confined nestedSite).2 hsite
    PackageManager.prompt_leavesFiles ⟨true, false⟩ vendorStamps .convert ⟨true, false⟩ nestingHost
  refine ⟨by decide, hsite, PackageManager.prompt_leavesFiles, ⟨ms, _, hgoes⟩, ?_⟩
  intro ms e hgoes
  obtain ⟨-, -, hunchanged⟩ := hany ms e hgoes
  exact hunchanged (by decide) ["etc", "hosts"] (by decide)

/-- A site whose work directory climbs above the root. -/
def climbingSite : Site where
  root := ⟨"/srv/host"⟩
  config := { workDirectory := ⟨"/../../etc"⟩ }
  manager := .prompt

/-- A configured path that climbs above the root is accepted, and the files of the machine are
removed in place of those of the host. -/
theorem climbing_path_escapes : climbingSite.config.validate = .ok () ∧
    climbingSite.workDirectory.text = "/srv/host/../../etc" ∧
    ¬ climbingSite.root.resolved.Encloses climbingSite.workDirectory.resolved ∧
    nestingHost.files.tree.node? ["etc", "hosts"] = some (.file "machine".toUTF8 false) ∧
    (perform ⟨true, false⟩ (removeWorkDirectory climbingSite)
      ⟨nestingHost, {}⟩).2.host.files.tree.node? ["etc", "hosts"] = none := by
  refine ⟨by decide, by decide, by decide, by decide, by decide⟩

end Conversion

end Changeover
