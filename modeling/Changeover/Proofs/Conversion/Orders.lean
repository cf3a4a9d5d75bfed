import Changeover.Proofs.Conversion.Endings
import Changeover.Proofs.Conversion.Runs
import Changeover.Proofs.Rollback.Orders

/-!
# Conversions whose actions run in any order

In parallel or not, a conversion that does not commit leaves each file as it was, whatever the order
in which the actions of a batch ran. The one exception is the list of version locks: where the
operator has it saved as well, this save may come too late, and then the list is restored empty.
-/

namespace Changeover

/-- A location that is neither a place for copies nor one of a report. -/
structure Site.Apart (site : Site) (d q : Location) : Prop where
  copies : ∀ p ∈ site.savedHostPaths, ∀ copy,
    SavedFile.copyOf? site.backupDirectory p = some copy → copy.placeFrom d ≠ q
  reports : ∀ report, ∀ t ∈ Conversion.reportTexts site .before report, t.1.placeFrom d ≠ q

theorem Site.apart_versionLocks (site : Site) (d : Location) :
    site.Apart d (site.versionLocks.placeFrom d) where
  copies _ _ _ hcopy := Site.versionLocks_not_copy hcopy d
  reports report t ht := by
    have hother {name : String} (hn : Path.IsName name) (hne : name ≠ "versionlock.list") :
        (site.reportDirectory.join ⟨name⟩).placeFrom d ≠ site.versionLocks.placeFrom d := by
      rw [Path.placeFrom_join_name hn, Site.place_versionLocks]
      intro heq
      have hlast := congrArg List.getLast? heq
      rw [List.getLast?_concat, List.getLast?_append] at hlast
      exact hne (Option.some.inj hlast)
    simp only [Conversion.reportTexts, List.mem_cons, List.not_mem_nil, or_false] at ht
    rcases ht with rfl | rfl
    all_goals
      dsimp only
      exact hother ⟨by decide, by decide, by decide⟩ (by decide)

namespace Conversion

section

variable {site : Site} {settings : Settings} {stamp : Stamp} {h : Host} {q : Location}
  {ms : List Moment} {first : RunEnd}

/-- Where clearing the version locks makes no difference, the first run leaves what a rollback puts
back. -/
theorem untouched_of_goes (hsite : site.Plain)
    (hdigests : SavedFile.DigestsApart site.savedHostPaths) (hmanager : site.manager.LeavesFiles)
    (hclosed : h.files.tree.Closed)
    (hq : q ≠ site.versionLocks.placeFrom h.files.directory ∨ settings.allowOverridable = false)
    (hfirst : (Runner.ofSettings settings).Goes stamp [] (stagesBefore site) { host := h } ms
      first) :
    Untouched site h.files.directory q (h.files.tree.file? q) first.session.undo
      first.session.host := by
  have hclear : Procedure.Leads (Untouched site h.files.directory q (h.files.tree.file? q))
      (Untouched site h.files.directory q (h.files.tree.file? q))
      ((clearVersionLocks site).run settings) := by
    rcases hq with hq | hallow
    · exact Procedure.leads_clearVersionLocks fun _ _ _ _ => Untouched.of_clearing hdigests hq
    · exact Procedure.keeps_clearVersionLocks hallow
  have hlasting := Condition.lasting Untouched.stable
    (Untouched.keptAnyway hdigests hsite hmanager) (Untouched.keptByConfigured hdigests hsite)
    hclear
  exact hfirst.lasting hlasting (Untouched.start rfl hclosed)

theorem filesFrom_of_goes
    (hfirst : (Runner.ofSettings settings).Goes stamp [] (stagesBefore site) { host := h } ms
      first) :
    FilesFrom site.savedHostPaths first.session.undo first.session.host := by
  have hreleased : site.releasePaths ⊆ site.savedHostPaths :=
    List.Subset.trans Site.releasePaths_subset Site.namedPaths_subset
  have hclear : Procedure.Leads (FilesFrom site.savedHostPaths) (FilesFrom site.savedHostPaths)
      ((clearVersionLocks site).run settings) :=
    Procedure.leads_clearVersionLocks fun _ _ _ _ => FilesFrom.of_clearing
  have hlasting := Condition.lasting FilesFrom.stable (FilesFrom.keptAnyway hreleased)
    (FilesFrom.keptByConfigured Site.namedPaths_subset) hclear
  exact hfirst.lasting hlasting (FilesFrom.start h)

theorem locksPhase_of_goes (hsite : site.Plain)
    (hdigests : SavedFile.DigestsApart site.savedHostPaths) (hmanager : site.manager.LeavesFiles)
    (hclosed : h.files.tree.Closed)
    (hfirst : (Runner.ofSettings settings).Goes stamp [] (stagesBefore site) { host := h } ms
      first) :
    LocksPhase site h.files.directory
        (h.files.tree.file? (site.versionLocks.placeFrom h.files.directory)) ms first.session ∧
      (runsOf "CLEAR_VERSIONLOCK" ms).length ≤ 1 := by
  refine ⟨hfirst.lasting (LocksPhase.lasting hdigests hsite hmanager) ?_, ?_⟩
  · exact .before rfl (Untouched.start rfl hclosed) (FilesFrom.start h)
  · obtain ⟨report, hreport⟩ := hfirst.report_of_plan (plan_stagesBefore site)
    obtain ⟨-, -, hconcluded⟩ := hfirst.concluded hreport
    exact hconcluded.runs_length _

end

/-- Whatever the order in which actions ran, a conversion that has not committed has put back the
file of each location that is not for a copy or a report. Only the list of version locks may be
lost, if the operator has it saved as well and it was emptied before that. -/
theorem rollback_in_any_order {site : Site} {settings : Settings} {stamps : Stamps} {mode : Mode}
    {answer : Answer} {h : Host} (hsite : site.Plain)
    (hdigests : SavedFile.DigestsApart site.savedHostPaths) (hmanager : site.manager.LeavesFiles)
    (hclosed : h.files.tree.Closed) :
    (∃ ms, Goes site (.ofSettings settings) stamps mode answer (stagesBefore site)
      (stagesAfter site) { host := h } ms
      (run site (.ofSettings settings) stamps mode answer { host := h })) ∧
    ∀ ms e o, Goes site (.ofSettings settings) stamps mode answer (stagesBefore site)
        (stagesAfter site) { host := h } ms e →
      e.outcome = .ok o → o.committed = false →
        ∀ q, site.Apart h.files.directory q →
          e.session.host.files.tree.file? q = h.files.tree.file? q ∨
          (q = site.versionLocks.placeFrom h.files.directory ∧
            settings.allowOverridable = true ∧ site.NamesLocks h.files.directory ∧
            RanBefore "CLEAR_VERSIONLOCK" "BACKUP_CONFIGURED_FILES" ms) := by
  refine ⟨exists_goes _ _ _ _ _ _ _ _, ?_⟩
  intro ms e o hgoes ho hc q hq
  obtain ⟨first, clean, asked, report, s', hfirst, -, he, hu, i, hh⟩ := hgoes.rolls_back ho hc
  obtain ⟨⟨written, hfiles⟩, -⟩ := giveUp_host site clean asked first.events report s'
  rw [← he] at hfiles
  have hfinish (hsafe : Safe h.files.directory site.backupDirectory site.savedHostPaths q
      (h.files.tree.file? q) [] (s'.undo.popAll s'.host).2.2.files) :
      e.session.host.files.tree.file? q = h.files.tree.file? q := by
    rw [hfiles]
    exact (writeAll_file hsafe.cwd (hq.reports written)).trans hsafe.here
  have hcarry (I : Condition) (hI : I.Stable) (hs : I first.session.undo first.session.host) :
      I s'.undo s'.host := by
    rw [hu, hh]
    exact hI.interrupt i hs
  by_cases hlist :
      q ≠ site.versionLocks.placeFrom h.files.directory ∨ settings.allowOverridable = false
  · -- nothing but the list is ever rewritten, and the list only if findings may be overridden
    have huntouched :=
      hcarry _ Untouched.stable (untouched_of_goes hsite hdigests hmanager hclosed hlist hfirst)
    have hsaved := hcarry _ FilesFrom.stable (filesFrom_of_goes hfirst)
    have hfree : ¬ Taken h.files.directory site.backupDirectory q s'.undo.changes := by
      rintro ⟨f, hf, copy, hcopy, hplace⟩
      exact hq.copies _ (hsaved f hf) copy hcopy hplace
    exact .inl (hfinish (Recoverable.rollback hdigests (.inl huntouched) hfree))
  · rw [not_or, not_not, Bool.not_eq_false] at hlist
    obtain ⟨rfl, hallow⟩ := hlist
    obtain ⟨hphase, honce⟩ := locksPhase_of_goes hsite hdigests hmanager hclosed hfirst
    rcases (hphase.carry hcarry).rollback hdigests honce with hsafe | ⟨hnames, horder⟩
    · exact .inl (hfinish hsafe)
    · exact .inr ⟨rfl, hallow, hnames, horder⟩

/-- Release files saved twice do not stand in the way of the list of version locks. -/
theorem rollback_in_any_order_vendorSite :
    (∃ ms e o, Goes vendorSite (.ofSettings ⟨true, true⟩) vendorStamps .analyze ⟨false, false⟩
      (stagesBefore vendorSite) (stagesAfter vendorSite) ⟨lockedHost, {}⟩ ms e ∧
      e.outcome = .ok o ∧ o.committed = false) ∧
    ∀ ms e o, Goes vendorSite (.ofSettings ⟨true, true⟩) vendorStamps .analyze ⟨false, false⟩
        (stagesBefore vendorSite) (stagesAfter vendorSite) ⟨lockedHost, {}⟩ ms e →
      e.outcome = .ok o → o.committed = false →
        e.session.host.files.tree.file? lockList = some ("kernel".toUTF8, false) := by
  have hplain : vendorSite.Plain := ⟨by decide, by decide, by decide⟩
  obtain ⟨⟨ms, hgoes⟩, hany⟩ := @rollback_in_any_order vendorSite ⟨true, true⟩ vendorStamps
    .analyze ⟨false, false⟩ lockedHost hplain vendorSite_digests
    PackageManager.prompt_leavesFiles (FileTree.closed_of_entries (by decide))
  constructor
  · obtain ⟨o, ho, hc⟩ := analyze_committed (plan_stagesBefore vendorSite) vendorSite
      (.ofSettings ⟨true, true⟩) vendorStamps ⟨false, false⟩ (stagesAfter vendorSite)
      ⟨lockedHost, {}⟩
    exact ⟨ms, _, o, hgoes, ho, hc⟩
  · intro ms e o hgoes ho hc
    have hlist : vendorSite.versionLocks.placeFrom lockedHost.files.directory = lockList := by
      decide
    have hunnamed : ¬ vendorSite.NamesLocks lockedHost.files.directory := by
      rintro ⟨p, hp, hplace⟩
      exact (Site.releasePath_apart (List.mem_map_of_mem hp) _).1 hplace
    have hapart := vendorSite.apart_versionLocks lockedHost.files.directory
    rw [hlist] at hapart
    rcases hany ms e o hgoes ho hc lockList hapart with hfile | ⟨-, -, hnames, -⟩
    · exact hfile.trans (by decide +kernel)
    · exact absurd hnames hunnamed

end Conversion

/-! ### Batches run backwards -/

/-- Like `runBatch`, but the actions that have started are run from the last one to the first. -/
def runBatchBackwards (settings : Settings) (run stage : String) (p : Progress)
    (batch : List Action) : Progress :=
  let (started, p) := decideBatch settings run stage batch p
  let (done, session) := performEach settings started.reverse p.session
  done.reverse.foldl (settle run stage) { p with session }

def Runner.runBackwards (r : Runner) (stamp : Stamp) (prior : Levels)
    (stages : List (Stage × StagePlan)) (s : Session) : RunEnd :=
  r.close stamp (stages.foldl (fun p stage =>
    (r.batchesOf stage).foldl (runBatchBackwards r.settings stamp.run stage.1.name)
      (p.enter stamp.run stage.1)) (.start stamp.run prior s))

theorem BatchSteps.ofPerformEach_reverse (settings : Settings) (run stage : String)
    (waiting : List Action) (ps : List (Action × Option Performed)) (p : Progress) :
    ∃ ms qs, .raised ∉ ms ∧ BatchSteps settings run stage
        ⟨[], waiting.reverse.map (·, none) ++ ps, p⟩ ms
        ⟨[], qs ++ ps, { p with session := (performEach settings waiting p.session).2 }⟩ ∧
      qs.map (·.2) = (performEach settings waiting p.session).1.reverse.map some := by
  induction waiting generalizing ps p with
  | nil => exact ⟨[], [], List.not_mem_nil, by simpa [performEach] using BatchSteps.refl _, rfl⟩
  | cons a as ih =>
    cases hp : perform settings a p.session with
    | mk d s =>
      obtain ⟨ms, qs, hms, h, hq⟩ := ih ((a, some d) :: ps) { p with session := s }
      refine ⟨[.ran a p.session] ++ ms, qs ++ [(a, some d)], by simpa using hms, ?_, ?_⟩
      · have hlast : BatchStep settings run stage
            ⟨[], (a :: as).reverse.map (·, none) ++ ps, p⟩ [.ran a p.session]
            ⟨[], as.reverse.map (·, none) ++ (a, some d) :: ps, { p with session := s }⟩ := by
          rw [List.reverse_cons, List.map_append, List.append_assoc]
          exact .perform hp
        refine (single hlast).trans ?_
        simpa [performEach, hp] using h
      · simp [performEach, hp, hq]

theorem exists_batchRun_backwards (settings : Settings) (run stage : String) (p : Progress)
    (batch : List Action) : ∃ ms, .raised ∉ ms ∧
      BatchRun settings run stage batch p ms (runBatchBackwards settings run stage p batch) := by
  obtain ⟨ms, hms, h⟩ := BatchSteps.ofDecideBatch settings run stage batch [] p
  obtain ⟨ns, qs, hns, h', hq⟩ := BatchSteps.ofPerformEach_reverse settings run stage
    (decideBatch settings run stage batch p).1.reverse [] (decideBatch settings run stage batch p).2
  rw [List.reverse_reverse, List.append_nil] at h'
  obtain ⟨ks, hks, h''⟩ := BatchSteps.ofSettle settings run stage (qs ++ []) _ _
    ((List.append_nil qs).symm ▸ hq)
  exact ⟨_, by simp [hms, hns, hks], (h.trans h').trans h''⟩

theorem Runner.exists_runs_backwards (r : Runner) (stamp : Stamp) (prior : Levels)
    (stages : List (Stage × StagePlan)) (s : Session) :
    ∃ ms, .raised ∉ ms ∧
      r.Runs stamp prior stages s ms (r.runBackwards stamp prior stages s) := by
  obtain ⟨ms, hms, hm⟩ := exists_stageRuns
    (fun stage => exists_batchRun_backwards r.settings stamp.run stage) stages
    (.start stamp.run prior s)
  exact ⟨ms, hms, _, hm, rfl⟩

namespace Conversion

theorem exists_analysis {site : Site} {r : Runner} {stamps : Stamps} {answer : Answer}
    {before after : List Stage} {s : Session} {ms : List Moment} {first : RunEnd}
    {report : Report} (hfirst : r.Goes stamps.before [] before s ms first)
    (hreport : first.report = .ok report) :
    ∃ e o, Goes site r stamps .analyze answer before after s ms e ∧ e.outcome = .ok o ∧
      o.committed = false ∧
      ∀ q, site.Apart (undone first.session).host.files.directory q →
        e.session.host.files.tree.file? q =
          (undone first.session).host.files.tree.file? q := by
  obtain ⟨clean, hcourse⟩ := course_analyze site answer hreport
  obtain ⟨o, ho, hc⟩ := giveUp_committed site clean false first.events report first.session
  obtain ⟨⟨written, hfiles⟩, -⟩ :=
    giveUp_host site clean false first.events report first.session
  refine ⟨_, o, .ended hfirst hcourse, ho, hc, ?_⟩
  intro q hq
  rw [hfiles]
  exact writeAll_file rfl (hq.reports written)

def lockSavingSite : Site where
  config := { backupFiles := [⟨VersionLocks.listPath⟩] }
  manager := .prompt

def listedHost : Host where
  files := { tree := { entries := [
    (["proc"], .directory), (["proc", "mounts"], .file .empty false), (["etc"], .directory),
    (["etc", "yum"], .directory), (["etc", "yum", "pluginconf.d"], .directory),
    (lockList, .file "kernel".toUTF8 false)] } }

def lockSavingPlans : List StagePlan :=
  [⟨"system_checks", [0, 1, 2], [0, 0, 0]⟩, ⟨"pre_ponr_changes", [0, 1, 2, 3], [0, 0, 0, 1]⟩]

def forwardRun : RunEnd :=
  (Runner.ofSettings ⟨true, true⟩).run vendorStamps.before [] (stagesBefore lockSavingSite)
    ⟨listedHost, {}⟩

def backwardRun : RunEnd :=
  (Runner.ofSettings ⟨true, true⟩).runBackwards vendorStamps.before []
    ((stagesBefore lockSavingSite).zip lockSavingPlans) ⟨listedHost, {}⟩

theorem forwardRun_goes : ∃ ms, .raised ∉ ms ∧
    (Runner.ofSettings ⟨true, true⟩).Goes vendorStamps.before [] (stagesBefore lockSavingSite)
      ⟨listedHost, {}⟩ ms forwardRun := by
  have hplan := plan_stagesBefore lockSavingSite
  obtain ⟨ms, hms, hruns⟩ := (Runner.ofSettings ⟨true, true⟩).exists_runs_unraised
    vendorStamps.before [] ⟨listedHost, {}⟩ hplan
  exact ⟨ms, hms, (Runner.goes_of_plan hplan).mpr hruns⟩

theorem backwardRun_goes : ∃ ms, .raised ∉ ms ∧
    (Runner.ofSettings ⟨true, true⟩).Goes vendorStamps.before [] (stagesBefore lockSavingSite)
      ⟨listedHost, {}⟩ ms backwardRun := by
  obtain ⟨ms, hms, hruns⟩ := (Runner.ofSettings ⟨true, true⟩).exists_runs_backwards
    vendorStamps.before [] ((stagesBefore lockSavingSite).zip lockSavingPlans) ⟨listedHost, {}⟩
  exact ⟨ms, hms, (Runner.goes_of_plan (plan_stagesBefore lockSavingSite)).mpr hruns⟩

theorem undone_runs :
    (undone forwardRun.session).host.files.tree.file? lockList =
      some ("kernel".toUTF8, false) ∧
    (undone backwardRun.session).host.files.tree.file? lockList = some (.empty, false) := by
  -- forward the list is saved before it is emptied; backward the empty list replaces the copy
  decide +kernel

/-- Two runs of the same batches, on the same host and without an interrupt, restore the list of
version locks to different contents. -/
theorem rollback_depends_on_order : ∃ ms ms' e e' o o',
    .raised ∉ ms ∧ .raised ∉ ms' ∧
    Goes lockSavingSite (.ofSettings ⟨true, true⟩) vendorStamps .analyze ⟨false, false⟩
      (stagesBefore lockSavingSite) (stagesAfter lockSavingSite) ⟨listedHost, {}⟩ ms e ∧
    Goes lockSavingSite (.ofSettings ⟨true, true⟩) vendorStamps .analyze ⟨false, false⟩
      (stagesBefore lockSavingSite) (stagesAfter lockSavingSite) ⟨listedHost, {}⟩ ms' e' ∧
    (e.outcome = .ok o ∧ o.committed = false) ∧ (e'.outcome = .ok o' ∧ o'.committed = false) ∧
    lockSavingSite.Apart listedHost.files.directory lockList ∧
    e.session.host.files.tree.file? lockList = some ("kernel".toUTF8, false) ∧
    e'.session.host.files.tree.file? lockList = some (.empty, false) := by
  have hplan := plan_stagesBefore lockSavingSite
  have hapart (d : Location) : lockSavingSite.Apart d lockList := by
    have hlist : lockSavingSite.versionLocks.placeFrom d = lockList :=
      Path.placeFrom_of_isAbsolute (by decide) d []
    exact hlist ▸ lockSavingSite.apart_versionLocks d
  obtain ⟨ms, hms, hforward⟩ := forwardRun_goes
  obtain ⟨ms', hms', hbackward⟩ := backwardRun_goes
  obtain ⟨report, hreport⟩ := hforward.report_of_plan hplan
  obtain ⟨report', hreport'⟩ := hbackward.report_of_plan hplan
  obtain ⟨e, o, hgoes, ho, hc, hfile⟩ := exists_analysis hforward hreport
  obtain ⟨e', o', hgoes', ho', hc', hfile'⟩ := exists_analysis hbackward hreport'
  refine ⟨ms, ms', e, e', o, o', hms, hms', hgoes, hgoes', ⟨ho, hc⟩, ⟨ho', hc'⟩, hapart _, ?_, ?_⟩
  · exact (hfile lockList (hapart _)).trans undone_runs.1
  · exact (hfile' lockList (hapart _)).trans undone_runs.2

end Conversion

end Changeover
