import Changeover.Proofs.Conversion.Phases

/-!
# Success

A conversion is successful only if all that was planned for it has been run. A skipped action does
not block by itself; but it goes back to one that does, in the same run, since nothing blocks that
the second run knows from the first.
-/

namespace Changeover

theorem RanOnce.of_runs {settings : Settings} {ms ns : List Moment} {es es' : List ReportEntry}
    {w : String × Action} (h : RanOnce settings ms es w)
    (hruns : runsOf w.2.id ns = runsOf w.2.id ms) (hes : es ⊆ es') :
    RanOnce settings ns es' w := by
  obtain ⟨t, ht, d, hd, entry, he, hentry⟩ := h
  exact ⟨t, hruns.trans ht, d, hd, entry, hes he, hentry⟩

/-- A clear run, and what is known to a run that follows it. -/
structure Accomplished (settings : Settings) (stages : List Stage) (ms : List Moment)
    (report : Report) : Prop where
  ran : ∀ w ∈ workIn stages, RanOnce settings ms report.entries w
  free : ∀ entry ∈ report.entries,
    entry.result.level.blocksDependents settings.allowOverridable = false

theorem Concluded.accomplished {settings : Settings} {prior : Levels} {raised : Bool}
    {stages : List Stage} {plans : List StagePlan} {ms : List Moment} {e : RunEnd}
    {report : Report} (h : Concluded settings prior raised stages ms e report)
    (hplan : plan (stages.map Stage.jobs) (prior.map (·.1)) = .ok plans)
    (hprior : prior.Free settings.allowOverridable)
    (hc : e.Clear report) : Accomplished settings stages ms report where
  ran := h.all_ran hplan hprior (h.interrupted.symm.trans hc.calm) hc.free
  free _ he := h.level_free hplan hprior hc.free he

namespace Conversion

/-- The stages a conversion is meant to run. -/
def stagesFor (before after : List Stage) : Mode → List Stage
  | .analyze => before
  | .convert => before ++ after

theorem rollbackEntries_level {failures : List String} {entry : ReportEntry}
    (h : entry ∈ rollbackEntries failures) : entry.result.level = .warning := by
  unfold rollbackEntries at h
  split at h
  · cases h
  · rw [List.mem_singleton.mp h]
    rfl

variable {site : Site} {settings : Settings} {stamps : Stamps} {mode : Mode} {answer : Answer}
  {before after : List Stage} {s s' : Session} {ms ns : List Moment} {first last : RunEnd}
  {report later : Report} {e : ConversionEnd} {o : Outcome}

theorem accomplished_first
    (h : (Runner.ofSettings settings).Goes stamps.before [] before s ms first)
    (hr : first.report = .ok report) (hc : first.Clear report) :
    Accomplished settings before ms report := by
  obtain ⟨plans, hplan, hconcluded⟩ := h.concluded hr
  exact hconcluded.accomplished hplan (Levels.free_nil _) hc

theorem accomplished_both
    (hfirst : (Runner.ofSettings settings).Goes stamps.before [] before s ms first)
    (hr : first.report = .ok report) (hc : first.Clear report)
    (hlast : (Runner.ofSettings settings).Goes stamps.after (Levels.ofReports [report]) after s'
      ns last) (hl : last.report = .ok later) (hc' : last.Clear later) :
    Accomplished settings (before ++ after) (ms ++ ns)
      { report with entries := report.entries ++ later.entries } := by
  obtain ⟨plans, hplan, hconcluded⟩ := hfirst.concluded hr
  obtain ⟨plans', hplan', hconcluded'⟩ := hlast.concluded hl
  have hdone := hconcluded.accomplished hplan (Levels.free_nil _) hc
  have hprior := hconcluded.level_next hplan (Levels.free_nil _) hc.free
  have hdone' := hconcluded'.accomplished hplan' hprior hc'
  constructor
  case ran =>
    intro w hw
    rw [workIn, List.flatMap_append, List.mem_append] at hw
    -- what one run has run is a stranger to the other, so no call is added
    rcases hw with hw | hw
    · have hnext := hconcluded.disjoint_next hconcluded' (List.mem_map_of_mem hw)
      refine (hdone.ran w hw).of_runs ?_ (List.subset_append_left _ _)
      rw [runsOf_append, hconcluded'.strangers _ hnext, List.append_nil]
    · have hbefore : w.2.id ∉ (workIn before).map (·.2.id) := fun hmem =>
        hconcluded.disjoint_next hconcluded' hmem (List.mem_map_of_mem hw)
      refine (hdone'.ran w hw).of_runs ?_ (List.subset_append_right _ _)
      rw [runsOf_append, hconcluded.strangers _ hbefore, List.nil_append]
  case free =>
    intro entry he
    rcases List.mem_append.mp he with he | he
    · exact hdone.free entry he
    · exact hdone'.free entry he

theorem accomplished_of_successful
    (h : Goes site (.ofSettings settings) stamps mode answer before after s ms e)
    (ho : e.outcome = .ok o) (hs : o.status = .successful) :
    ∃ report, Accomplished settings (stagesFor before after mode) ms report ∧
      o.report.entries = report.entries ++ rollbackEntries o.rollbackFailures := by
  cases h with
  | @ended _ first _ hfirst hcourse =>
    rcases ended_of_course hcourse with ⟨err, -, rfl⟩ | ⟨report, clean, asked, hr, hwhy, he⟩
    · cases ho
    · have hrolled := rolledBack_of_giveUp hfirst hwhy he ho
      obtain ⟨rfl, hc, -⟩ := hrolled.successful.mp hs
      exact ⟨report, accomplished_first hfirst hr hc, hrolled.entries⟩
  | @goOn ms ns first last report s' hfirst hcourse hlast =>
    obtain ⟨later, hl, hcommitted⟩ := committed_of_course hfirst hcourse hlast rfl ho
    obtain ⟨hr, hc, rfl, -, -⟩ := goOn_of_course hcourse
    have hc' := hcommitted.successful.mp hs
    exact ⟨_, accomplished_both hfirst hr hc hlast hl hc', hcommitted.entries⟩

/-- A successful conversion has run every action once that it was meant to run, and no result that
it reports skips, fails or is tolerated without permission. -/
theorem successful_ran_all (site : Site) (settings : Settings) (stamps : Stamps) (mode : Mode)
    (answer : Answer) (before after : List Stage) (s : Session) :
    (∃ ms, Goes site (.ofSettings settings) stamps mode answer before after s ms
      (runStages site (.ofSettings settings) stamps mode answer before after s)) ∧
    ∀ ms e o, Goes site (.ofSettings settings) stamps mode answer before after s ms e →
      e.outcome = .ok o → o.status = .successful →
        (∀ w ∈ workIn (stagesFor before after mode), RanOnce settings ms o.report.entries w) ∧
        ∀ entry ∈ o.report.entries, entry.result.level ≠ .skip ∧ entry.result.level ≠ .error ∧
          (entry.result.level = .overridable → settings.allowOverridable = true) := by
  refine ⟨exists_goes .., ?_⟩
  intro ms e o hgoes ho hs
  obtain ⟨report, hdone, hentries⟩ := accomplished_of_successful hgoes ho hs
  rw [hentries]
  constructor
  · intro w hw
    exact (hdone.ran w hw).of_runs rfl (List.subset_append_left _ _)
  · intro entry he
    rw [← Level.blocksDependents_eq_false_iff]
    rcases List.mem_append.mp he with he | he
    · exact hdone.free entry he
    · rw [rollbackEntries_level he]
      rfl

/-- A change is kept, and another one is tried out and taken back after the commit. -/
theorem successful_ran_all_keptAndDraft : ∃ ms e o,
    Goes { manager := .ledger {} } (.ofSettings {}) rehearsalStamps .convert ⟨true, false⟩
      keptStages draftStages {} ms e ∧
    e.outcome = .ok o ∧ o.status = .successful ∧
    (∀ w ∈ workIn (keptStages ++ draftStages), RanOnce {} ms o.report.entries w) := by
  obtain ⟨ms, e, o, hgoes, ho, hs, -⟩ := exists_keptAndDraft
  have hall := (successful_ran_all { manager := .ledger {} } {} rehearsalStamps .convert
    ⟨true, false⟩ keptStages draftStages {}).2 ms e o hgoes ho hs
  exact ⟨ms, e, o, hgoes, ho, hs, hall.1⟩

end Conversion

end Changeover
