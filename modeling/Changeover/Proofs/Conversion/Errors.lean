import Changeover.Proofs.Conversion.Phases

/-!
# Conversions without an outcome

Stages without a plan end a conversion without an outcome. The stages before the point of no return
are planned first, and then nothing has happened. Those after it are planned only once the changes
are committed, although their plan does not depend on anything that was run.
-/

namespace Changeover

namespace Conversion

section

variable (stamps : Stamps) (before after : List Stage) (s : Session) (ms : List Moment)
  (e : ConversionEnd) (err : PlanError)

/-- There is no plan for the stages before the point of no return, and nothing has happened. -/
structure FailedAtOnce : Prop where
  unplanned : plan (before.map Stage.jobs) [] = .error err
  idle : ms = []
  untouched : e = ⟨.error err, false, [.failed stamps.before.run err.message], s⟩

/-- There is no plan for the stages after the point of no return, and it has been passed. -/
structure FailedLate (settings : Settings) (mode : Mode) (answer : Answer) (first : RunEnd)
    (report : Report) : Prop where
  planned : ∃ plans, plan (before.map Stage.jobs) [] = .ok plans
  unplanned : plan (after.map Stage.jobs) ((workIn before).map (·.2.id)) = .error err
  goes : (Runner.ofSettings settings).Goes stamps.before [] before s ms first
  reported : first.report = .ok report
  accepted : mode = .convert ∧ answer.accepts = true ∧ first.Clear report
  ran_once : ∀ w ∈ workIn before, RanOnce settings ms report.entries w
  only_before : ∀ a t, .ran a t ∈ ms → a ∈ before.flatMap (·.actions)
  committed : e = ⟨.error err, true, first.events ++ [.failed stamps.after.run err.message],
    ⟨(first.session.heard true answer).host, ⟨[], first.session.undo.failures⟩⟩⟩

end

variable {site : Site} {settings : Settings} {stamps : Stamps} {mode : Mode} {answer : Answer}
  {before after : List Stage} {s s' : Session} {ms ns : List Moment} {first last : RunEnd}
  {report : Report} {e : ConversionEnd} {err : PlanError}

theorem failedAtOnce_of_goes {r : Runner} (h : r.Goes stamps.before [] before s ms first)
    (hr : first.report = .error err) (he : e = ⟨.error err, false, first.events, first.session⟩) :
    FailedAtOnce stamps before s ms e err := by
  have hplan := h.plan_of_error hr
  obtain ⟨hms, rfl⟩ := h.of_plan_error hplan
  exact ⟨hplan, hms, he⟩

theorem failedLate_of_goes
    (hfirst : (Runner.ofSettings settings).Goes stamps.before [] before s ms first)
    (hcourse : course site mode answer first = .goOn report s')
    (hlast : (Runner.ofSettings settings).Goes stamps.after (Levels.ofReports [report]) after s' ns
      last) (hr : last.report = .error err) :
    FailedLate stamps before after s (ms ++ ns) (arrive site first.events report last) err settings
      mode answer first report := by
  have hunplanned := hlast.plan_of_error hr
  obtain ⟨rfl, rfl⟩ := hlast.of_plan_error hunplanned
  obtain ⟨hreport, hc, hm, ha, rfl⟩ := goOn_of_course hcourse
  obtain ⟨plans, hplan, hconcluded⟩ := hfirst.concluded hreport
  have hcalm := hconcluded.interrupted.symm.trans hc.calm
  have hall := hconcluded.all_ran hplan (Levels.free_nil _) hcalm hc.free
  rw [hconcluded.plan_next] at hunplanned
  rw [List.append_nil]
  exact ⟨⟨plans, hplan⟩, hunplanned, hfirst, hreport, ⟨hm, ha, hc⟩, hall,
    fun a t h => hfirst.ran_mem h, arrive_of_error rfl⟩

theorem failed_of_goes
    (h : Goes site (.ofSettings settings) stamps mode answer before after s ms e)
    (he : e.outcome = .error err) : FailedAtOnce stamps before s ms e err ∨ ∃ first report,
      FailedLate stamps before after s ms e err settings mode answer first report := by
  cases h with
  | ended hfirst hcourse =>
    rcases ended_of_course hcourse with ⟨err', hr, hend⟩ | ⟨report, clean, asked, -, -, hend⟩
    · rw [hend] at he
      cases he
      exact .inl (failedAtOnce_of_goes hfirst hr hend)
    · obtain ⟨o, ho, -⟩ := giveUp_committed site clean asked _ report _
      rw [hend, ho] at he
      cases he
  | @goOn ms ns first last report s' hfirst hcourse hlast =>
    cases hr : last.report with
    | error err' =>
      have hlate := failedLate_of_goes hfirst hcourse hlast hr
      rw [hlate.committed] at he
      cases he
      exact .inr ⟨first, report, hlate⟩
    | ok later =>
      obtain ⟨o, ho⟩ := arrive_of_ok hr
      rw [ho] at he
      cases he

theorem outcome_of_unplanned_before {r : Runner}
    (h : Goes site r stamps mode answer before after s ms e)
    (hplan : plan (before.map Stage.jobs) [] = .error err) : e.outcome = .error err := by
  cases h with
  | ended hfirst hcourse =>
    obtain ⟨-, rfl⟩ := hfirst.of_plan_error hplan
    rcases ended_of_course hcourse with ⟨err', hr, hend⟩ | ⟨report, -, -, hr, -, -⟩
    · cases hr
      rw [hend]
    · cases hr
  | goOn hfirst hcourse _ =>
    obtain ⟨-, rfl⟩ := hfirst.of_plan_error hplan
    cases (goOn_of_course hcourse).1

theorem outcome_of_unplanned_after
    (h : Goes site (.ofSettings settings) stamps mode answer before after s ms e)
    (hasked : e.asked = true) (haccepts : answer.accepts = true)
    (hplan : plan (after.map Stage.jobs) ((workIn before).map (·.2.id)) = .error err) :
    e.outcome = .error err := by
  cases h with
  | ended hfirst hcourse =>
    rcases ended_of_course hcourse with ⟨err', -, rfl⟩ | ⟨report, clean, asked, -, hwhy, hend⟩
    · cases hasked
    · rw [hend, giveUp_eq] at hasked
      rw [hwhy.declines hasked] at haccepts
      cases haccepts
  | goOn hfirst hcourse hlast =>
    -- the second run is planned with the ids of the report, which are those of the stages
    obtain ⟨plans, -, hconcluded⟩ := hfirst.concluded (goOn_of_course hcourse).1
    rw [← hconcluded.plan_next] at hplan
    obtain ⟨-, rfl⟩ := hlast.of_plan_error hplan
    rw [arrive_of_error rfl]

/-- A conversion has no outcome in two cases: without a plan for the stages before the point of no
return, and then nothing has happened; and without one for those after it, once the operator has
agreed, and then everything before it is done and committed. -/
theorem error_at_once_or_late (site : Site) (settings : Settings) (stamps : Stamps) (mode : Mode)
    (answer : Answer) (before after : List Stage) (s : Session) :
    (∃ ms, Goes site (.ofSettings settings) stamps mode answer before after s ms
      (runStages site (.ofSettings settings) stamps mode answer before after s)) ∧
    ∀ ms e, Goes site (.ofSettings settings) stamps mode answer before after s ms e →
      (∀ err, e.outcome = .error err → FailedAtOnce stamps before s ms e err ∨ ∃ first report,
        FailedLate stamps before after s ms e err settings mode answer first report) ∧
      ((∃ err, e.outcome = .error err) ↔
        (∃ err, plan (before.map Stage.jobs) [] = .error err) ∨
          e.asked = true ∧ answer.accepts = true ∧
            ∃ err, plan (after.map Stage.jobs) ((workIn before).map (·.2.id)) = .error err) := by
  refine ⟨exists_goes .., ?_⟩
  intro ms e hgoes
  refine ⟨fun err he => failed_of_goes hgoes he, ?_, ?_⟩
  · rintro ⟨err, he⟩
    rcases failed_of_goes hgoes he with hfailed | ⟨first, report, hfailed⟩
    · exact .inl ⟨err, hfailed.unplanned⟩
    · refine .inr ⟨?_, hfailed.accepted.2.1, err, hfailed.unplanned⟩
      rw [hfailed.committed]
  · rintro (⟨err, hplan⟩ | ⟨hasked, haccepts, err, hplan⟩)
    · exact ⟨err, outcome_of_unplanned_before hgoes hplan⟩
    · exact ⟨err, outcome_of_unplanned_after hgoes hasked haccepts hplan⟩

/-- Stages after the point of no return that depend on something nobody provides. -/
def unplannedStages : List Stage := [⟨"after", [rehearsedAction "tidy" ["nothing"] [] []]⟩]

def unplannedAfter : ConversionEnd :=
  runStages { manager := .ledger {} } (.ofSettings {}) rehearsalStamps .convert ⟨true, false⟩
    keptStages unplannedStages {}

theorem unplannedAfter_outcome :
    unplannedAfter.outcome = .error (.unknownDependency "tidy" "nothing") := rfl

theorem error_at_once_or_late_unplannedAfter : ∃ ms first report,
    FailedLate rehearsalStamps keptStages unplannedStages {} ms unplannedAfter
      (.unknownDependency "tidy" "nothing") {} .convert ⟨true, false⟩ first report := by
  obtain ⟨⟨ms, hgoes⟩, hall⟩ := error_at_once_or_late { manager := .ledger {} } {}
    rehearsalStamps .convert ⟨true, false⟩ keptStages unplannedStages {}
  rcases (hall ms _ hgoes).1 _ unplannedAfter_outcome with hfailed | ⟨first, report, hfailed⟩
  · cases hfailed.unplanned
  · exact ⟨ms, first, report, hfailed⟩

/-- An error does not mean that nothing has happened. -/
theorem error_leaves_committed_change :
    unplannedAfter.outcome = .error (.unknownDependency "tidy" "nothing") ∧
      unplannedAfter.session.host.journal = ["run:edit", "enable:kept"] ∧
      unplannedAfter.session.undo.entries = [] := ⟨rfl, rfl, rfl⟩

end Conversion

end Changeover
