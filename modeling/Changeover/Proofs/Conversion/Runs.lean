import Changeover.Proofs.Plan.Known
import Changeover.Proofs.Run.Conversions
import Changeover.Proofs.Run.Lasting
import Changeover.Proofs.Run.Skips

/-!
# The two runs of a conversion

A run of a conversion either has no plan, and then nothing happens, or it comes to a report. The
second run knows what was done in the first by the entries of its report, which are those of the
actions of the first; so whether it has a plan can be told before anything is run.
-/

namespace Changeover

namespace Runner

variable {r : Runner} {settings : Settings} {stamp : Stamp} {prior : Levels}
  {stages : List Stage} {plans : List StagePlan} {s : Session} {ms : List Moment} {e : RunEnd}
  {report : Report} {err : PlanError}

theorem Goes.of_plan_error (h : r.Goes stamp prior stages s ms e)
    (hplan : plan (stages.map Stage.jobs) (prior.map (·.1)) = .error err) :
    ms = [] ∧ e = ⟨.error err, [.failed stamp.run err.message], s⟩ := by
  unfold Goes at h
  rw [hplan] at h
  obtain ⟨hms, he⟩ := h
  rw [run, hplan] at he
  exact ⟨hms, he⟩

theorem Goes.report_of_plan (h : r.Goes stamp prior stages s ms e)
    (hplan : plan (stages.map Stage.jobs) (prior.map (·.1)) = .ok plans) :
    ∃ report, e.report = .ok report := by
  obtain ⟨p, -, rfl⟩ := (goes_of_plan hplan).mp h
  exact ⟨_, rfl⟩

theorem Goes.plan_of_report (h : r.Goes stamp prior stages s ms e) (hr : e.report = .ok report) :
    ∃ plans, plan (stages.map Stage.jobs) (prior.map (·.1)) = .ok plans := by
  cases hplan : plan (stages.map Stage.jobs) (prior.map (·.1)) with
  | ok plans => exact ⟨plans, rfl⟩
  | error err =>
    obtain ⟨-, rfl⟩ := h.of_plan_error hplan
    cases hr

theorem Goes.plan_of_error (h : r.Goes stamp prior stages s ms e) (hr : e.report = .error err) :
    plan (stages.map Stage.jobs) (prior.map (·.1)) = .error err := by
  cases hplan : plan (stages.map Stage.jobs) (prior.map (·.1)) with
  | ok plans =>
    obtain ⟨report, hreport⟩ := h.report_of_plan hplan
    rw [hreport] at hr
    cases hr
  | error err' =>
    obtain ⟨-, rfl⟩ := h.of_plan_error hplan
    cases hr
    rfl

theorem Goes.concluded (h : (ofSettings settings).Goes stamp prior stages s ms e)
    (hr : e.report = .ok report) :
    ∃ plans, plan (stages.map Stage.jobs) (prior.map (·.1)) = .ok plans ∧
      Concluded settings prior s.host.interrupted stages ms e report := by
  obtain ⟨plans, hplan⟩ := h.plan_of_report hr
  obtain ⟨report', hc⟩ := ((goes_of_plan hplan).mp h).concluded hplan
  have hsame : report' = report := Except.ok.inj (hc.ended.symm.trans hr)
  exact ⟨plans, hplan, hsame ▸ hc⟩

theorem Goes.lasting {P : List Moment → Session → Prop}
    (hP : Lasting r.settings (stages.flatMap (·.actions)) P)
    (h : r.Goes stamp prior stages s ms e) (hp : P [] s) : P ms e.session := by
  cases hplan : plan (stages.map Stage.jobs) (prior.map (·.1)) with
  | error err =>
    obtain ⟨rfl, rfl⟩ := h.of_plan_error hplan
    exact hp
  | ok plans => exact Runs.lasting hP ((goes_of_plan hplan).mp h) hp

theorem Goes.ran_mem (h : r.Goes stamp prior stages s ms e) {a : Action} {t : Session}
    (ha : .ran a t ∈ ms) : a ∈ stages.flatMap (·.actions) := by
  refine h.lasting (.of_ran r.settings _) ?_ a t ha
  intro a t hnil
  cases hnil

end Runner

/-! ### What the second run knows -/

theorem Levels.mem_ofReports {report : Report} {d : String} {l : Level} :
    (d, l) ∈ Levels.ofReports [report] ↔
      ∃ entry ∈ report.entries, entry.action = d ∧ entry.result.level = l := by
  simp [ofReports]

namespace Concluded

variable {settings : Settings} {prior : Levels} {raised : Bool} {stages : List Stage}
  {ms : List Moment} {e : RunEnd} {report : Report}

theorem known_iff (h : Concluded settings prior raised stages ms e report) (d : String) :
    d ∈ (Levels.ofReports [report]).map (·.1) ↔ d ∈ (workIn stages).map (·.2.id) := by
  rw [← (ids_perm_of_names h.names).mem_iff]
  simp [Levels.ofReports]

theorem plan_next (h : Concluded settings prior raised stages ms e report)
    (next : List JobStage) : plan next ((Levels.ofReports [report]).map (·.1)) =
      plan next ((workIn stages).map (·.2.id)) := plan_congr h.known_iff next

theorem disjoint_next {raised' : Bool} {next : List Stage} {ns : List Moment} {e' : RunEnd}
    {later : Report} (h : Concluded settings prior raised stages ms e report)
    (h' : Concluded settings (Levels.ofReports [report]) raised' next ns e' later) {id : String}
    (hid : id ∈ (workIn stages).map (·.2.id)) : id ∉ (workIn next).map (·.2.id) := by
  intro hnext
  obtain ⟨w, hw, rfl⟩ := List.mem_map.mp hnext
  obtain ⟨entry, he, hhandled⟩ := h'.handled w hw
  apply h'.fresh entry he
  rw [hhandled.action_eq]
  exact (h.known_iff _).mpr hid

/-- Where this run was clear, nothing that a next run knows blocks dependents. -/
theorem level_next {plans : List StagePlan} (h : Concluded settings prior raised stages ms e report)
    (hplan : plan (stages.map Stage.jobs) (prior.map (·.1)) = .ok plans)
    (hprior : prior.Free settings.allowOverridable) (hclear : report.isBlocking = false) :
    (Levels.ofReports [report]).Free settings.allowOverridable := by
  intro d l hl
  obtain ⟨entry, he, -, rfl⟩ := Levels.mem_ofReports.mp (Levels.mem_of_level? hl)
  exact h.level_free hplan hprior hclear he

end Concluded

end Changeover
