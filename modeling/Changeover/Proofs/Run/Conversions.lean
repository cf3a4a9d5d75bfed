import Changeover.Conversion
import Changeover.Proofs.Run.Moments

/-!
# Conversions in any order

A conversion can go as its runs can go. The one that the program makes is among them. From the end
of the first run it goes on in one of three ways: there was no plan, what the run has left is rolled
back for one of four reasons, or it is committed.
-/

namespace Changeover

namespace Runner

/-- One way a run over stages can go. Without a plan there is just one. -/
def Goes (r : Runner) (stamp : Stamp) (prior : Levels) (stages : List Stage) (s : Session)
    (ms : List Moment) (e : RunEnd) : Prop :=
  match plan (stages.map Stage.jobs) (prior.map (·.1)) with
  | .error _ => ms = [] ∧ e = r.run stamp prior stages s
  | .ok plans => r.Runs stamp prior (stages.zip plans) s ms e

theorem goes_of_plan {r : Runner} {stamp : Stamp} {prior : Levels} {stages : List Stage}
    {plans : List StagePlan} (h : plan (stages.map Stage.jobs) (prior.map (·.1)) = .ok plans)
    {s : Session} {ms : List Moment} {e : RunEnd} :
    r.Goes stamp prior stages s ms e ↔ r.Runs stamp prior (stages.zip plans) s ms e := by
  rw [Goes, h]

theorem exists_goes (r : Runner) (stamp : Stamp) (prior : Levels) (stages : List Stage)
    (s : Session) : ∃ ms, r.Goes stamp prior stages s ms (r.run stamp prior stages s) := by
  unfold Goes
  cases h : plan (stages.map Stage.jobs) (prior.map (·.1)) with
  | error e => exact ⟨[], rfl, rfl⟩
  | ok plans => exact r.exists_runs stamp prior s h

end Runner

def Session.heard (s : Session) (asked : Bool) (answer : Answer) : Session :=
  { s with
    host := { s.host with interrupted := s.host.interrupted || (asked && answer.interrupts) } }

theorem Session.heard_unasked (s : Session) (answer : Answer) : s.heard false answer = s := by
  simp [heard]

/-- Nothing that a run has left stands in the way. -/
structure RunEnd.Clear (first : RunEnd) (report : Report) : Prop where
  calm : first.session.host.interrupted = false
  free : report.isBlocking = false

theorem RunEnd.clear_iff {first : RunEnd} {report : Report} : first.Clear report ↔
    first.session.host.interrupted = false ∧ report.isBlocking = false :=
  ⟨fun h => ⟨h.calm, h.free⟩, fun h => ⟨h.1, h.2⟩⟩

namespace Conversion

section

variable (site : Site) (r : Runner) (stamps : Stamps) (mode : Mode) (answer : Answer)
  (before after : List Stage) (s : Session)

/-- One way a conversion can go. -/
inductive Goes : List Moment → ConversionEnd → Prop
  | ended {ms : List Moment} {first : RunEnd} {e : ConversionEnd} :
    r.Goes stamps.before [] before s ms first → course site mode answer first = .ended e →
    Goes ms e
  | goOn {ms ns : List Moment} {first last : RunEnd} {report : Report} {s' : Session} :
    r.Goes stamps.before [] before s ms first →
    course site mode answer first = .goOn report s' →
    r.Goes stamps.after (Levels.ofReports [report]) after s' ns last →
    Goes (ms ++ ns) (arrive site first.events report last)

theorem exists_goes : ∃ ms, Goes site r stamps mode answer before after s ms
    (runStages site r stamps mode answer before after s) := by
  obtain ⟨ms, hfirst⟩ := r.exists_goes stamps.before [] before s
  unfold runStages
  simp only
  cases hc : course site mode answer (r.run stamps.before [] before s) with
  | ended e => exact ⟨ms, .ended hfirst hc⟩
  | goOn report s' =>
    obtain ⟨ns, hlast⟩ := r.exists_goes stamps.after (Levels.ofReports [report]) after s'
    exact ⟨ms ++ ns, .goOn hfirst hc hlast⟩

end

variable {site : Site} {r : Runner} {stamps : Stamps} {mode : Mode} {answer : Answer}
  {before after : List Stage} {s : Session} {ms : List Moment} {e : ConversionEnd} {o : Outcome}

theorem arrive_committed {events : List Event} {report : Report} {last : RunEnd}
    (h : (arrive site events report last).outcome = .ok o) : o.committed = true := by
  unfold arrive at h
  cases hl : last.report with
  | error e =>
    rw [hl] at h
    cases h
  | ok later =>
    simp only [hl, Except.ok.injEq] at h
    simp [← h, finish]

/-! ### From the end of the first run -/

/-- Reasons to give up, with the status if every restore goes well and whether the operator was
asked. -/
inductive GivesUp (mode : Mode) (answer : Answer) (first : RunEnd) (report : Report) :
    Status → Bool → Prop
  | interrupted : first.session.host.interrupted = true →
    GivesUp mode answer first report .failure false
  | blocked : first.session.host.interrupted = false → report.isBlocking = true →
    GivesUp mode answer first report .inhibitorsFound false
  | analyzed : first.Clear report → mode = .analyze →
    GivesUp mode answer first report .successful false
  | declined : first.Clear report → mode = .convert → answer.accepts = false →
    GivesUp mode answer first report .failure true

/-- The ways on from the end of the first run. -/
inductive WayOn (site : Site) (mode : Mode) (answer : Answer) (first : RunEnd) : Course → Prop
  | unplanned {err : PlanError} : first.report = .error err →
    WayOn site mode answer first (.ended ⟨.error err, false, first.events, first.session⟩)
  | givesUp {report : Report} {clean : Status} {asked : Bool} : first.report = .ok report →
    GivesUp mode answer first report clean asked →
    WayOn site mode answer first (.ended
      (giveUp site clean asked first.events report (first.session.heard asked answer)))
  | goesOn {report : Report} : first.report = .ok report → first.Clear report →
    mode = .convert → answer.accepts = true →
    WayOn site mode answer first (.goOn report
      ⟨(first.session.heard true answer).host, ⟨[], first.session.undo.failures⟩⟩)

theorem wayOn (site : Site) (mode : Mode) (answer : Answer) (first : RunEnd) :
    WayOn site mode answer first (course site mode answer first) := by
  have hunasked {report : Report} {clean : Status} (hr : first.report = .ok report)
      (hwhy : GivesUp mode answer first report clean false) : WayOn site mode answer first
        (.ended (giveUp site clean false first.events report first.session)) := by
    rw [← first.session.heard_unasked answer]
    exact .givesUp hr hwhy
  unfold course
  cases hr : first.report with
  | error err => exact .unplanned hr
  | ok report =>
    simp only
    split
    · next hi => exact hunasked hr (.interrupted hi)
    · next hi =>
      rw [Bool.not_eq_true] at hi
      split
      · next hb => exact hunasked hr (.blocked hi hb)
      · next hb =>
        rw [Bool.not_eq_true] at hb
        cases mode with
        | analyze => exact hunasked hr (.analyzed ⟨hi, hb⟩ rfl)
        | convert =>
          simp only
          split
          · next ha => exact .goesOn hr ⟨hi, hb⟩ rfl ha
          · next ha =>
            rw [Bool.not_eq_true] at ha
            exact .givesUp hr (.declined ⟨hi, hb⟩ rfl ha)

theorem ended_of_course {first : RunEnd} (h : course site mode answer first = .ended e) :
    (∃ err, first.report = .error err ∧
        e = ⟨.error err, false, first.events, first.session⟩) ∨
      ∃ report clean asked, first.report = .ok report ∧
        GivesUp mode answer first report clean asked ∧
        e = giveUp site clean asked first.events report (first.session.heard asked answer) := by
  have hway := wayOn site mode answer first
  rw [h] at hway
  generalize hend : Course.ended e = c at hway
  cases hway with
  | unplanned hr => exact .inl ⟨_, hr, Course.ended.inj hend⟩
  | givesUp hr hwhy => exact .inr ⟨_, _, _, hr, hwhy, Course.ended.inj hend⟩
  | goesOn _ _ _ _ => cases hend

/-- A conversion goes on only past a clear run, with a commit that was agreed to. -/
theorem goOn_of_course {first : RunEnd} {report : Report} {s : Session}
    (h : course site mode answer first = .goOn report s) :
    first.report = .ok report ∧ first.Clear report ∧ mode = .convert ∧ answer.accepts = true ∧
      s = ⟨(first.session.heard true answer).host, ⟨[], first.session.undo.failures⟩⟩ := by
  have hway := wayOn site mode answer first
  rw [h] at hway
  cases hway with
  | goesOn hr hc hm ha => exact ⟨hr, hc, hm, ha, rfl⟩

/-- A conversion that has not committed has rolled back what its first run left. -/
theorem Goes.rolls_back (h : Goes site r stamps mode answer before after s ms e)
    (ho : e.outcome = .ok o) (hc : o.committed = false) :
    ∃ first clean asked report s', r.Goes stamps.before [] before s ms first ∧
      course site mode answer first = .ended e ∧
      e = giveUp site clean asked first.events report s' ∧ s'.undo = first.session.undo ∧
        ∃ i, s'.host = { first.session.host with interrupted := i } := by
  cases h with
  | ended hfirst hcourse =>
    rcases ended_of_course hcourse with ⟨err, -, rfl⟩ | ⟨report, clean, asked, -, -, he⟩
    · cases ho
    · exact ⟨_, clean, asked, report, _, hfirst, hcourse, he, rfl, _, rfl⟩
  | goOn _ _ _ =>
    rw [arrive_committed ho] at hc
    cases hc

theorem course_analyze (site : Site) (answer : Answer) {first : RunEnd} {report : Report}
    (h : first.report = .ok report) :
    ∃ clean, course site .analyze answer first =
      .ended (giveUp site clean false first.events report first.session) := by
  unfold course
  simp only [h]
  split
  · exact ⟨_, rfl⟩
  · split
    · exact ⟨_, rfl⟩
    · exact ⟨_, rfl⟩

theorem giveUp_committed (site : Site) (clean : Status) (asked : Bool) (events : List Event)
    (report : Report) (s : Session) :
    ∃ o, (giveUp site clean asked events report s).outcome = .ok o ∧ o.committed = false := by
  rcases hpop : s.undo.popAll s.host with ⟨restored, undo, host⟩
  simp [giveUp, rollback, finish, hpop]

theorem analyze_committed {before : List Stage} {plans : List StagePlan}
    (h : plan (before.map Stage.jobs) [] = .ok plans) (site : Site) (r : Runner) (stamps : Stamps)
    (answer : Answer) (after : List Stage) (s : Session) :
    ∃ o, (runStages site r stamps .analyze answer before after s).outcome = .ok o ∧
      o.committed = false := by
  have hreport : ∃ report, (r.run stamps.before [] before s).report = .ok report := by
    simp only [Runner.run, List.map_nil, h]
    exact ⟨_, rfl⟩
  unfold runStages
  simp only
  generalize r.run stamps.before [] before s = first at hreport
  obtain ⟨report, hreport⟩ := hreport
  obtain ⟨clean, hcourse⟩ := course_analyze site answer hreport
  rw [hcourse]
  exact giveUp_committed site clean false _ _ _

end Conversion

end Changeover
