import Changeover.Proofs.Conversion.Errors

/-!
# Interrupts before the commit

An interrupt that is raised at any moment of the first run makes a conversion roll back and fail.
Once that run is over nobody looks for it again before the commit. Raised while the operator is
asked, it does not take the place of the answer: who agrees gets the commit, and only the second run
sees the interrupt and runs nothing.
-/

namespace Changeover

/-! ### Runs that start interrupted -/

section

variable {settings : Settings} {r : Runner} {stamp : Stamp} {prior : Levels} {stages : List Stage}
  {s : Session} {ms : List Moment} {e : RunEnd} {report : Report}

theorem mem_runsOf {a : Action} {t : Session} (h : .ran a t ∈ ms) : t ∈ runsOf a.id ms :=
  List.mem_filterMap.mpr ⟨_, h, if_pos rfl⟩

theorem Handled.of_raised {levels : Levels} {stage : String} {a : Action} {entry : ReportEntry}
    (h : Handled settings levels true stage a ms entry) :
    runsOf a.id ms = [] ∧ entry.result = interruptedResult := by
  cases h with
  | interrupted _ _ hruns he _ => exact ⟨hruns, by rw [he]⟩
  | skipped _ hr _ _ _ _ _ => cases hr
  | ran _ hr _ _ _ _ _ _ => cases hr

namespace Concluded

theorem idle (h : Concluded settings prior true stages ms e report) :
    ∀ a t, .ran a t ∉ ms := by
  intro a t ha
  have hmem := mem_runsOf ha
  by_cases hid : a.id ∈ (workIn stages).map (·.2.id)
  · obtain ⟨w, hw, heq⟩ := List.mem_map.mp hid
    obtain ⟨entry, -, hhandled⟩ := h.handled w hw
    rw [← heq, hhandled.of_raised.1] at hmem
    cases hmem
  · rw [h.strangers _ hid] at hmem
    cases hmem

theorem interrupted_of_raised (h : Concluded settings prior true stages ms e report) :
    ∀ entry ∈ report.entries, entry.result = interruptedResult := by
  intro entry he
  obtain ⟨w, -, hhandled⟩ := h.entry_handled he
  exact hhandled.of_raised.2

end Concluded

namespace Runner.Goes

theorem idle (h : (ofSettings settings).Goes stamp prior stages s ms e)
    (hs : s.host.interrupted = true) : ∀ a t, .ran a t ∉ ms := by
  cases hr : e.report with
  | error err =>
    obtain ⟨rfl, -⟩ := h.of_plan_error (h.plan_of_error hr)
    intro a t ha
    cases ha
  | ok report =>
    obtain ⟨-, -, hc⟩ := h.concluded hr
    rw [hs] at hc
    exact hc.idle

theorem host_of_idle (h : r.Goes stamp prior stages s ms e) (hs : s.host.interrupted = true)
    (hidle : ∀ a t, .ran a t ∉ ms) : e.session.host = s.host := by
  have hlasting : Lasting r.settings (stages.flatMap (·.actions))
      fun ms t => (∀ a t, .ran a t ∉ ms) → t.host = s.host := by
    have hless {ms : List Moment} {m : Moment} (h : ∀ a t, .ran a t ∉ ms ++ [m]) :
        ∀ a t, .ran a t ∉ ms := fun a t ha => h a t (List.mem_append_left _ ha)
    constructor
    case raise =>
      intro ms t hp hms
      rw [hp (hless hms), ← hs]
    case marker => exact fun hp => hp
    case turn => exact fun _ hp hms => hp (hless hms)
    case recorded => exact fun _ hp hms => hp (hless hms)
    case ran =>
      intro ms t a _ _ hms
      exact absurd (List.mem_append_right _ (List.mem_singleton_self _)) (hms a t)
  exact h.lasting hlasting (fun _ => rfl) hidle

end Runner.Goes

end

namespace Conversion

/-- The commit is made while an interrupt is pending. Nothing is run after it. -/
structure Overridden (site : Site) (settings : Settings) (stamps : Stamps) (mode : Mode)
    (answer : Answer) (after : List Stage) (ns : List Moment) (first last : RunEnd)
    (report : Report) (e : ConversionEnd) : Prop where
  accepted : mode = .convert ∧ answer.accepts = true ∧ first.Clear report
  goes : (Runner.ofSettings settings).Goes stamps.after (Levels.ofReports [report]) after
    ⟨(first.session.heard true answer).host, ⟨[], first.session.undo.failures⟩⟩ ns last
  ended : e = arrive site first.events report last
  idle : ∀ a t, .ran a t ∉ ns
  /-- No change is taken back. -/
  host : last.session.host = (first.session.heard true answer).host
  entries : ∀ later, last.report = .ok later →
    ∀ entry ∈ later.entries, entry.result = interruptedResult
  outcome : ∀ o, e.outcome = .ok o → o.committed = true ∧ o.status = .failure

variable {site : Site} {settings : Settings} {stamps : Stamps} {mode : Mode} {answer : Answer}
  {before after : List Stage} {s s' : Session} {ms ns : List Moment} {first last : RunEnd}
  {report : Report} {e : ConversionEnd} {o : Outcome}

theorem RolledBack.failure (h : RolledBack site mode answer before ms first report e o)
    (hpending : first.session.host.interrupted = true ∨ e.asked = true) :
    o.status = .failure := by
  rw [h.failure_iff]
  constructor
  · rintro ⟨hm, hc, -⟩
    rcases hpending with hi | hasked
    · rw [hc.calm] at hi
      cases hi
    · rw [(h.asked.mp hasked).1] at hm
      cases hm
  · rintro ⟨hcalm, hb, -⟩
    rcases hpending with hi | hasked
    · rw [hcalm] at hi
      cases hi
    · rw [(h.asked.mp hasked).2.free] at hb
      cases hb

theorem overridden_of_course
    (hfirst : (Runner.ofSettings settings).Goes stamps.before [] before s ms first)
    (hcourse : course site mode answer first = .goOn report s')
    (hlast : (Runner.ofSettings settings).Goes stamps.after (Levels.ofReports [report]) after s' ns
      last) (hi : answer.interrupts = true) :
    Overridden site settings stamps mode answer after ns first last report
      (arrive site first.events report last) := by
  obtain ⟨-, hc, hm, ha, rfl⟩ := goOn_of_course hcourse
  have hraised : (first.session.heard true answer).host.interrupted = true := by
    simp [Session.heard, hi]
  have hidle := hlast.idle hraised
  have hhost := hlast.host_of_idle hraised hidle
  refine ⟨⟨hm, ha, hc⟩, hlast, rfl, hidle, hhost, ?_, ?_⟩
  · intro later hl
    obtain ⟨-, -, hconcluded⟩ := hlast.concluded hl
    rw [hraised] at hconcluded
    exact hconcluded.interrupted_of_raised
  · intro o ho
    obtain ⟨later, -, hcommitted⟩ := committed_of_course hfirst hcourse hlast rfl ho
    refine ⟨hcommitted.flags.2, ?_⟩
    rw [hcommitted.failure_iff]
    intro hc
    have hcalm := hc.calm
    rw [hhost, hraised] at hcalm
    cases hcalm

theorem arrive_asked (site : Site) (events : List Event) (report : Report) (last : RunEnd) :
    (arrive site events report last).asked = true := by
  cases hl : last.report with
  | error err => rw [arrive_of_error hl]
  | ok later =>
    obtain ⟨o, ho⟩ := arrive_of_ok hl
    exact (arrive_finished hl rfl ho).1

/-- Whenever an interrupt is raised before the commit, the conversion rolls back and fails, unless
the operator is asked and agrees; then it commits, runs nothing more, and fails. -/
theorem interrupted_before_commit (site : Site) (settings : Settings) (stamps : Stamps)
    (mode : Mode) (answer : Answer) (before after : List Stage) (s : Session) :
    (∃ ms, Goes site (.ofSettings settings) stamps mode answer before after s ms
      (runStages site (.ofSettings settings) stamps mode answer before after s)) ∧
    ∀ ms e, Goes site (.ofSettings settings) stamps mode answer before after s ms e →
      (∃ err, FailedAtOnce stamps before s ms e err) ∨ ∃ ms₁ first report,
        (Runner.ofSettings settings).Goes stamps.before [] before s ms₁ first ∧
        first.report = .ok report ∧
        (raisedBy settings s.host.interrupted ms₁ = true ∨
            e.asked = true ∧ answer.interrupts = true →
          (¬ (e.asked = true ∧ answer.accepts = true) → ms = ms₁ ∧ ∃ o, e.outcome = .ok o ∧
            o.status = .failure ∧ RolledBack site mode answer before ms first report e o) ∧
          (e.asked = true ∧ answer.accepts = true → ∃ ns last, ms = ms₁ ++ ns ∧
            Overridden site settings stamps mode answer after ns first last report e)) := by
  refine ⟨exists_goes .., ?_⟩
  intro ms e hgoes
  cases hgoes with
  | @ended _ first _ hfirst hcourse =>
    rcases ended_of_course hcourse with ⟨err, hr, he⟩ | ⟨report, clean, asked, hr, hwhy, he⟩
    · exact .inl ⟨err, failedAtOnce_of_goes hfirst hr he⟩
    · obtain ⟨o, ho, -⟩ := giveUp_committed site clean asked first.events report
        (first.session.heard asked answer)
      rw [← he] at ho
      have hrolled := rolledBack_of_giveUp hfirst hwhy he ho
      obtain ⟨-, -, hconcluded⟩ := hfirst.concluded hr
      refine .inr ⟨ms, first, report, hfirst, hr, ?_⟩
      intro hpending
      constructor
      · intro _
        refine ⟨rfl, o, ho, hrolled.failure ?_, hrolled⟩
        rw [hconcluded.interrupted]
        exact hpending.imp_right And.left
      · rintro ⟨hasked, haccepts⟩
        rw [hrolled.declined hasked] at haccepts
        cases haccepts
  | @goOn ms₁ ns first last report s' hfirst hcourse hlast =>
    obtain ⟨hr, hc, -, haccepts, -⟩ := goOn_of_course hcourse
    obtain ⟨-, -, hconcluded⟩ := hfirst.concluded hr
    refine .inr ⟨ms₁, first, report, hfirst, hr, ?_⟩
    intro hpending
    constructor
    · intro hnot
      exact absurd ⟨arrive_asked .., haccepts⟩ hnot
    · intro _
      -- a clear run was not interrupted on its way, so it was while the operator was asked
      rcases hpending with hraised | ⟨-, hi⟩
      · rw [← hconcluded.interrupted, hc.calm] at hraised
        cases hraised
      · exact ⟨ns, last, rfl, overridden_of_course hfirst hcourse hlast hi⟩

/-- The operator asks to stop and declines. -/
theorem interrupted_before_commit_declined : ∃ ms e o,
    Goes { manager := .ledger {} } (.ofSettings {}) rehearsalStamps .convert ⟨false, true⟩
      keptStages draftStages {} ms e ∧
    e.asked = true ∧ e.outcome = .ok o ∧ o.status = .failure ∧ o.committed = false ∧
      e.session.undo.entries = [] := by
  obtain ⟨ms, hfirst⟩ :=
    (Runner.ofSettings {}).exists_goes rehearsalStamps.before [] keptStages {}
  have hcourse : course { manager := .ledger {} } .convert ⟨false, true⟩ keptRun =
      .ended (giveUp { manager := .ledger {} } .failure true keptRun.events keptReport
        (keptRun.session.heard true ⟨false, true⟩)) := rfl
  have hgoes : Goes _ (.ofSettings {}) rehearsalStamps _ _ keptStages draftStages {} ms _ :=
    .ended hfirst hcourse
  have hasked : (giveUp { manager := .ledger {} } .failure true keptRun.events keptReport
      (keptRun.session.heard true ⟨false, true⟩)).asked = true := by rw [giveUp_eq]
  rcases (interrupted_before_commit _ _ _ _ _ _ _ _).2 ms _ hgoes with
    ⟨err, hfailed⟩ | ⟨ms₁, first, report, -, -, hends⟩
  · cases hfailed.unplanned
  · obtain ⟨-, o, ho, hstatus, hrolled⟩ := (hends (.inr ⟨hasked, rfl⟩)).1 (by simp)
    exact ⟨ms, _, o, hgoes, hasked, ho, hstatus, hrolled.flags.2, hrolled.emptied⟩

/-- Who asks to stop and then agrees gets the commit: the change stays, and it is forgotten. -/
theorem interrupt_at_prompt_commits : ∃ (e : ConversionEnd) (o : Outcome),
    e = runStages { manager := .ledger {} } (.ofSettings {}) rehearsalStamps .convert ⟨true, true⟩
      keptStages draftStages {} ∧
    e.asked = true ∧ e.outcome = .ok o ∧ o.committed = true ∧ o.rolledBack = false ∧
      e.session.host.interrupted = true ∧
      e.session.host.journal = ["run:edit", "enable:kept"] := by
  obtain ⟨last, hlast⟩ : ∃ last, last =
      (Runner.ofSettings {}).run rehearsalStamps.after (Levels.ofReports [keptReport]) draftStages
        ⟨(keptRun.session.heard true ⟨true, true⟩).host, ⟨[], []⟩⟩ := ⟨_, rfl⟩
  obtain ⟨later, hl⟩ : ∃ later, last.report = .ok later := by
    rw [hlast]
    exact ⟨_, rfl⟩
  obtain ⟨o, ho⟩ : ∃ o, (arrive { manager := .ledger {} } keptRun.events keptReport last).outcome =
      .ok o := arrive_of_ok hl
  obtain ⟨hasked, -, hfinished⟩ := arrive_finished hl rfl ho
  refine ⟨_, o, ?_, hasked, ho, hfinished.committed, hfinished.rolledBack, ?_, ?_⟩
  · rw [hlast]
    rfl
  · rw [hfinished.host, hlast]
    rfl
  · rw [hfinished.host, hlast]
    rfl

end Conversion

end Changeover
