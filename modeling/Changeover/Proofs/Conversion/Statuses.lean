import Changeover.Proofs.Conversion.Phases

/-!
# Failed restores and the status

What goes wrong at a restore is written down for good: whichever action has caused it, in either
run, it is in the outcome, and the report has an entry about it. If the conversion has rolled back
it is a failure. If it has committed, the status only tells how the second run has ended.
-/

namespace Changeover

/-! ### Failures are kept -/

section

variable {C W : Type} [Reversible C W]

theorem UndoOp.failures_apply (o : UndoOp C) (s : UndoStack C × W) :
    s.1.failures <+: (o.apply s).1.failures := by
  obtain ⟨s, w⟩ := s
  cases o with
  | push c =>
    simp only [apply, UndoStack.push]
    split
    · exact List.prefix_refl _
    · exact List.prefix_refl _
  | marker => exact List.prefix_refl _
  | pop =>
    simp only [apply, UndoStack.pop]
    split
    · exact List.prefix_append _ _
    · exact List.prefix_refl _
  | popAll =>
    simp only [apply]
    rw [(s.popAll_restores w).2]
    exact List.prefix_append _ _
  | popPhase =>
    simp only [apply, UndoStack.popPhase]
    split
    · exact List.prefix_refl _
    · exact List.prefix_append _ _
  | commit => exact List.prefix_refl _

theorem StackUse.failures_uses (uses : List (StackUse C W)) (s : UndoStack C × W) :
    s.1.failures <+: (uses.foldl StackUse.apply s).1.failures := by
  induction uses generalizing s with
  | nil => exact List.prefix_refl _
  | cons u us ih =>
    refine List.IsPrefix.trans ?_ (ih (u.apply s))
    cases u with
    | op o => exact o.failures_apply s
    | world w => exact List.prefix_refl _

end

theorem UsedFrom.failures {u u' : UndoStack Change} {h h' : Host} (hu : UsedFrom u h u' h') :
    u.failures <+: u'.failures := by
  obtain ⟨uses, heq⟩ := hu
  have hkept := StackUse.failures_uses uses (u, h)
  rw [heq] at hkept
  exact hkept

/-- What stood in the list of failures after any call of an action is still there. -/
def Remembered (settings : Settings) (ms : List Moment) (u : UndoStack Change) : Prop :=
  ∀ a t, .ran a t ∈ ms → (perform settings a t).2.undo.failures <+: u.failures

theorem Remembered.nil (settings : Settings) (u : UndoStack Change) :
    Remembered settings [] u := by
  intro a t ha
  cases ha

theorem Remembered.mono {settings : Settings} {ms : List Moment} {u u' : UndoStack Change}
    (hu : Remembered settings ms u) (hkept : u.failures <+: u'.failures) :
    Remembered settings ms u' := fun a t ha => (hu a t ha).trans hkept

theorem Remembered.append {settings : Settings} {ms ns : List Moment} {u : UndoStack Change}
    (hms : Remembered settings ms u) (hns : Remembered settings ns u) :
    Remembered settings (ms ++ ns) u := by
  intro a t ha
  rcases List.mem_append.mp ha with ha | ha
  · exact hms a t ha
  · exact hns a t ha

theorem Remembered.lasting {settings : Settings} {as : List Action}
    (has : ∀ a ∈ as, a.UsesStack) :
    Lasting settings as fun ms s => Remembered settings ms s.undo := by
  have hquiet {ms : List Moment} {u : UndoStack Change} {m : Moment} (hm : ∀ a t, .ran a t ≠ m)
      (hu : Remembered settings ms u) : Remembered settings (ms ++ [m]) u := by
    apply hu.append
    intro a t ha
    exact absurd (List.mem_singleton.mp ha) (hm a t)
  constructor
  case raise => exact hquiet nofun
  case marker => exact fun hs => hs
  case turn => exact fun _ => hquiet nofun
  case recorded => exact fun _ => hquiet nofun
  case ran =>
    intro ms s a ha hs
    have hused : UsedFrom s.undo s.host (perform settings a s).2.undo
        (perform settings a s).2.host := (has a ha).perform (.refl s.undo s.host)
    apply (hs.mono hused.failures).append
    intro b t hb
    cases List.mem_singleton.mp hb
    exact List.prefix_refl _

theorem Status.code_eq_one_iff {status : Status} : status.code = 1 ↔ status = .failure := by
  cases status with
  | successful => decide
  | failure => decide
  | inhibitorsFound => decide

namespace Conversion

variable {site : Site} {r : Runner} {stamps : Stamps} {mode : Mode} {answer : Answer}
  {before after : List Stage} {s s' : Session} {ms ns : List Moment} {first last : RunEnd}
  {report later : Report} {e : ConversionEnd} {o : Outcome}

theorem mem_rollbackEntries {failures : List String} (h : failures ≠ []) :
    rollbackEntry failures ∈ rollbackEntries failures := by
  rw [rollbackEntries, if_neg h]
  exact List.mem_singleton_self _

theorem RolledBack.failure_of_failures (h : RolledBack site mode answer before ms first report e o)
    (hfailures : o.rollbackFailures ≠ []) : o.status = .failure := by
  rw [h.failure_iff]
  exact ⟨fun hs => hfailures hs.2.2, fun hs => hfailures hs.2.2⟩

theorem Committed.status_cases
    (h : Committed site mode answer before after ms ns first last report later e o) :
    last.Clear later ∧ o.status = .successful ∧ o.status.code = 0 ∨
      ¬ last.Clear later ∧ o.status = .failure ∧ o.status.code = 1 := by
  by_cases hc : last.Clear later
  · have hstatus := h.successful.mpr hc
    exact .inl ⟨hc, hstatus, by rw [hstatus]; rfl⟩
  · have hstatus := h.failure_iff.mpr hc
    exact .inr ⟨hc, hstatus, Status.code_eq_one_iff.mpr hstatus⟩

theorem remembered_of_giveUp {clean : Status} {asked : Bool}
    (hgoes : r.Goes stamps.before [] before s ms first)
    (he : e = giveUp site clean asked first.events report (first.session.heard asked answer))
    (ho : e.outcome = .ok o) (hstack : ∀ a ∈ before.flatMap (·.actions), a.UsesStack) :
    ∀ a t, .ran a t ∈ ms → (perform r.settings a t).2.undo.failures <+: o.rollbackFailures := by
  have hremembered := hgoes.lasting (Remembered.lasting hstack) (.nil _ _)
  obtain ⟨-, -, hfinished⟩ := giveUp_finished he ho
  rw [hfinished.failures]
  apply hremembered.mono
  rw [undone, (UndoStack.popAll_restores _ _).2]
  exact List.prefix_append _ _

theorem remembered_of_goOn (hfirst : r.Goes stamps.before [] before s ms first)
    (hcourse : course site mode answer first = .goOn report s')
    (hlast : r.Goes stamps.after (Levels.ofReports [report]) after s' ns last)
    (hcommitted : Committed site mode answer before after ms ns first last report later e o)
    (hstack : ∀ a ∈ (before ++ after).flatMap (·.actions), a.UsesStack) :
    ∀ a t, .ran a t ∈ ms ++ ns →
      (perform r.settings a t).2.undo.failures <+: o.rollbackFailures := by
  simp only [List.flatMap_append, List.forall_mem_append] at hstack
  obtain ⟨hbefore, hafter⟩ := hstack
  obtain ⟨-, -, -, -, rfl⟩ := goOn_of_course hcourse
  have hfirsts := hfirst.lasting (Remembered.lasting hbefore) (.nil _ _)
  have hlasts := hlast.lasting (Remembered.lasting hafter) (.nil _ _)
  -- the commit empties the stack and keeps the failures
  have hused := hlast.lasting (UsedFrom.lasting hafter _ _) (UsedFrom.refl _ _)
  rw [hcommitted.failures, hcommitted.undo]
  exact (hfirsts.mono hused.failures).append hlasts

/-- Failures to restore are all in the outcome, and in the report. After a rollback they make the
conversion a failure; after a commit the status is that of the second run. -/
theorem status_of_rollbackFailures (site : Site) (r : Runner) (stamps : Stamps) (mode : Mode)
    (answer : Answer) (before after : List Stage) (s : Session) :
    (∃ ms, Goes site r stamps mode answer before after s ms
      (runStages site r stamps mode answer before after s)) ∧
    ∀ ms e o, Goes site r stamps mode answer before after s ms e → e.outcome = .ok o →
      ((∀ a ∈ (before ++ after).flatMap (·.actions), a.UsesStack) → ∀ a t, .ran a t ∈ ms →
        (perform r.settings a t).2.undo.failures <+: o.rollbackFailures) ∧
      (o.rollbackFailures ≠ [] → rollbackEntry o.rollbackFailures ∈ o.report.entries ∧
        (o.rolledBack = true ∧ o.committed = false ∧ o.status = .failure ∧ o.status.code = 1 ∨
          ∃ ms₁ ns first last report later, ms = ms₁ ++ ns ∧
            r.Goes stamps.before [] before s ms₁ first ∧
            r.Goes stamps.after (Levels.ofReports [report]) after
              ⟨(first.session.heard true answer).host, ⟨[], first.session.undo.failures⟩⟩ ns last ∧
            last.report = .ok later ∧ o.rolledBack = false ∧ o.committed = true ∧
            (last.Clear later ∧ o.status = .successful ∧ o.status.code = 0 ∨
              ¬ last.Clear later ∧ o.status = .failure ∧ o.status.code = 1))) := by
  refine ⟨exists_goes .., ?_⟩
  intro ms e o hgoes ho
  cases hgoes with
  | @ended _ first _ hfirst hcourse =>
    rcases ended_of_course hcourse with ⟨err, -, rfl⟩ | ⟨report, clean, asked, hr, hwhy, he⟩
    · cases ho
    · have hrolled := rolledBack_of_giveUp hfirst hwhy he ho
      constructor
      · intro hstack
        refine remembered_of_giveUp hfirst he ho ?_
        intro a ha
        apply hstack
        rw [List.flatMap_append]
        exact List.mem_append_left _ ha
      · intro hfailures
        have hstatus := hrolled.failure_of_failures hfailures
        constructor
        · rw [hrolled.entries]
          exact List.mem_append_right _ (mem_rollbackEntries hfailures)
        · exact .inl ⟨hrolled.flags.1, hrolled.flags.2, hstatus,
            Status.code_eq_one_iff.mpr hstatus⟩
  | @goOn ms₁ ns first last report s' hfirst hcourse hlast =>
    obtain ⟨later, hl, hcommitted⟩ := committed_of_course hfirst hcourse hlast rfl ho
    constructor
    · exact remembered_of_goOn hfirst hcourse hlast hcommitted
    · intro hfailures
      obtain ⟨hr, -, -, -, rfl⟩ := goOn_of_course hcourse
      constructor
      · rw [hcommitted.entries]
        exact List.mem_append_right _ (mem_rollbackEntries hfailures)
      · refine .inr ⟨ms₁, ns, first, last, report, later, rfl, hfirst, hlast, hl,
          hcommitted.flags.1, hcommitted.flags.2, hcommitted.status_cases⟩

def stickyStages : List Stage :=
  [⟨"before", [rehearsedAction "attempt" [] [] [
    .push (.rehearsed { name := "sticky", onRestore := some (.failed ⟨"cannot undo", []⟩) }),
    .pop]]⟩]

def stickyRun : RunEnd := (Runner.ofSettings {}).run rehearsalStamps.before [] stickyStages {}

def stickyReport : Report := stickyRun.report.toOption.getD default

/-- Nothing is left to be rolled back at the end of an analysis, and yet it is a failure. -/
theorem status_of_rollbackFailures_analysis : ∃ ms e o,
    Goes { manager := .ledger {} } (.ofSettings {}) rehearsalStamps .analyze ⟨false, false⟩
      stickyStages [] {} ms e ∧
    e.outcome = .ok o ∧ o.rollbackFailures = ["sticky: cannot undo"] ∧ o.status = .failure ∧
      rollbackEntry ["sticky: cannot undo"] ∈ o.report.entries := by
  obtain ⟨ms, hfirst⟩ :=
    (Runner.ofSettings {}).exists_goes rehearsalStamps.before [] stickyStages {}
  have hcourse : course { manager := .ledger {} } .analyze ⟨false, false⟩ stickyRun =
      .ended (giveUp { manager := .ledger {} } .successful false stickyRun.events stickyReport
        stickyRun.session) := rfl
  have hgoes : Goes _ (.ofSettings {}) rehearsalStamps _ _ stickyStages [] {} ms _ :=
    .ended hfirst hcourse
  obtain ⟨o, ho, hnot⟩ := giveUp_committed { manager := .ledger {} } .successful false
    stickyRun.events stickyReport stickyRun.session
  obtain ⟨-, -, hfinished⟩ := giveUp_finished rfl ho
  have hfailures : o.rollbackFailures = ["sticky: cannot undo"] := hfinished.failures
  have hne : o.rollbackFailures ≠ [] := by simp [hfailures]
  obtain ⟨hentry, hstatus⟩ := ((status_of_rollbackFailures _ _ _ _ _ _ _ _).2 ms _ o hgoes ho).2 hne
  rw [hfailures] at hentry
  refine ⟨ms, _, o, hgoes, ho, hfailures, ?_, hentry⟩
  rcases hstatus with ⟨-, -, hstatus, -⟩ | ⟨_, _, _, _, _, _, -, -, -, -, -, hc, -⟩
  · exact hstatus
  · rw [hnot] at hc
    cases hc

/-- A conversion that could not restore a change, and says that it was successful. -/
theorem successful_with_rollbackFailure : ∃ (e : ConversionEnd) (o : Outcome),
    e = runStages { manager := .ledger {} } (.ofSettings {}) rehearsalStamps .convert
      ⟨true, false⟩ stickyStages [] {} ∧
    e.outcome = .ok o ∧ o.rollbackFailures = ["sticky: cannot undo"] ∧ o.committed = true ∧
      o.status = .successful ∧ o.status.code = 0 := by
  obtain ⟨last, hlast⟩ : ∃ last, last =
      (Runner.ofSettings {}).run rehearsalStamps.after (Levels.ofReports [stickyReport]) []
        ⟨stickyRun.session.host, ⟨[], stickyRun.session.undo.failures⟩⟩ := ⟨_, rfl⟩
  obtain ⟨later, hl, hb⟩ : ∃ later, last.report = .ok later ∧
      (later.isBlocking || last.session.host.interrupted) = false := by
    rw [hlast]
    exact ⟨_, rfl, rfl⟩
  obtain ⟨o, ho⟩ : ∃ o,
      (arrive { manager := .ledger {} } stickyRun.events stickyReport last).outcome = .ok o :=
    arrive_of_ok hl
  obtain ⟨-, hstatus, hfinished⟩ := arrive_finished hl rfl ho
  rw [hb] at hstatus
  refine ⟨_, o, ?_, ho, ?_, hfinished.committed, hstatus, ?_⟩
  · rw [hlast]
    rfl
  · rw [hfinished.failures, hlast]
    rfl
  · rw [hstatus]
    rfl

end Conversion

end Changeover
