import Changeover.Proofs.Run.Modes

/-!
# Runs that allow overridable findings

An operator who allows overridable findings only lets more happen. What ends without being skipped
in a run that does not allow them ends in the same way in a run that does, by induction along
dependencies. The other run does more, and what it does more may fail, so that it may block as well;
but then the strict run had skipped something, and so it had blocked before.
-/

namespace Changeover

/-- An action that comes to the same in every session and under all settings, and does not ask to
stop. -/
structure Action.Impartial (a : Action) : Prop where
  fixed : ∃ d, ∀ settings, a.Fixed settings d
  calm : ∀ settings s, s.host.interrupted = false →
    (perform settings a s).2.host.interrupted = false

theorem Action.Impartial.steady {a : Action} (h : a.Impartial) (allow : Bool) : a.Steady allow where
  fixed := by
    obtain ⟨d, hd⟩ := h.fixed
    exact ⟨d, fun parallel => hd ⟨allow, parallel⟩⟩
  calm parallel := h.calm ⟨allow, parallel⟩

theorem Action.Impartial.of_perform {a : Action} {ending : Except (Stop Fault) Unit} {t : Tracker}
    (h : ∀ settings (s : Session),
      (a.run settings).perform { host := s.host, undo := s.undo } =
        (ending, { host := s.host, undo := s.undo, tracker := t })) : a.Impartial where
  fixed := ⟨⟨a.id, ending, t⟩, fun settings s => by rw [perform, h]⟩
  calm settings s hs := by simp [perform, h, Host.noteInterrupt, hs]

theorem Handled.of_runs {settings : Settings} {levels : Levels} {raised : Bool} {stage : String}
    {a : Action} {ms : List Moment} {entry : ReportEntry}
    (h : Handled settings levels raised stage a ms entry) (hruns : runsOf a.id ms ≠ []) :
    entry.result.level ≠ .skip ∧ raised = false := by
  cases h with
  | interrupted _ _ hnone _ _ => exact absurd hnone hruns
  | skipped _ _ _ _ hnone _ _ => exact absurd hnone hruns
  | ran _ hr _ _ _ hend heq _ =>
    rw [heq]
    exact ⟨hend.level_ne_skip, (Bool.or_eq_false_iff.mp hr).1⟩

namespace Concluded

variable {parallel parallel' raised : Bool} {prior : Levels} {stages : List Stage}
  {plans : List StagePlan} {ms ms' : List Moment} {e e' : RunEnd} {report report' : Report}

/-- Whoever is not held back in the strict run is not held back in the other one, if what it
depends on ended in both as it ended in the strict one. -/
theorem blockers_relaxed (h : Concluded ⟨false, parallel⟩ prior raised stages ms e report)
    (h' : Concluded ⟨true, parallel'⟩ prior raised stages ms' e' report') {a : Action}
    {before after before' after' : List Moment} (ht : TurnIn prior a ms before after)
    (ht' : TurnIn prior a ms' before' after')
    (hnone : blockers ⟨false, parallel⟩ (levelsAfter prior before) a = [])
    (hsame : ∀ d ∈ a.dependencies, ∀ l, EndedAt prior report.entries d l → l ≠ .skip →
      EndedAt prior report'.entries d l) :
    blockers ⟨true, parallel'⟩ (levelsAfter prior before') a = [] := by
  rw [List.eq_nil_iff_forall_not_mem]
  intro d hd
  obtain ⟨hdep, l', hl', hb'⟩ := (h'.mem_blockers ht').mp hd
  obtain ⟨l, hl⟩ := ht.known d hdep
  have hend := h.endedAt_of_level? ht.split hl
  have hfree : ¬ l.blocksDependents false = true := by
    intro hb
    have hmem := (h.mem_blockers ht).mpr ⟨hdep, l, hend, hb⟩
    rw [hnone] at hmem
    cases hmem
  have hskip : l ≠ .skip := by
    rintro rfl
    exact hfree rfl
  have heq := h'.endedAt_unique hl' (hsame d hdep l hend hskip)
  exact hfree (Level.blocksDependents_mono (heq ▸ hb'))

theorem mem_entries_relaxed (h : Concluded ⟨false, parallel⟩ prior raised stages ms e report)
    (h' : Concluded ⟨true, parallel'⟩ prior raised stages ms' e' report')
    (hplan : plan (stages.map Stage.jobs) (prior.map (·.1)) = .ok plans)
    (hfixed : ∀ w ∈ workIn stages, ∃ d, ∀ settings, w.2.Fixed settings d)
    (hms : raisedBy ⟨false, parallel⟩ raised ms = raised)
    (hms' : raisedBy ⟨true, parallel'⟩ raised ms' = raised) :
    ∀ entry ∈ report.entries, entry.result.level ≠ .skip → entry ∈ report'.entries := by
  have hall := forall_of_plan hplan (P := fun x => ∀ entry ∈ report.entries,
    entry.action = x → entry.result.level ≠ .skip → entry ∈ report'.entries) ?_ ?_
  · intro entry he
    obtain ⟨w, hw, hhandled⟩ := h.entry_handled he
    exact hall w hw entry he hhandled.action_eq
  · intro x hx entry he hid
    exact absurd (hid ▸ hx) (h.fresh entry he)
  · rintro x ih entry he rfl hskip
    obtain ⟨w, hw, hhandled⟩ := h.entry_handled he
    have hid := hhandled.action_eq
    obtain ⟨d, hd⟩ := hfixed w hw
    obtain ⟨entry', he', hhandled'⟩ := h'.handled w hw
    obtain ⟨_, _, ht, heq⟩ := hhandled.eq_entryAt hms (hd _)
    obtain ⟨_, _, ht', heq'⟩ := hhandled'.eq_entryAt hms' (hd _)
    cases raised with
    | true =>
      -- both runs started interrupted
      rw [show entry = entry' from heq.trans heq'.symm]
      exact he'
    | false =>
      cases hb : blockers ⟨false, parallel⟩ _ w.2 with
      | cons c cs =>
        rw [hb] at heq
        rw [heq] at hskip
        exact absurd rfl hskip
      | nil =>
        have hb' := h.blockers_relaxed h' ht ht' hb ?_
        · rw [hb] at heq
          rw [hb'] at heq'
          rw [show entry = entry' from heq.trans heq'.symm]
          exact he'
        · intro c hc l hl hl'
          cases hl with
          | @here other ho hoc => exact .here (ih c ⟨w, hw, hid.symm, hc⟩ other ho hoc hl') hoc
          | before hp => exact .before hp

theorem runs_relaxed (h : Concluded ⟨false, parallel⟩ prior raised stages ms e report)
    (h' : Concluded ⟨true, parallel'⟩ prior raised stages ms' e' report')
    (hsub : ∀ entry ∈ report.entries, entry.result.level ≠ .skip → entry ∈ report'.entries)
    (hms' : raisedBy ⟨true, parallel'⟩ raised ms' = raised) {w : String × Action}
    (hw : w ∈ workIn stages) (hruns : runsOf w.2.id ms ≠ []) :
    (∃ t, runsOf w.2.id ms' = [t]) ∧ ∃ entry ∈ report.entries, entry.name = (w.1, w.2.id) ∧
      entry ∈ report'.entries := by
  obtain ⟨entry, he, hhandled⟩ := h.handled w hw
  obtain ⟨hskip, hraised⟩ := hhandled.of_runs hruns
  have he' := hsub entry he hskip
  have hname : entry.name = (w.1, w.2.id) := Prod.ext hhandled.stage_eq hhandled.action_eq
  refine ⟨?_, entry, he, hname, he'⟩
  obtain ⟨other, ho, hhandled'⟩ := h'.handled w hw
  have heq : other = entry := List.inj_on_of_nodup_map h'.distinct ho he'
    (hhandled'.action_eq.trans hhandled.action_eq.symm)
  subst heq
  cases hhandled' with
  | interrupted ht hr _ _ _ =>
    rw [ht.raisedBy_eq hms', hraised] at hr
    cases hr
  | skipped _ _ _ _ _ heq _ =>
    rw [heq] at hskip
    exact absurd rfl hskip
  | ran _ _ _ hran _ _ _ _ => exact ⟨_, hran⟩

/-- A strict run that does not block has skipped nothing, so that the other one comes to the same
and does not block either. -/
theorem isBlocking_relaxed (h : Concluded ⟨false, parallel⟩ prior raised stages ms e report)
    (h' : Concluded ⟨true, parallel'⟩ prior raised stages ms' e' report')
    (hplan : plan (stages.map Stage.jobs) (prior.map (·.1)) = .ok plans)
    (hprior : prior.Free false)
    (hsub : ∀ entry ∈ report.entries, entry.result.level ≠ .skip → entry ∈ report'.entries)
    (hb : report'.isBlocking = true) : report.isBlocking = true := by
  by_contra hclear
  rw [Bool.not_eq_true] at hclear
  rw [Report.isBlocking, List.any_eq_true, h'.allow] at hb
  obtain ⟨entry', he', hlevel⟩ := hb
  obtain ⟨w, hw, hhandled'⟩ := h'.entry_handled he'
  obtain ⟨entry, he, hhandled⟩ := h.handled w hw
  have hfree := h.level_free hplan hprior hclear he
  obtain ⟨hskip, -⟩ := Level.blocksDependents_eq_false_iff.mp hfree
  have heq : entry = entry' := List.inj_on_of_nodup_map h'.distinct (hsub entry he hskip) he'
    (hhandled.action_eq.trans hhandled'.action_eq.symm)
  subst heq
  rw [Level.blocksDependents, Level.isBlocking_mono hlevel, Bool.or_true] at hfree
  cases hfree

end Concluded

/-- Allowing overridable findings only relaxes a run: what was run without it is run with it and
comes to the same, and a run that blocks with it, where nothing done before blocks, has blocked
without it. Either run may be one at a time or in parallel. -/
theorem Runner.allowing_only_relaxes (parallel parallel' : Bool) (prior : Levels)
    (stages : List Stage) (stamp stamp' : Stamp) (s s' : Session) {plans : List StagePlan}
    (h : plan (stages.map Stage.jobs) (prior.map (·.1)) = .ok plans)
    (himpartial : ∀ w ∈ workIn stages, w.2.Impartial)
    (hs : s.host.interrupted = s'.host.interrupted) :
    (∃ ms, .raised ∉ ms ∧ (ofSettings ⟨false, parallel⟩).Runs stamp prior (stages.zip plans) s ms
      ((ofSettings ⟨false, parallel⟩).run stamp prior stages s)) ∧
    (∃ ms, .raised ∉ ms ∧ (ofSettings ⟨true, parallel'⟩).Runs stamp' prior (stages.zip plans) s' ms
      ((ofSettings ⟨true, parallel'⟩).run stamp' prior stages s')) ∧
    ∀ ms ms' e e', .raised ∉ ms → .raised ∉ ms' →
      (ofSettings ⟨false, parallel⟩).Runs stamp prior (stages.zip plans) s ms e →
      (ofSettings ⟨true, parallel'⟩).Runs stamp' prior (stages.zip plans) s' ms' e' →
      ∃ report report', e.report = .ok report ∧ e'.report = .ok report' ∧
        (∀ w ∈ workIn stages, runsOf w.2.id ms ≠ [] →
          (∃ t, runsOf w.2.id ms' = [t]) ∧ ∃ entry ∈ report.entries,
            entry.name = (w.1, w.2.id) ∧ entry ∈ report'.entries) ∧
        (prior.Free false → report'.isBlocking = true → report.isBlocking = true) := by
  refine ⟨exists_runs_unraised _ stamp prior s h, exists_runs_unraised _ stamp' prior s' h, ?_⟩
  intro ms ms' e e' hms hms' hruns hruns'
  obtain ⟨report, hc⟩ := hruns.concluded h
  obtain ⟨report', hc'⟩ := hruns'.concluded h
  have hraised := hruns.raisedBy_eq (fun w hw => (himpartial w hw).steady false) hms hc
  have hraised' := hruns'.raisedBy_eq (fun w hw => (himpartial w hw).steady true) hms' hc'
  rw [← hs] at hc' hraised'
  have hsub := hc.mem_entries_relaxed hc' h (fun w hw => (himpartial w hw).fixed) hraised hraised'
  refine ⟨report, report', hc.ended, hc'.ended, ?_, ?_⟩
  · intro w hw
    exact hc.runs_relaxed hc' hsub hraised' hw
  · intro hprior
    exact hc.isBlocking_relaxed hc' h hprior hsub

def overridableStages : List Stage := [⟨"only", [
  { id := "finding", run := fun _ => .setResult "finding" { level := .overridable } },
  { id := "change", dependencies := ["finding"], run := fun _ => .panic none },
  { id := "note", run := fun _ => pure () }]⟩]

theorem overridableStages_impartial : ∀ w ∈ workIn overridableStages, w.2.Impartial := by
  intro w hw
  simp only [workIn, overridableStages, List.flatMap_cons, List.map_cons, List.map_nil,
    List.flatMap_nil, List.append_nil, List.mem_cons, List.not_mem_nil, or_false] at hw
  obtain rfl | rfl | rfl := hw
  · exact @Action.Impartial.of_perform _ (.ok ())
      { result := some { level := .overridable }, unreserved := by simp } fun _ _ => rfl
  · exact .of_perform fun _ _ => rfl
  · exact .of_perform fun _ _ => rfl

/-- With the finding allowed the change is run and panics. The run still blocks, and so it did when
the change was skipped. -/
theorem Runner.allowing_only_relaxes_finding : ∃ report report',
    ((ofSettings ⟨false, false⟩).run { run := "first" } [] overridableStages {}).report =
      .ok report ∧
    ((ofSettings ⟨true, true⟩).run { run := "second" } [] overridableStages {}).report =
      .ok report' ∧
    report.entries.map (·.result.level) = [.overridable, .skip, .success] ∧
    report'.entries.map (·.result.level) = [.overridable, .success, .error] ∧
    report'.isBlocking = true ∧ report.isBlocking = true := by
  have hplan : plan (overridableStages.map Stage.jobs) [] =
    .ok [⟨"only", [0, 1, 2], [0, 1, 0]⟩] := rfl
  obtain ⟨⟨ms, hms, hruns⟩, ⟨ms', hms', hruns'⟩, hall⟩ := allowing_only_relaxes false true []
    overridableStages { run := "first" } { run := "second" } {} {} hplan
    overridableStages_impartial rfl
  obtain ⟨report, report', hr, hr', -, hblocking⟩ := hall ms ms' _ _ hms hms' hruns hruns'
  have hb : report'.isBlocking = true := by
    cases hr'
    rfl
  refine ⟨report, report', hr, hr', ?_, ?_, hb, hblocking (Levels.free_nil _) hb⟩
  · cases hr
    rfl
  · cases hr'
    rfl

end Changeover
