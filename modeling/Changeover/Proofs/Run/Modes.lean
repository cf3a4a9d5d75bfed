import Changeover.Proofs.Run.Agreement
import Changeover.Proofs.Run.Lasting
import Mathlib.Data.List.Perm.Basic

/-!
# One at a time or in parallel

Batches decide which actions run beside each other, and so in which order outcomes come in. Where
the outcome of an action does not depend on what others do, both ways of running come to the same
entries.
-/

namespace Changeover

/-- An action that comes to the same in every session, one at a time or in parallel, and does not
ask to stop. -/
structure Action.Steady (allow : Bool) (a : Action) : Prop where
  fixed : ∃ d, ∀ parallel s, (perform ⟨allow, parallel⟩ a s).1 = d
  calm : ∀ parallel s, s.host.interrupted = false →
    (perform ⟨allow, parallel⟩ a s).2.host.interrupted = false

theorem Action.Steady.of_perform {allow : Bool} {a : Action} {ending : Except (Stop Fault) Unit}
    {t : Tracker} (h : ∀ parallel (s : Session),
      (a.run ⟨allow, parallel⟩).perform { host := s.host, undo := s.undo } =
        (ending, { host := s.host, undo := s.undo, tracker := t })) : a.Steady allow where
  fixed := ⟨⟨a.id, ending, t⟩, fun parallel s => by rw [perform, h]⟩
  calm parallel s hs := by simp [perform, h, Host.noteInterrupt, hs]

/-! ### Interrupts -/

section

variable {allow parallel : Bool} {stages : List Stage}

theorem Action.Steady.interrupted_eq {a : Action} (h : a.Steady allow) (s : Session) :
    (perform ⟨allow, parallel⟩ a s).2.host.interrupted = s.host.interrupted := by
  cases hs : s.host.interrupted with
  | false => exact h.calm parallel s hs
  | true => simp [perform, Host.noteInterrupt, hs]

theorem lasting_interrupted (hsteady : ∀ w ∈ workIn stages, w.2.Steady allow) (raised : Bool) :
    Lasting ⟨allow, parallel⟩ (stages.flatMap (·.actions))
      fun ms s => .raised ∉ ms → s.host.interrupted = raised where
  raise _ hms := absurd (List.mem_append_right _ (List.mem_singleton_self _)) hms
  marker hp := hp
  turn _ hp hms := hp fun h => hms (List.mem_append_left _ h)
  recorded _ hp hms := hp fun h => hms (List.mem_append_left _ h)
  ran {_ s a} ha hp hms := by
    obtain ⟨stage, hstage, ha⟩ := List.mem_flatMap.mp ha
    have hw : (stage.name, a) ∈ workIn stages :=
      List.mem_flatMap.mpr ⟨stage, hstage, List.mem_map_of_mem ha⟩
    rw [(hsteady _ hw).interrupted_eq]
    exact hp fun h => hms (List.mem_append_left _ h)

theorem Runner.Runs.raisedBy_eq {stamp : Stamp} {prior : Levels} {plans : List StagePlan}
    {s : Session} {ms : List Moment} {e : RunEnd} {report : Report}
    (h : (ofSettings ⟨allow, parallel⟩).Runs stamp prior (stages.zip plans) s ms e)
    (hsteady : ∀ w ∈ workIn stages, w.2.Steady allow) (hms : .raised ∉ ms)
    (hc : Concluded ⟨allow, parallel⟩ prior s.host.interrupted stages ms e report) :
    raisedBy ⟨allow, parallel⟩ s.host.interrupted ms = s.host.interrupted := by
  rw [← hc.interrupted]
  exact h.lasting (lasting_interrupted hsteady _) (fun _ => rfl) hms

end

/-! ### Two runs -/

namespace Concluded

variable {allow parallel parallel' raised : Bool} {prior : Levels} {stages : List Stage}
  {plans : List StagePlan} {ms ms' : List Moment} {e e' : RunEnd} {report report' : Report}

theorem entries_subset (h : Concluded ⟨allow, parallel⟩ prior raised stages ms e report)
    (h' : Concluded ⟨allow, parallel'⟩ prior raised stages ms' e' report')
    (hplan : plan (stages.map Stage.jobs) (prior.map (·.1)) = .ok plans)
    (hsteady : ∀ w ∈ workIn stages, w.2.Steady allow)
    (hms : raisedBy ⟨allow, parallel⟩ raised ms = raised)
    (hms' : raisedBy ⟨allow, parallel'⟩ raised ms' = raised) :
    report.entries ⊆ report'.entries := by
  have hshared : Shared allow parallel parallel' stages stages fun _ => True := by
    constructor
    case closed => exact fun _ _ _ _ => trivial
    case there =>
      intro w hw _
      obtain ⟨d, hd⟩ := (hsteady w hw).fixed
      exact ⟨hw, d, hd parallel, hd parallel'⟩
  intro entry he
  exact h.mem_entries_of_shared h' hplan hshared hms hms' entry he trivial

theorem entries_perm (h : Concluded ⟨allow, parallel⟩ prior raised stages ms e report)
    (h' : Concluded ⟨allow, parallel'⟩ prior raised stages ms' e' report')
    (hplan : plan (stages.map Stage.jobs) (prior.map (·.1)) = .ok plans)
    (hsteady : ∀ w ∈ workIn stages, w.2.Steady allow)
    (hms : raisedBy ⟨allow, parallel⟩ raised ms = raised)
    (hms' : raisedBy ⟨allow, parallel'⟩ raised ms' = raised) :
    report.entries.Perm report'.entries := by
  rw [List.perm_ext_iff_of_nodup h.distinct.of_map h'.distinct.of_map]
  intro entry
  exact ⟨fun he => h.entries_subset h' hplan hsteady hms hms' he,
    fun he => h'.entries_subset h hplan hsteady hms' hms he⟩

end Concluded

theorem Report.isBlocking_of_perm {r r' : Report} (h : r.entries.Perm r'.entries)
    (hallow : r.allowOverridable = r'.allowOverridable) :
    r.isBlocking = r'.isBlocking ∧ r.blockingActions.Perm r'.blockingActions := by
  unfold isBlocking blockingActions blockingEntries
  rw [hallow]
  exact ⟨h.any_eq, (h.filter _).map _⟩

/-- Steady actions come to the same entries one at a time and in parallel, in whatever order
those of a batch run, so that the same of them block. -/
theorem Runner.parallel_agrees_with_sequential (allow : Bool) (prior : Levels)
    (stages : List Stage) (stamp stamp' : Stamp) (s s' : Session) {plans : List StagePlan}
    (h : plan (stages.map Stage.jobs) (prior.map (·.1)) = .ok plans)
    (hsteady : ∀ w ∈ workIn stages, w.2.Steady allow)
    (hs : s.host.interrupted = s'.host.interrupted) :
    (∃ ms, .raised ∉ ms ∧ (ofSettings ⟨allow, false⟩).Runs stamp prior (stages.zip plans) s ms
      ((ofSettings ⟨allow, false⟩).run stamp prior stages s)) ∧
    (∃ ms, .raised ∉ ms ∧ (ofSettings ⟨allow, true⟩).Runs stamp' prior (stages.zip plans) s' ms
      ((ofSettings ⟨allow, true⟩).run stamp' prior stages s')) ∧
    ∀ ms ms' e e', .raised ∉ ms → .raised ∉ ms' →
      (ofSettings ⟨allow, false⟩).Runs stamp prior (stages.zip plans) s ms e →
      (ofSettings ⟨allow, true⟩).Runs stamp' prior (stages.zip plans) s' ms' e' →
      ∃ report report', e.report = .ok report ∧ e'.report = .ok report' ∧
        report.entries.Perm report'.entries ∧ report.isBlocking = report'.isBlocking ∧
        report.blockingActions.Perm report'.blockingActions := by
  refine ⟨exists_runs_unraised _ stamp prior s h, exists_runs_unraised _ stamp' prior s' h, ?_⟩
  intro ms ms' e e' hms hms' hruns hruns'
  obtain ⟨report, hc⟩ := hruns.concluded h
  obtain ⟨report', hc'⟩ := hruns'.concluded h
  have hraised := hruns.raisedBy_eq hsteady hms hc
  have hraised' := hruns'.raisedBy_eq hsteady hms' hc'
  rw [← hs] at hc' hraised'
  have hperm := hc.entries_perm hc' h hsteady hraised hraised'
  obtain ⟨hblocking, hactions⟩ := Report.isBlocking_of_perm hperm (hc.allow.trans hc'.allow.symm)
  exact ⟨report, report', hc.ended, hc'.ended, hperm, hblocking, hactions⟩

def notedStages : List Stage := [⟨"only", [
  { id := "change", dependencies := ["check"], run := fun _ => pure () },
  { id := "check", run := fun _ => .panic none },
  { id := "note", run := fun _ => .setResult "note" .success }]⟩]

theorem notedStages_steady : ∀ w ∈ workIn notedStages, w.2.Steady false := by
  intro w hw
  simp only [workIn, notedStages, List.flatMap_cons, List.map_cons, List.map_nil,
    List.flatMap_nil, List.append_nil, List.mem_cons, List.not_mem_nil, or_false] at hw
  obtain rfl | rfl | rfl := hw
  · exact .of_perform fun _ _ => rfl
  · exact .of_perform fun _ _ => rfl
  · exact @Action.Steady.of_perform _ _ (.ok ())
      { result := some .success, unreserved := by simp [Result.success] } fun _ _ => rfl

/-- In parallel the note is taken before the change has its turn, and yet the entries are the
same. -/
theorem Runner.parallel_agrees_with_sequential_noted : ∃ report report',
    ((ofSettings ⟨false, false⟩).run { run := "first" } [] notedStages {}).report = .ok report ∧
    ((ofSettings ⟨false, true⟩).run { run := "second" } [] notedStages {}).report = .ok report' ∧
    report.entries.map (·.action) = ["check", "change", "note"] ∧
    report'.entries.map (·.action) = ["check", "note", "change"] ∧
    report.entries.Perm report'.entries ∧ report'.blockingActions = ["check"] := by
  have hplan : plan (notedStages.map Stage.jobs) [] = .ok [⟨"only", [1, 0, 2], [1, 0, 0]⟩] := rfl
  obtain ⟨⟨ms, hms, hruns⟩, ⟨ms', hms', hruns'⟩, hall⟩ := parallel_agrees_with_sequential false []
    notedStages { run := "first" } { run := "second" } {} {} hplan notedStages_steady rfl
  obtain ⟨report, report', hr, hr', hperm, -⟩ := hall ms ms' _ _ hms hms' hruns hruns'
  refine ⟨report, report', hr, hr', ?_, ?_, hperm, ?_⟩
  · cases hr
    rfl
  · cases hr'
    rfl
  · cases hr'
    rfl

end Changeover
