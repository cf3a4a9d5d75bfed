import Changeover.Proofs.Run.Modes

/-!
# What one action can reach

Another behaviour of one action, be it a fault, changes nothing for those that do not depend on it:
they have the same entries in both runs. What depends on it is found by following dependencies
through all stages; the batches, and what else runs beside the action, do not count.
-/

namespace Changeover

/-- The action with another behaviour, if it is the one called `x`. -/
def Action.behaving (x : String) (f : Settings → Procedure Unit) (a : Action) : Action :=
  if a.id = x then { a with run := f } else a

def Stage.behaving (x : String) (f : Settings → Procedure Unit) (s : Stage) : Stage :=
  { s with actions := s.actions.map (·.behaving x f) }

/-- The first action waits for the second, or for one that does, or it is the same. -/
def Hangs (stages : List Stage) (y x : String) : Prop :=
  Relation.ReflTransGen (DependsOn stages) y x

section

variable {x : String} {f : Settings → Procedure Unit}

@[simp] theorem Action.behaving_id (a : Action) : (a.behaving x f).id = a.id := by
  unfold behaving
  split
  · rfl
  · rfl

@[simp] theorem Action.behaving_dependencies (a : Action) :
    (a.behaving x f).dependencies = a.dependencies := by
  unfold behaving
  split
  · rfl
  · rfl

theorem Action.behaving_of_ne {a : Action} (h : a.id ≠ x) : a.behaving x f = a := if_neg h

theorem jobs_behaving (stages : List Stage) :
    (stages.map (·.behaving x f)).map Stage.jobs = stages.map Stage.jobs := by
  rw [List.map_map]
  apply List.map_congr_left
  intro s _
  simp [Stage.behaving, Stage.jobs, Action.job]

theorem workIn_behaving (stages : List Stage) :
    workIn (stages.map (·.behaving x f)) =
      (workIn stages).map fun w => (w.1, w.2.behaving x f) := by
  simp [workIn, List.flatMap_map, List.map_flatMap, Stage.behaving, Function.comp_def]

theorem namesOf_behaving (work : List (String × Action)) :
    namesOf (work.map fun w => (w.1, w.2.behaving x f)) = namesOf work := by
  simp [namesOf, Function.comp_def]

theorem dependsOn_behaving (stages : List Stage) :
    DependsOn (stages.map (·.behaving x f)) = DependsOn stages := by
  funext y d
  simp [DependsOn, workIn_behaving]

theorem plannedWork_behaving (stages : List Stage) (plans : List StagePlan) :
    plannedWork ((stages.map (·.behaving x f)).zip plans) =
      (plannedWork (stages.zip plans)).map fun w => (w.1, w.2.behaving x f) := by
  rw [List.zip_map_left]
  simp [plannedWork, List.flatMap_map, List.map_flatMap, StagePlan.actions, Stage.behaving,
    List.map_filterMap, Function.comp_def]

theorem shared_behaving {allow parallel : Bool} {stages : List Stage}
    (hfixed : ∀ w ∈ workIn stages, w.2.id ≠ x → ∃ d, w.2.Fixed ⟨allow, parallel⟩ d) :
    Concluded.Shared allow parallel parallel stages (stages.map (·.behaving x f))
      fun y => ¬ Hangs stages y x where
  closed _ _ hy hdep hd := hy (hd.head hdep)
  there w hw hy := by
    have hne : w.2.id ≠ x := by
      rintro rfl
      exact hy .refl
    obtain ⟨d, hd⟩ := hfixed w hw hne
    refine ⟨?_, d, hd, hd⟩
    rw [workIn_behaving]
    refine List.mem_map.mpr ⟨w, hw, ?_⟩
    rw [Action.behaving_of_ne hne]

theorem shared_of_behaving {allow parallel : Bool} {stages : List Stage}
    (hfixed : ∀ w ∈ workIn stages, w.2.id ≠ x → ∃ d, w.2.Fixed ⟨allow, parallel⟩ d) :
    Concluded.Shared allow parallel parallel (stages.map (·.behaving x f)) stages
      fun y => ¬ Hangs stages y x where
  closed y d hy hdep hd := by
    rw [dependsOn_behaving] at hdep
    exact hy (hd.head hdep)
  there w hw hy := by
    rw [workIn_behaving] at hw
    obtain ⟨v, hv, rfl⟩ := List.mem_map.mp hw
    have hne : v.2.id ≠ x := by
      intro heq
      apply hy
      rw [Action.behaving_id, heq]
      exact .refl
    rw [Action.behaving_of_ne hne]
    obtain ⟨d, hd⟩ := hfixed v hv hne
    exact ⟨hv, d, hd, hd⟩

end

/-- Whatever one action does, those that do not hang on it have the same entries in every run that
nothing interrupts, and one at a time the order of the entries is the same too. -/
theorem Runner.behaviour_confined (settings : Settings) (prior : Levels) (stages : List Stage)
    (x : String) (f : Settings → Procedure Unit) (stamp stamp' : Stamp) (s s' : Session)
    {plans : List StagePlan}
    (h : plan (stages.map Stage.jobs) (prior.map (·.1)) = .ok plans)
    (hfixed : ∀ w ∈ workIn stages, w.2.id ≠ x → ∃ d, w.2.Fixed settings d) :
    (∃ ms, (ofSettings settings).Runs stamp prior (stages.zip plans) s ms
      ((ofSettings settings).run stamp prior stages s)) ∧
    (∃ ms, (ofSettings settings).Runs stamp' prior ((stages.map (·.behaving x f)).zip plans) s' ms
      ((ofSettings settings).run stamp' prior (stages.map (·.behaving x f)) s')) ∧
    ∀ ms ms' e e',
      (ofSettings settings).Runs stamp prior (stages.zip plans) s ms e →
      (ofSettings settings).Runs stamp' prior ((stages.map (·.behaving x f)).zip plans) s' ms' e' →
      raisedBy settings s.host.interrupted ms = false →
      raisedBy settings s'.host.interrupted ms' = false →
      ∃ report report', e.report = .ok report ∧ e'.report = .ok report' ∧
        (report.entries.map ReportEntry.name).Perm (namesOf (workIn stages)) ∧
        (report'.entries.map ReportEntry.name).Perm (namesOf (workIn stages)) ∧
        (∀ entry, ¬ Hangs stages entry.action x →
          (entry ∈ report.entries ↔ entry ∈ report'.entries)) ∧
        (settings.parallel = false →
          report.entries.map ReportEntry.name = report'.entries.map ReportEntry.name) := by
  have h' : plan ((stages.map (·.behaving x f)).map Stage.jobs) (prior.map (·.1)) = .ok plans := by
    rw [jobs_behaving]
    exact h
  refine ⟨exists_runs _ stamp prior s h, exists_runs _ stamp' prior s' h', ?_⟩
  intro ms ms' e e' hruns hruns' hcalm hcalm'
  obtain ⟨report, hc⟩ := hruns.concluded h
  obtain ⟨report', hc'⟩ := hruns'.concluded h'
  have hstart : s.host.interrupted = false := (Bool.or_eq_false_iff.mp hcalm).1
  have hstart' : s'.host.interrupted = false := (Bool.or_eq_false_iff.mp hcalm').1
  rw [hstart] at hc hcalm
  rw [hstart'] at hc' hcalm'
  refine ⟨report, report', hc.ended, hc'.ended, hc.names, ?_, ?_, ?_⟩
  · rw [← namesOf_behaving (x := x) (f := f) (workIn stages), ← workIn_behaving]
    exact hc'.names
  · obtain ⟨allow, parallel⟩ := settings
    intro entry hentry
    constructor
    · intro he
      exact hc.mem_entries_of_shared hc' h (shared_behaving hfixed) hcalm hcalm' entry he hentry
    · intro he
      exact hc'.mem_entries_of_shared hc h' (shared_of_behaving hfixed) hcalm' hcalm entry he hentry
  · intro hp
    rw [hruns.names_eq h hc.ended hp, hruns'.names_eq h' hc'.ended hp, plannedWork_behaving,
      namesOf_behaving]

theorem not_hangs_note : ¬ Hangs notedStages "note" "check" := by
  intro h
  rcases h.cases_head with heq | ⟨d, ⟨w, hw, hid, hd⟩, -⟩
  · exact absurd heq (by decide)
  · simp only [workIn, notedStages, List.flatMap_cons, List.map_cons, List.map_nil,
      List.flatMap_nil, List.append_nil, List.mem_cons, List.not_mem_nil, or_false] at hw
    obtain rfl | rfl | rfl := hw
    · exact absurd hid (by decide)
    · exact absurd hid (by decide)
    · cases hd

/-- The check panics or it succeeds: the change is skipped or it runs, and the note is the same. -/
theorem Runner.behaviour_confined_note : ∃ report report',
    ((ofSettings {}).run { run := "first" } [] notedStages {}).report = .ok report ∧
    ((ofSettings {}).run { run := "second" } []
      (notedStages.map (·.behaving "check" fun _ => pure ())) {}).report = .ok report' ∧
    report.entries.map (·.result.level) = [.error, .skip, .success] ∧
    report'.entries.map (·.result.level) = [.success, .success, .success] ∧
    (∀ entry, entry.action = "note" → (entry ∈ report.entries ↔ entry ∈ report'.entries)) ∧
    report.entries.map ReportEntry.name = report'.entries.map ReportEntry.name := by
  have hplan : plan (notedStages.map Stage.jobs) [] = .ok [⟨"only", [1, 0, 2], [1, 0, 0]⟩] := rfl
  have hfixed : ∀ w ∈ workIn notedStages, w.2.id ≠ "check" → ∃ d, w.2.Fixed {} d := by
    intro w hw _
    obtain ⟨d, hd⟩ := (notedStages_steady w hw).fixed
    exact ⟨d, hd false⟩
  obtain ⟨⟨ms, hruns⟩, ⟨ms', hruns'⟩, hall⟩ := behaviour_confined {} [] notedStages "check"
    (fun _ => pure ()) { run := "first" } { run := "second" } {} {} hplan hfixed
  obtain ⟨_, hc⟩ := hruns.concluded hplan
  obtain ⟨_, hc'⟩ := hruns'.concluded (by rw [jobs_behaving]; exact hplan)
  have hcalm : raisedBy {} false ms = false := hc.interrupted.symm
  have hcalm' : raisedBy {} false ms' = false := hc'.interrupted.symm
  obtain ⟨report, report', hr, hr', -, -, hsame, horder⟩ :=
    hall ms ms' _ _ hruns hruns' hcalm hcalm'
  refine ⟨report, report', hr, hr', ?_, ?_, ?_, horder rfl⟩
  · cases hr
    rfl
  · cases hr'
    rfl
  · intro entry hentry
    exact hsame entry (hentry ▸ not_hangs_note)

end Changeover
