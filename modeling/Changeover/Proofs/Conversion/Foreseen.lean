import Changeover.Proofs.Conversion.Phases
import Changeover.Proofs.Conversion.Runs
import Changeover.Proofs.Plan.Resolvable

/-!
# Plans of a conversion can be told beforehand

A conversion plans its stages in two parts, the second with the ids that the report of the first run
names. All stages in a row have a plan exactly if both parts have one, and it is made of theirs. So
what validating the stages says holds for the conversion.
-/

namespace Changeover

section

variable {before after : List JobStage} {done : List String}

theorem Resolvable.left (h : Resolvable (before ++ after) done) : Resolvable before done := by
  obtain ⟨hn, hf, hk, ha⟩ := h
  rw [List.flatMap_append] at hn hf
  refine ⟨(List.nodup_append'.mp hn).1, ?_, ?_, ?_⟩
  · intro id hid
    exact hf id (List.mem_append_left _ hid)
  · rintro earlier s later rfl
    exact hk earlier s (later ++ after) (by simp)
  · intro s hs
    exact ha s (List.mem_append_left _ hs)

theorem Resolvable.right (h : Resolvable (before ++ after) done) :
    Resolvable after (done ++ before.flatMap JobStage.ids) := by
  obtain ⟨hn, hf, hk, ha⟩ := h
  rw [List.flatMap_append] at hn hf
  obtain ⟨-, hnafter, hapart⟩ := List.nodup_append'.mp hn
  refine ⟨hnafter, ?_, ?_, ?_⟩
  · intro id hid
    rw [List.mem_append, not_or]
    exact ⟨hf id (List.mem_append_right _ hid), fun hbefore => hapart hbefore hid⟩
  · rintro earlier s later rfl job hjob d hd
    have hd' := hk (before ++ earlier) s later (by simp) job hjob d hd
    simp only [List.flatMap_append, List.mem_append] at hd' ⊢
    tauto
  · intro s hs
    exact ha s (List.mem_append_right _ hs)

theorem Resolvable.append (h : Resolvable before done)
    (h' : Resolvable after (done ++ before.flatMap JobStage.ids)) :
    Resolvable (before ++ after) done := by
  have hapart : ∀ id ∈ after.flatMap JobStage.ids,
      id ∉ done ∧ id ∉ before.flatMap JobStage.ids := by
    intro id hid
    have hout := h'.fresh id hid
    rwa [List.mem_append, not_or] at hout
  refine ⟨?_, ?_, ?_, ?_⟩
  · rw [List.flatMap_append]
    refine List.nodup_append'.mpr ⟨h.distinct, h'.distinct, ?_⟩
    intro id hbefore hafter
    exact (hapart id hafter).2 hbefore
  · intro id hid
    rw [List.flatMap_append] at hid
    rcases List.mem_append.mp hid with hid | hid
    · exact h.fresh id hid
    · exact (hapart id hid).1
  · intro earlier s later heq job hjob d hd
    rcases List.append_eq_append_iff.mp heq with ⟨earlier', rfl, hafter⟩ | ⟨rest, rfl, hrest⟩
    · have hd' := h'.known earlier' s later hafter job hjob d hd
      simp only [List.flatMap_append, List.mem_append] at hd' ⊢
      tauto
    · rcases List.cons_eq_append_iff.mp hrest with ⟨rfl, hafter⟩ | ⟨later', rfl, -⟩
      · have hd' := h'.known [] s later hafter job hjob d hd
        simp only [List.append_nil, List.flatMap_nil, List.mem_append, List.not_mem_nil] at hd' ⊢
        tauto
      · exact h.known earlier s later' rfl job hjob d hd
  · intro s hs
    rcases List.mem_append.mp hs with hs | hs
    · exact h.acyclic s hs
    · exact h'.acyclic s hs

/-- The plan of stages in a row is made of a plan of the first ones and one of the others, which
know the ids of the first. -/
theorem plan_append_eq_ok_iff {plans : List StagePlan} : plan (before ++ after) done = .ok plans ↔
    ∃ ps qs, plan before done = .ok ps ∧
      plan after (done ++ before.flatMap JobStage.ids) = .ok qs ∧ plans = ps ++ qs := by
  simp only [plan_eq_ok_iff, List.map_append]
  constructor
  · rintro ⟨h, rfl⟩
    exact ⟨_, _, ⟨h.left, rfl⟩, ⟨h.right, rfl⟩, rfl⟩
  · rintro ⟨ps, qs, ⟨h, rfl⟩, ⟨h', rfl⟩, rfl⟩
    exact ⟨h.append h', rfl⟩

end

namespace Conversion

/-- All stages in a row have a plan exactly if those before the point of no return have one and
those after it have one that knows the ids of the others, which is how a conversion plans them
after its first run; and then the one plan is made of the two. -/
theorem plan_foreseen (before after : List Stage) :
    (∀ plans, plan ((before ++ after).map Stage.jobs) [] = .ok plans ↔
      ∃ ps qs, plan (before.map Stage.jobs) [] = .ok ps ∧
        plan (after.map Stage.jobs) ((workIn before).map (·.2.id)) = .ok qs ∧
        plans = ps ++ qs) ∧
    ∀ (settings : Settings) (stamp : Stamp) (s : Session) (ms : List Moment) (first : RunEnd)
      (report : Report),
      (Runner.ofSettings settings).Goes stamp [] before s ms first → first.report = .ok report →
        plan (after.map Stage.jobs) ((Levels.ofReports [report]).map (·.1)) =
          plan (after.map Stage.jobs) ((workIn before).map (·.2.id)) := by
  constructor
  · intro plans
    rw [List.map_append, plan_append_eq_ok_iff, List.nil_append, ← workIn_ids]
  · intro settings stamp s ms first report hgoes hreport
    obtain ⟨_, -, hconcluded⟩ := hgoes.concluded hreport
    exact hconcluded.plan_next _

/-- The second stage depends on what only the first provides. -/
theorem plan_foreseen_keptAndDraft : ∃ ms ps qs,
    (Runner.ofSettings {}).Goes rehearsalStamps.before [] keptStages {} ms keptRun ∧
      keptRun.report = .ok keptReport ∧
      plan (keptStages.map Stage.jobs) [] = .ok ps ∧
      plan (draftStages.map Stage.jobs) ((Levels.ofReports [keptReport]).map (·.1)) = .ok qs ∧
      plan ((keptStages ++ draftStages).map Stage.jobs) [] = .ok (ps ++ qs) := by
  obtain ⟨ms, hgoes⟩ := (Runner.ofSettings {}).exists_goes rehearsalStamps.before [] keptStages {}
  obtain ⟨hsplit, hnext⟩ := plan_foreseen keptStages draftStages
  obtain ⟨plans, hplans⟩ :
      ∃ plans, plan ((keptStages ++ draftStages).map Stage.jobs) [] = .ok plans := ⟨_, rfl⟩
  obtain ⟨ps, qs, hps, hqs, rfl⟩ := (hsplit plans).mp hplans
  rw [← hnext {} rehearsalStamps.before {} ms keptRun keptReport hgoes rfl] at hqs
  exact ⟨ms, ps, qs, hgoes, rfl, hps, hqs, hplans⟩

end Conversion

end Changeover
