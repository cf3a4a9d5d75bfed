import Changeover.Proofs.Plan.Order

/-!
# Plans depend on what is known

Ids that are known from before are only ever looked up. So two lists of the same ids give the same
plan or the same error, whatever their order.
-/

namespace Changeover

theorem contains_congr {ids ids' : List String} (h : ∀ d, d ∈ ids ↔ d ∈ ids') (d : String) :
    ids.contains d = ids'.contains d := by
  rw [Bool.eq_iff_iff, List.contains_iff_mem, List.contains_iff_mem]
  exact h d

theorem firstRepeated_congr {seen seen' : List String} (h : ∀ d, d ∈ seen ↔ d ∈ seen')
    (ids : List String) : firstRepeated seen ids = firstRepeated seen' ids := by
  induction ids generalizing seen seen' with
  | nil => rfl
  | cons id ids ih =>
    have hcons : ∀ d, d ∈ id :: seen ↔ d ∈ id :: seen' := by
      intro d
      rw [List.mem_cons, List.mem_cons, h d]
    unfold firstRepeated
    rw [contains_congr h, ih hcons]

section

variable {known known' : List String} (h : ∀ d, d ∈ known ↔ d ∈ known')
include h

theorem dependencyError?_congr (s : JobStage) (later : List String) (job : Job) :
    dependencyError? s known later job = dependencyError? s known' later job := by
  funext d
  unfold dependencyError?
  rw [contains_congr h]

theorem planStage_congr (later : List String) (s : JobStage) :
    planStage known later s = planStage known' later s := by
  unfold planStage
  simp only [dependencyError?_congr h]

theorem planStages_congr (stages : List JobStage) :
    planStages known stages = planStages known' stages := by
  induction stages generalizing known known' with
  | nil => rfl
  | cons s rest ih =>
    have hmore : ∀ d, d ∈ known ++ s.ids ↔ d ∈ known' ++ s.ids := by
      intro d
      rw [List.mem_append, List.mem_append, h d]
    unfold planStages
    rw [planStage_congr h, ih hmore]

theorem plan_congr (stages : List JobStage) : plan stages known = plan stages known' := by
  unfold plan
  rw [firstRepeated_congr h, planStages_congr h]

end

end Changeover
