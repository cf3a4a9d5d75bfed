import Changeover.Plan
import Mathlib.Data.List.Nodup
import Mathlib.Data.List.Perm.Subperm
import Mathlib.Data.List.Range

/-!
# Running orders respect dependencies

Whatever is placed is placed after all it needs, and its depth is greater than theirs. From a plan
that was found this gives, stage by stage, an order of all positions; ids are never used twice, and
a dependency names a job of the same stage or something known before it.
-/

namespace Changeover

/-- Positions placed one after the other, each the next that was ready. -/
inductive Grown (needs : List (List Nat)) : List Nat → Prop
  | nil : Grown needs []
  | snoc {placed : List Nat} {i : Nat} :
    Grown needs placed → nextReady needs placed = some i → Grown needs (placed ++ [i])

theorem nextReady_eq_some {needs : List (List Nat)} {placed : List Nat} {i : Nat}
    (h : nextReady needs placed = some i) :
    i < needs.length ∧ i ∉ placed ∧ needs.getD i [] ⊆ placed := by
  have hm := List.mem_range.mp (List.mem_of_find?_eq_some h)
  have hp := List.find?_some h
  simp only [Bool.and_eq_true, Bool.not_eq_true', List.all_eq_true, List.contains_iff_mem] at hp
  refine ⟨hm, ?_, hp.2⟩
  intro hi
  simp [hi] at hp

theorem Grown.placeReady {needs : List (List Nat)} {placed : List Nat} (h : Grown needs placed)
    (n : Nat) : Grown needs (placeReady needs n placed) := by
  induction n generalizing placed with
  | zero => exact h
  | succ n ih =>
    unfold Changeover.placeReady
    split
    · exact h
    · exact ih (h.snoc (by assumption))

theorem grown_runningOrder (needs : List (List Nat)) : Grown needs (runningOrder needs) :=
  Grown.nil.placeReady _

namespace Grown

variable {needs : List (List Nat)} {order : List Nat}

theorem lt_length (h : Grown needs order) : ∀ i ∈ order, i < needs.length := by
  induction h with
  | nil => simp
  | snoc _ hi ih =>
    intro j hj
    rcases List.mem_append.mp hj with hj | hj
    · exact ih j hj
    · exact List.mem_singleton.mp hj ▸ (nextReady_eq_some hi).1

theorem nodup (h : Grown needs order) : order.Nodup := by
  induction h with
  | nil => exact List.nodup_nil
  | snoc _ hi ih =>
    refine List.nodup_append'.mpr ⟨ih, List.nodup_singleton _, ?_⟩
    exact List.disjoint_singleton.mpr (nextReady_eq_some hi).2.1

theorem subperm_range (h : Grown needs order) : order.Subperm (List.range needs.length) := by
  refine List.subperm_of_subset h.nodup ?_
  intro i hi
  exact List.mem_range.mpr (h.lt_length i hi)

theorem length_le (h : Grown needs order) : order.length ≤ needs.length := by
  simpa using h.subperm_range.length_le

theorem perm_range (h : Grown needs order) (hl : order.length = needs.length) :
    order.Perm (List.range needs.length) := by
  refine h.subperm_range.perm_of_length_le ?_
  rw [List.length_range]
  exact Nat.le_of_eq hl.symm

theorem needs_subset (h : Grown needs order) : ∀ i ∈ order, needs.getD i [] ⊆ order := by
  induction h with
  | nil => simp
  | snoc _ hi ih =>
    intro i hm
    apply List.subset_append_of_subset_left
    rcases List.mem_append.mp hm with hm | hm
    · exact ih i hm
    · exact List.mem_singleton.mp hm ▸ (nextReady_eq_some hi).2.2

end Grown

/-! ### Depths -/

theorem le_foldl_max {α : Type} (f : α → Nat) (xs : List α) (m : Nat) :
    m ≤ xs.foldl (fun m x => max m (f x)) m ∧
      ∀ x ∈ xs, f x ≤ xs.foldl (fun m x => max m (f x)) m := by
  induction xs generalizing m with
  | nil => simp
  | cons y ys ih =>
    obtain ⟨hm, hx⟩ := ih (max m (f y))
    refine ⟨le_trans (le_max_left _ _) hm, ?_⟩
    intro x h
    rcases List.mem_cons.mp h with rfl | h
    · exact le_trans (le_max_right _ _) hm
    · exact hx x h

theorem foldl_max_eq {α : Type} (f : α → Nat) (xs : List α) (m : Nat) :
    xs.foldl (fun m x => max m (f x)) m = m ∨
      ∃ x ∈ xs, xs.foldl (fun m x => max m (f x)) m = f x := by
  induction xs generalizing m with
  | nil => exact .inl rfl
  | cons y ys ih =>
    rw [List.foldl_cons]
    rcases ih (max m (f y)) with hmax | ⟨x, hx, hmax⟩
    · rcases Nat.le_total m (f y) with hle | hle
      · rw [hmax, max_eq_right hle]
        exact .inr ⟨y, List.mem_cons_self, rfl⟩
      · rw [hmax, max_eq_left hle]
        exact .inl rfl
    · exact .inr ⟨x, List.mem_cons_of_mem y hx, hmax⟩

theorem lt_depthAbove (depths : List Nat) {below : List Nat} {j : Nat} (h : j ∈ below) :
    depths.getD j 0 < depthAbove depths below :=
  (le_foldl_max (fun j => depths.getD j 0 + 1) below 0).2 j h

theorem exists_of_depthAbove_eq_succ {depths below : List Nat} {d : Nat}
    (h : depthAbove depths below = d + 1) : ∃ j ∈ below, depths.getD j 0 = d := by
  rcases foldl_max_eq (fun j => depths.getD j 0 + 1) below 0 with hzero | ⟨j, hj, hmax⟩
  · cases h.symm.trans hzero
  · exact ⟨j, hj, Nat.succ.inj (hmax.symm.trans h)⟩

theorem depthsAlong_snoc (needs : List (List Nat)) (placed : List Nat) (i : Nat) :
    depthsAlong needs (placed ++ [i]) =
      (depthsAlong needs placed).set i
        (depthAbove (depthsAlong needs placed) (needs.getD i [])) := by
  simp [depthsAlong, List.foldl_append]

@[simp] theorem depthsAlong_length (needs : List (List Nat)) (order : List Nat) :
    (depthsAlong needs order).length = needs.length := by
  induction order using List.reverseRecOn with
  | nil => simp [depthsAlong]
  | append_singleton order i ih => rw [depthsAlong_snoc, List.length_set, ih]

theorem depthAbove_congr {depths depths' below : List Nat}
    (h : ∀ j ∈ below, depths.getD j 0 = depths'.getD j 0) :
    depthAbove depths below = depthAbove depths' below := by
  refine List.foldl_ext _ _ _ fun m j hj => ?_
  rw [h j hj]

theorem depth_of_placed {needs : List (List Nat)} {placed : List Nat} {i j : Nat}
    (hi : nextReady needs placed = some i) (hj : j ∈ placed) :
    (depthsAlong needs (placed ++ [i])).getD j 0 = (depthsAlong needs placed).getD j 0 := by
  have hne : i ≠ j := by
    rintro rfl
    exact (nextReady_eq_some hi).2.1 hj
  rw [depthsAlong_snoc]
  simp [List.getElem?_set_ne hne]

theorem depth_of_nextReady {needs : List (List Nat)} {placed : List Nat} {i : Nat}
    (hi : nextReady needs placed = some i) : (depthsAlong needs (placed ++ [i])).getD i 0 =
      depthAbove (depthsAlong needs placed) (needs.getD i []) := by
  rw [depthsAlong_snoc]
  simp [(nextReady_eq_some hi).1]

/-- Depths stay as they were filled in, since what a position needs has been placed before it. -/
theorem Grown.depth_eq {needs : List (List Nat)} {order : List Nat} (h : Grown needs order) :
    ∀ i ∈ order, (depthsAlong needs order).getD i 0 =
      depthAbove (depthsAlong needs order) (needs.getD i []) := by
  induction h with
  | nil => simp
  | @snoc placed k hp hk ih =>
    have hneeds := (nextReady_eq_some hk).2.2
    intro i hi
    rcases List.mem_append.mp hi with hi | hi
    · rw [depth_of_placed hk hi, ih i hi]
      exact depthAbove_congr fun j hj => (depth_of_placed hk (hp.needs_subset i hi hj)).symm
    · obtain rfl := List.mem_singleton.mp hi
      rw [depth_of_nextReady hk]
      exact depthAbove_congr fun j hj => (depth_of_placed hk (hneeds hj)).symm

theorem Grown.depth_lt {needs : List (List Nat)} {order : List Nat} (h : Grown needs order) :
    ∀ i ∈ order, ∀ j ∈ needs.getD i [],
      (depthsAlong needs order).getD j 0 < (depthsAlong needs order).getD i 0 := by
  intro i hi j hj
  rw [h.depth_eq i hi]
  exact lt_depthAbove _ hj

/-! ### Plans -/

theorem firstRepeated_eq_none_iff {seen ids : List String} :
    firstRepeated seen ids = none ↔ ids.Nodup ∧ ∀ id ∈ ids, id ∉ seen := by
  induction ids generalizing seen with
  | nil => simp [firstRepeated]
  | cons id ids ih =>
    unfold firstRepeated
    by_cases hs : id ∈ seen
    · simp [hs]
    · simp only [List.contains_iff_mem, hs, if_false, ih, List.nodup_cons, List.mem_cons, not_or,
        forall_eq_or_imp]
      constructor
      · rintro ⟨hn, hd⟩
        exact ⟨⟨fun hm => (hd id hm).1 rfl, hn⟩, not_false, fun d hm => (hd d hm).2⟩
      · rintro ⟨⟨hout, hn⟩, -, hd⟩
        refine ⟨hn, fun d hm => ⟨?_, hd d hm⟩⟩
        rintro rfl
        exact hout hm

theorem firstRepeated_eq_some {seen ids : List String} {id : String}
    (h : firstRepeated seen ids = some id) : id ∈ ids ∧ (id ∈ seen ∨ 2 ≤ ids.count id) := by
  induction ids generalizing seen with
  | nil => cases h
  | cons x ids ih =>
    unfold firstRepeated at h
    split at h
    · rename_i hs
      cases h
      exact ⟨List.mem_cons_self, Or.inl (by simpa using hs)⟩
    · obtain ⟨hm, hid⟩ := ih h
      refine ⟨List.mem_cons_of_mem x hm, ?_⟩
      by_cases hx : x = id
      · subst hx
        have hpos := List.count_pos_iff.mpr hm
        rw [List.count_cons_self]
        exact Or.inr (by omega)
      · rw [List.count_cons_of_ne hx]
        rcases hid with hid | hid
        · exact Or.inl ((List.mem_cons.mp hid).resolve_left (Ne.symm hx))
        · exact Or.inr hid

theorem dependencyError?_eq_none_iff {s : JobStage} {known later : List String} {job : Job}
    {d : String} : dependencyError? s known later job d = none ↔
      d ∈ s.ids ∨ d ∈ known ∧ d ∉ later := by
  unfold dependencyError?
  by_cases hs : d ∈ s.ids
  · simp [hs]
  · by_cases hl : d ∈ later
    · simp [hs, hl]
    · by_cases hk : d ∈ known <;> simp [hs, hl, hk]

theorem dependencyError?_eq_some {s : JobStage} {known later : List String} {job : Job}
    {d : String} {e : PlanError} (h : dependencyError? s known later job d = some e) :
    d ∈ later ∧ e = .laterStage job.id s.name d ∨
      d ∉ s.ids ∧ d ∉ later ∧ d ∉ known ∧ e = .unknownDependency job.id d := by
  unfold dependencyError? at h
  by_cases hs : d ∈ s.ids
  · simp [hs] at h
  · by_cases hl : d ∈ later
    · have he : PlanError.laterStage job.id s.name d = e := by simpa [hs, hl] using h
      exact Or.inl ⟨hl, he.symm⟩
    · by_cases hk : d ∈ known
      · simp [hs, hl, hk] at h
      · have he : PlanError.unknownDependency job.id d = e := by simpa [hs, hl, hk] using h
        exact Or.inr ⟨hs, hl, hk, he.symm⟩

/-- What a plan of a stage promises. -/
structure StagePlanned (known : List String) (s : JobStage) (p : StagePlan) : Prop where
  grown : Grown s.needs p.order
  full : p.order.Perm (List.range s.jobs.length)
  depths : p.depths = depthsAlong s.needs p.order
  known : ∀ job ∈ s.jobs, ∀ d ∈ job.dependencies, d ∈ s.ids ∨ d ∈ known

@[simp] theorem JobStage.needs_length (s : JobStage) : s.needs.length = s.jobs.length := by
  simp [JobStage.needs]

theorem planStage_ok {known later : List String} {s : JobStage} {p : StagePlan}
    (h : planStage known later s = .ok p) : StagePlanned known s p := by
  unfold planStage at h
  split at h
  · cases h
  · rename_i hd
    simp only at h
    split at h
    · rename_i hl
      cases h
      refine ⟨grown_runningOrder _, ?_, rfl, ?_⟩
      · have hp := (grown_runningOrder s.needs).perm_range (by simpa using hl)
        simpa using hp
      · intro job hj d hm
        have hjob := List.findSome?_eq_none_iff.mp hd job hj
        have hdep := List.findSome?_eq_none_iff.mp hjob d hm
        exact (dependencyError?_eq_none_iff.mp hdep).imp_right And.left
    · cases h

/-- Plans for all stages, where each stage may also name the ids of those before it. -/
def Planned : List String → List JobStage → List StagePlan → Prop
  | _, [], [] => True
  | known, s :: ss, p :: ps => StagePlanned known s p ∧ Planned (known ++ s.ids) ss ps
  | _, _, _ => False

theorem planStages_ok {known : List String} {stages : List JobStage} {plans : List StagePlan}
    (h : planStages known stages = .ok plans) : Planned known stages plans := by
  induction stages generalizing known plans with
  | nil =>
    cases h
    trivial
  | cons s rest ih =>
    unfold planStages at h
    cases hs : planStage known (rest.flatMap JobStage.ids) s with
    | error e =>
      rw [hs] at h
      cases h
    | ok p =>
      cases hr : planStages (known ++ s.ids) rest with
      | error e =>
        rw [hs, hr] at h
        cases h
      | ok ps =>
        rw [hs, hr] at h
        cases h
        exact ⟨planStage_ok hs, ih hr⟩

theorem Planned.length_eq {known : List String} {stages : List JobStage} {plans : List StagePlan}
    (h : Planned known stages plans) : stages.length = plans.length := by
  induction stages generalizing known plans with
  | nil =>
    cases plans with
    | nil => rfl
    | cons p plans => exact h.elim
  | cons s stages ih =>
    cases plans with
    | nil => exact h.elim
    | cons p plans => rw [List.length_cons, List.length_cons, ih h.2]

theorem plan_ok {stages : List JobStage} {done : List String} {plans : List StagePlan}
    (h : plan stages done = .ok plans) :
    (stages.flatMap JobStage.ids).Nodup ∧ (∀ id ∈ stages.flatMap JobStage.ids, id ∉ done) ∧
      Planned done stages plans := by
  unfold plan at h
  split at h
  · cases h
  · rename_i hd
    obtain ⟨hn, hf⟩ := firstRepeated_eq_none_iff.mp hd
    exact ⟨hn, hf, planStages_ok h⟩

end Changeover
