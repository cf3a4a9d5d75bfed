import Changeover.Proofs.Plan.Batches
import Changeover.Run

/-!
# Schedules

The batches of all planned stages in a row. No dependency of an action is left for its own batch or
a later one, all actions come up once, and one at a time they come up in plan order.
-/

namespace Changeover

namespace Stage

variable {s : Stage} {known : List String} {p : StagePlan} {i : Nat} {a : Action}

@[simp] theorem jobs_ids (s : Stage) : s.jobs.ids = s.actions.map (·.id) := by
  simp [jobs, JobStage.ids, Action.job]

theorem needs_getD (h : s.actions[i]? = some a) :
    s.jobs.needs.getD i [] = a.dependencies.filterMap fun d => s.jobs.ids.idxOf? d := by
  simp [JobStage.needs, jobs, Action.job, h]

theorem job_mem (h : s.actions[i]? = some a) : a.job ∈ s.jobs.jobs :=
  List.mem_map_of_mem (List.mem_of_getElem? h)

theorem exists_need (h : s.actions[i]? = some a) {d : String} (hd : d ∈ a.dependencies)
    (hs : d ∈ s.jobs.ids) :
    ∃ j b, j ∈ s.jobs.needs.getD i [] ∧ s.actions[j]? = some b ∧ b.id = d := by
  obtain ⟨j, hj⟩ := Option.isSome_iff_exists.mp (List.isSome_idxOf?.mpr hs)
  obtain ⟨hlt, hid, _⟩ := List.findIdx?_eq_some_iff_getElem.mp hj
  rw [beq_iff_eq] at hid
  have hlt' : j < s.actions.length := by simpa using hlt
  refine ⟨j, s.actions[j], ?_, List.getElem?_eq_getElem hlt', ?_⟩
  · rw [needs_getD h]
    exact List.mem_filterMap.mpr ⟨d, hd, hj⟩
  · simpa using hid

theorem inOrder_actions (hp : StagePlanned known s.jobs p) {batches : List (List Nat)}
    {placed : List Nat} {there : List String}
    (h : InOrder (s.jobs.needs.getD · []) id placed batches) (hk : known ⊆ there)
    (hplaced : ∀ j ∈ placed, ∀ b, s.actions[j]? = some b → b.id ∈ there) :
    InOrder Action.dependencies Action.id there
      (batches.map fun batch => batch.filterMap (s.actions[·]?)) := by
  induction batches generalizing placed there with
  | nil => trivial
  | cons batch batches ih =>
    obtain ⟨hb, hrest⟩ := h
    refine ⟨?_, ih hrest (List.subset_append_of_subset_left _ hk) ?_⟩
    · intro a ha d hd
      obtain ⟨i, hi, hia⟩ := List.mem_filterMap.mp ha
      rcases hp.known a.job (job_mem hia) d hd with hd' | hd'
      · obtain ⟨j, b, hj, hjb, rfl⟩ := exists_need hia hd hd'
        exact hplaced j (hb i hi hj) b hjb
      · exact hk hd'
    · intro j hj b hjb
      rcases List.mem_append.mp hj with hj | hj
      · exact List.mem_append_left _ (hplaced j hj b hjb)
      · apply List.mem_append_right
        rw [List.map_id] at hj
        exact List.mem_map_of_mem (List.mem_filterMap.mpr ⟨j, hj, hjb⟩)

end Stage

theorem filterMap_range_getElem? {α : Type} (xs : List α) :
    (List.range xs.length).filterMap (xs[·]?) = xs := by
  induction xs using List.reverseRecOn with
  | nil => rfl
  | append_singleton xs x ih =>
    rw [List.length_append, List.length_singleton, List.range_succ, List.filterMap_append]
    have hold : (List.range xs.length).filterMap ((xs ++ [x])[·]?) =
        (List.range xs.length).filterMap (xs[·]?) := by
      apply List.filterMap_congr
      intro i hi
      exact List.getElem?_append_left (List.mem_range.mp hi)
    rw [hold, ih]
    simp

def StagePlan.actions (p : StagePlan) (s : Stage) : List Action := p.order.filterMap (s.actions[·]?)

namespace Runner

variable {settings : Settings} {known : List String} {s : Stage} {p : StagePlan}

theorem flatten_batchesOf (r : Runner) (s : Stage) (p : StagePlan) :
    (r.batchesOf (s, p)).flatten = (r.batches p s.actions).flatten.filterMap (s.actions[·]?) := by
  simp [batchesOf, List.filterMap_flatten]

theorem batchesOf_perm (hp : StagePlanned known s.jobs p) :
    ((ofSettings settings).batchesOf (s, p)).flatten.Perm s.actions := by
  have hall := ((hp.batches settings.parallel s.actions).1.trans hp.full).filterMap (s.actions[·]?)
  rw [flatten_batchesOf]
  refine hall.trans (List.Perm.of_eq ?_)
  rw [Stage.jobs, List.length_map]
  exact filterMap_range_getElem? s.actions

theorem batchesOf_inOrder (hp : StagePlanned known s.jobs p) :
    InOrder Action.dependencies Action.id known ((ofSettings settings).batchesOf (s, p)) := by
  refine Stage.inOrder_actions hp (hp.batches settings.parallel s.actions).2 (fun _ h => h) ?_
  intro j hj
  simp at hj

theorem batchesOf_single (h : settings.parallel = false) (s : Stage) (p : StagePlan) :
    ((ofSettings settings).batchesOf (s, p)).flatten = p.actions s := by
  rw [flatten_batchesOf]
  simp only [ofSettings, batchesFor, h, Bool.false_eq_true, if_false]
  exact congrArg (List.filterMap (s.actions[·]?)) (flatten_map_singleton p.order)

/-- The batches of all stages in a row, each with the name of its stage. -/
def schedule (r : Runner) (stages : List (Stage × StagePlan)) : List (String × List Action) :=
  stages.flatMap fun stage => (r.batchesOf stage).map (stage.1.name, ·)

end Runner

def workOf (batches : List (String × List Action)) : List (String × Action) :=
  batches.flatMap fun batch => batch.2.map (batch.1, ·)

@[simp] theorem workOf_append (bs cs : List (String × List Action)) :
    workOf (bs ++ cs) = workOf bs ++ workOf cs := by
  simp [workOf]

theorem workOf_map (name : String) (batches : List (List Action)) :
    workOf (batches.map (name, ·)) = batches.flatten.map (name, ·) := by
  rw [workOf, List.flatMap_map, List.flatMap_def, List.map_flatten]

/-- What there is to do: the actions of all stages, each with the name of its stage. -/
def workIn (stages : List Stage) : List (String × Action) :=
  stages.flatMap fun s => s.actions.map (s.name, ·)

/-- The same in plan order. -/
def plannedWork (stages : List (Stage × StagePlan)) : List (String × Action) :=
  stages.flatMap fun stage => (stage.2.actions stage.1).map (stage.1.name, ·)

namespace Runner

variable {settings : Settings}

theorem schedule_cons (r : Runner) (s : Stage) (p : StagePlan) (rest : List (Stage × StagePlan)) :
    r.schedule ((s, p) :: rest) = (r.batchesOf (s, p)).map (s.name, ·) ++ r.schedule rest :=
  rfl

theorem work_schedule_perm {known : List String} {stages : List Stage} {plans : List StagePlan}
    (hp : Planned known (stages.map Stage.jobs) plans) :
    (workOf ((ofSettings settings).schedule (stages.zip plans))).Perm (workIn stages) := by
  induction stages generalizing known plans with
  | nil => exact List.Perm.refl _
  | cons s stages ih =>
    cases plans with
    | nil => exact hp.elim
    | cons p plans =>
      obtain ⟨hs, hrest⟩ := hp
      rw [List.zip_cons_cons, schedule_cons, workOf_append, workOf_map]
      exact ((batchesOf_perm hs).map _).append (ih hrest)

theorem zip_plans_fst {known : List String} {stages : List Stage} {plans : List StagePlan}
    (hp : Planned known (stages.map Stage.jobs) plans) : (stages.zip plans).map (·.1) = stages := by
  apply List.map_fst_zip
  have hlength := hp.length_eq
  rw [List.length_map] at hlength
  exact hlength.le

theorem schedule_inOrder {known : List String} {stages : List Stage} {plans : List StagePlan}
    (hp : Planned known (stages.map Stage.jobs) plans) :
    InOrder Action.dependencies Action.id known
      (((ofSettings settings).schedule (stages.zip plans)).map (·.2)) := by
  induction stages generalizing known plans with
  | nil => trivial
  | cons s stages ih =>
    cases plans with
    | nil => exact hp.elim
    | cons p plans =>
      obtain ⟨hs, hrest⟩ := hp
      rw [List.zip_cons_cons, schedule_cons, List.map_append, inOrder_append, List.map_map]
      have hfst : ((·.2) ∘ (s.name, ·) : List Action → List Action) = id := rfl
      rw [hfst, List.map_id]
      refine ⟨batchesOf_inOrder hs, (ih hrest).mono ?_⟩
      rw [Stage.jobs_ids]
      intro d hd
      rcases List.mem_append.mp hd with hd | hd
      · exact List.mem_append_left _ hd
      · exact List.mem_append_right _ (((batchesOf_perm hs).map _).mem_iff.mpr hd)

theorem length_le_of_mem_schedule (h : settings.parallel = false)
    {stages : List (Stage × StagePlan)} {b : String × List Action}
    (hb : b ∈ (ofSettings settings).schedule stages) : b.2.length ≤ 1 := by
  obtain ⟨stage, -, hb⟩ := List.mem_flatMap.mp hb
  obtain ⟨actions, ha, rfl⟩ := List.mem_map.mp hb
  obtain ⟨positions, hp, rfl⟩ := List.mem_map.mp ha
  simp only [ofSettings, batchesFor, h, Bool.false_eq_true, if_false] at hp
  obtain ⟨i, -, rfl⟩ := List.mem_map.mp hp
  exact List.length_filterMap_le _ [i]

theorem work_schedule_single (h : settings.parallel = false) (stages : List (Stage × StagePlan)) :
    workOf ((ofSettings settings).schedule stages) = plannedWork stages := by
  induction stages with
  | nil => rfl
  | cons stage stages ih =>
    obtain ⟨s, p⟩ := stage
    rw [schedule_cons, workOf_append, workOf_map, batchesOf_single h, ih]
    rfl

end Runner

end Changeover
