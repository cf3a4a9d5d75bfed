import Changeover.Proofs.Plan.Acyclic

/-!
# Which stages have a plan

There is a plan exactly if ids are used once, dependencies name something that comes before or is in
the same stage, and no stage has a circle of dependencies. The plan is then told by each stage on
its own. Where there is none, the error names something that is really wrong.
-/

namespace Changeover

/-- What stages must be like, where the ids of `done` may be depended on and not be used again. -/
structure Resolvable (stages : List JobStage) (done : List String) : Prop where
  distinct : (stages.flatMap JobStage.ids).Nodup
  fresh : ∀ id ∈ stages.flatMap JobStage.ids, id ∉ done
  known : ∀ before s after, stages = before ++ s :: after → ∀ job ∈ s.jobs,
    ∀ d ∈ job.dependencies, d ∈ s.ids ∨ d ∈ before.flatMap JobStage.ids ∨ d ∈ done
  acyclic : ∀ s ∈ stages, s.Acyclic

/-- What an error says is wrong with the stages is wrong with them. -/
inductive PlanError.Blames (stages : List JobStage) (done : List String) : PlanError → Prop
  | duplicate {id : String} : id ∈ stages.flatMap JobStage.ids →
    (id ∈ done ∨ 2 ≤ (stages.flatMap JobStage.ids).count id) → Blames stages done (.duplicate id)
  | unknownDependency {s : JobStage} {job : Job} {d : String} : s ∈ stages → job ∈ s.jobs →
    d ∈ job.dependencies → d ∉ stages.flatMap JobStage.ids → d ∉ done →
    Blames stages done (.unknownDependency job.id d)
  | laterStage {before after : List JobStage} {s : JobStage} {job : Job} {d : String} :
    stages = before ++ s :: after → job ∈ s.jobs → d ∈ job.dependencies →
    d ∈ after.flatMap JobStage.ids → Blames stages done (.laterStage job.id s.name d)
  | cycle {s : JobStage} {ids : List String} : s ∈ stages → ids ⊆ s.ids →
    (∃ x ∈ ids, Relation.TransGen s.Links x x) → Blames stages done (.cycle ids)

def JobStage.planned (s : JobStage) : StagePlan :=
  ⟨s.name, runningOrder s.needs, depthsAlong s.needs (runningOrder s.needs)⟩

/-! ### One stage -/

section

variable {known later : List String} {s : JobStage} {p : StagePlan} {e : PlanError}

theorem planStage_eq_ok_iff (hn : s.ids.Nodup) : planStage known later s = .ok p ↔
    (∀ job ∈ s.jobs, ∀ d ∈ job.dependencies, d ∈ s.ids ∨ d ∈ known ∧ d ∉ later) ∧
      s.Acyclic ∧ p = s.planned := by
  unfold planStage
  split
  · rename_i e he
    refine iff_of_false (fun h => nomatch h) ?_
    rintro ⟨hall, -, -⟩
    obtain ⟨job, hjob, hf⟩ := List.exists_of_findSome?_eq_some he
    obtain ⟨d, hd, hf⟩ := List.exists_of_findSome?_eq_some hf
    rw [dependencyError?_eq_none_iff.mpr (hall job hjob d hd)] at hf
    cases hf
  · rename_i hnone
    have hall : ∀ job ∈ s.jobs, ∀ d ∈ job.dependencies, d ∈ s.ids ∨ d ∈ known ∧ d ∉ later := by
      intro job hjob d hd
      have hnone' := List.findSome?_eq_none_iff.mp hnone job hjob
      exact dependencyError?_eq_none_iff.mp (List.findSome?_eq_none_iff.mp hnone' d hd)
    simp only
    split
    · rename_i hl
      rw [Except.ok.injEq, eq_comm]
      exact ⟨fun h => ⟨hall, (JobStage.length_runningOrder_iff hn).mp hl, h⟩, fun h => h.2.2⟩
    · rename_i hl
      refine iff_of_false (fun h => nomatch h) ?_
      rintro ⟨-, hacyclic, -⟩
      exact hl ((JobStage.length_runningOrder_iff hn).mpr hacyclic)

theorem planStage_error (h : planStage known later s = .error e) :
    (∃ job ∈ s.jobs, ∃ d ∈ job.dependencies, dependencyError? s known later job d = some e) ∨
      (runningOrder s.needs).length ≠ s.jobs.length ∧ ∃ ids, e = .cycle ids ∧ ∀ x, x ∈ ids ↔
        ∃ i < s.jobs.length, i ∉ runningOrder s.needs ∧ s.ids[i]? = some x := by
  unfold planStage at h
  split at h
  · rename_i he
    cases h
    obtain ⟨job, hjob, hf⟩ := List.exists_of_findSome?_eq_some he
    obtain ⟨d, hd, hf⟩ := List.exists_of_findSome?_eq_some hf
    exact .inl ⟨job, hjob, d, hd, hf⟩
  · simp only at h
    split at h
    · cases h
    · rename_i hl
      cases h
      refine .inr ⟨hl, _, rfl, fun x => ?_⟩
      simp [and_assoc]

end

/-! ### Stages in a row -/

theorem forall_split_cons {α : Type} {x : α} {xs : List α} {P : List α → α → List α → Prop} :
    (∀ before y after, x :: xs = before ++ y :: after → P before y after) ↔
      P [] x xs ∧ ∀ before y after, xs = before ++ y :: after → P (x :: before) y after := by
  constructor
  · intro h
    refine ⟨h [] x xs rfl, ?_⟩
    rintro before y after rfl
    exact h (x :: before) y after rfl
  · rintro ⟨hfirst, hrest⟩ before y after heq
    rcases List.cons_eq_append_iff.mp heq with ⟨rfl, hcons⟩ | ⟨before', rfl, htail⟩
    · cases hcons
      exact hfirst
    · exact hrest before' y after htail

section

variable {known done : List String} {s : JobStage} {stages before after : List JobStage}
  {plans : List StagePlan} {e : PlanError}

theorem planStages_cons_eq_ok_iff :
    planStages known (s :: stages) = .ok plans ↔ ∃ p ps,
      planStage known (stages.flatMap JobStage.ids) s = .ok p ∧
        planStages (known ++ s.ids) stages = .ok ps ∧ plans = p :: ps := by
  rw [planStages]
  cases planStage known (stages.flatMap JobStage.ids) s with
  | error e => exact iff_of_false (fun h => nomatch h) (by simp)
  | ok p =>
    cases planStages (known ++ s.ids) stages with
    | error e => exact iff_of_false (fun h => nomatch h) (by simp)
    | ok ps =>
      simp only [Except.ok.injEq, exists_and_left, exists_eq_left']
      exact ⟨fun h => (Except.ok.inj h).symm, fun h => congrArg Except.ok h.symm⟩

theorem planStages_eq_ok_iff (hn : ∀ s ∈ stages, s.ids.Nodup) :
    planStages known stages = .ok plans ↔
      (∀ before s after, stages = before ++ s :: after → ∀ job ∈ s.jobs,
        ∀ d ∈ job.dependencies, d ∈ s.ids ∨
          d ∈ known ++ before.flatMap JobStage.ids ∧ d ∉ after.flatMap JobStage.ids) ∧
      (∀ s ∈ stages, s.Acyclic) ∧ plans = stages.map JobStage.planned := by
  induction stages generalizing known plans with
  | nil => simp [planStages, eq_comm]
  | cons s rest ih =>
    have hrest := fun known plans =>
      @ih known plans fun s' hs' => hn s' (List.mem_cons_of_mem _ hs')
    simp only [planStages_cons_eq_ok_iff, planStage_eq_ok_iff (hn s List.mem_cons_self), hrest,
      forall_split_cons, List.flatMap_nil, List.append_nil, List.flatMap_cons, List.append_assoc,
      List.forall_mem_cons, List.map_cons]
    constructor
    · rintro ⟨p, ps, ⟨hdeps, hs, rfl⟩, ⟨hdeps', hs', rfl⟩, rfl⟩
      exact ⟨⟨hdeps, hdeps'⟩, ⟨hs, hs'⟩, rfl⟩
    · rintro ⟨⟨hdeps, hdeps'⟩, ⟨hs, hs'⟩, rfl⟩
      exact ⟨_, _, ⟨hdeps, hs, rfl⟩, ⟨hdeps', hs', rfl⟩, rfl⟩

theorem planStages_cons_eq_error_iff : planStages known (s :: stages) = .error e ↔
    planStage known (stages.flatMap JobStage.ids) s = .error e ∨
      (∃ p, planStage known (stages.flatMap JobStage.ids) s = .ok p) ∧
        planStages (known ++ s.ids) stages = .error e := by
  rw [planStages]
  cases planStage known (stages.flatMap JobStage.ids) s with
  | error e' => simp [bind, Except.bind]
  | ok p =>
    cases planStages (known ++ s.ids) stages with
    | error e' => simp [bind, Except.bind]
    | ok ps => simp [bind, Except.bind, pure, Except.pure]

theorem planStages_eq_error_iff : planStages known stages = .error e ↔
    ∃ before s after, stages = before ++ s :: after ∧
      (∀ b t a, before = b ++ t :: a → ∃ p, planStage (known ++ b.flatMap JobStage.ids)
        ((a ++ s :: after).flatMap JobStage.ids) t = .ok p) ∧
      planStage (known ++ before.flatMap JobStage.ids) (after.flatMap JobStage.ids) s =
        .error e := by
  induction stages generalizing known with
  | nil => simp [planStages]
  | cons t rest ih =>
    rw [planStages_cons_eq_error_iff, ih]
    constructor
    · rintro (hfirst | ⟨hfirst, before, s, after, rfl, hearlier, hs⟩)
      · exact ⟨[], t, rest, rfl, by simp, by simpa using hfirst⟩
      · refine ⟨t :: before, s, after, rfl, ?_, by simpa using hs⟩
        rw [forall_split_cons]
        exact ⟨by simpa using hfirst, fun b u a heq => by simpa using hearlier b u a heq⟩
    · rintro ⟨before, s, after, heq, hearlier, hs⟩
      rcases List.cons_eq_append_iff.mp heq with ⟨rfl, hcons⟩ | ⟨before, rfl, rfl⟩
      · cases hcons
        exact .inl (by simpa using hs)
      · rw [forall_split_cons] at hearlier
        refine .inr ⟨by simpa using hearlier.1, before, s, after, rfl, ?_, by simpa using hs⟩
        intro b u a hb
        simpa using hearlier.2 b u a hb

/-! ### Plans -/

theorem nodup_of_split (h : ((before ++ s :: after).flatMap JobStage.ids).Nodup) {d : String}
    (hd : d ∈ before.flatMap JobStage.ids) : d ∉ after.flatMap JobStage.ids := by
  rw [List.flatMap_append, List.flatMap_cons] at h
  intro hd'
  exact List.disjoint_of_nodup_append h hd (List.mem_append_right _ hd')

/-- Where no id is used twice or again, none that is known is one of a later stage. -/
theorem mem_known_iff (hn : ((before ++ s :: after).flatMap JobStage.ids).Nodup)
    (hf : ∀ id ∈ (before ++ s :: after).flatMap JobStage.ids, id ∉ done) {d : String} :
    d ∈ done ++ before.flatMap JobStage.ids ∧ d ∉ after.flatMap JobStage.ids ↔
      d ∈ before.flatMap JobStage.ids ∨ d ∈ done := by
  rw [List.mem_append, or_comm, and_iff_left_iff_imp]
  rintro (hbefore | hdone) hafter
  · exact nodup_of_split hn hbefore hafter
  · refine hf d ?_ hdone
    rw [List.flatMap_append, List.flatMap_cons]
    exact List.mem_append_right _ (List.mem_append_right _ hafter)

theorem plan_eq_ok_iff : plan stages done = .ok plans ↔
    Resolvable stages done ∧ plans = stages.map JobStage.planned := by
  unfold plan
  cases hfirst : firstRepeated done (stages.flatMap JobStage.ids) with
  | some id =>
    refine iff_of_false (fun h => nomatch h) ?_
    rintro ⟨hr, -⟩
    rw [firstRepeated_eq_none_iff.mpr ⟨hr.distinct, hr.fresh⟩] at hfirst
    cases hfirst
  | none =>
    obtain ⟨hn, hf⟩ := firstRepeated_eq_none_iff.mp hfirst
    simp only
    rw [planStages_eq_ok_iff (List.nodup_flatMap.mp hn).1]
    constructor
    · rintro ⟨hdeps, hacyclic, hplans⟩
      refine ⟨⟨hn, hf, ?_, hacyclic⟩, hplans⟩
      rintro before s after rfl job hjob d hd
      exact (hdeps before s after rfl job hjob d hd).imp_right (mem_known_iff hn hf).mp
    · rintro ⟨hr, hplans⟩
      refine ⟨?_, hr.acyclic, hplans⟩
      rintro before s after rfl job hjob d hd
      exact (hr.known before s after rfl job hjob d hd).imp_right (mem_known_iff hn hf).mpr

theorem blames_of_plan_error (h : plan stages done = .error e) : e.Blames stages done := by
  unfold plan at h
  split at h
  · rename_i id hfirst
    cases h
    obtain ⟨hid, hwhy⟩ := firstRepeated_eq_some hfirst
    exact .duplicate hid hwhy
  · obtain ⟨before, s, after, rfl, -, hs⟩ := planStages_eq_error_iff.mp h
    rcases planStage_error hs with ⟨job, hjob, d, hd, hwhy⟩ | ⟨hl, ids, rfl, hids⟩
    · rcases dependencyError?_eq_some hwhy with ⟨hlater, rfl⟩ | ⟨hout, hlater, hknown, rfl⟩
      · exact .laterStage rfl hjob hd hlater
      · rw [List.mem_append, not_or] at hknown
        refine .unknownDependency (s := s) (by simp) hjob hd ?_ hknown.1
        simp only [List.flatMap_append, List.flatMap_cons, List.mem_append, not_or]
        exact ⟨hknown.2, hout, hlater⟩
    · obtain ⟨i, hi, hout, x, hx, hcircle⟩ := JobStage.exists_left_of_length hl
      refine .cycle (s := s) (by simp) ?_ ⟨x, (hids x).mpr ⟨i, hi, hout, hx⟩, hcircle⟩
      intro y hy
      obtain ⟨j, -, -, hj⟩ := (hids y).mp hy
      exact List.mem_of_getElem? hj

end

/-- Stages have a plan exactly if they are resolvable, and if they have none, the error says why. -/
theorem plan_iff_resolvable (stages : List JobStage) (done : List String) :
    ((∃ plans, plan stages done = .ok plans) ↔ Resolvable stages done) ∧
      ∀ e, plan stages done = .error e → e.Blames stages done := by
  refine ⟨?_, fun e => blames_of_plan_error⟩
  constructor
  · rintro ⟨plans, h⟩
    exact (plan_eq_ok_iff.mp h).1
  · intro h
    exact ⟨_, plan_eq_ok_iff.mpr ⟨h, rfl⟩⟩

/-- A job depends on one of an earlier stage and on an id that is done; beside it are two jobs in a
circle, which has no plan, and the error names those two. -/
theorem plan_iff_resolvable_circle :
    let first : JobStage := ⟨"first", [⟨"a", []⟩]⟩
    let second : JobStage := ⟨"second", [⟨"b", ["a", "x"]⟩]⟩
    let circle : JobStage := ⟨"second", [⟨"b", ["c", "a"]⟩, ⟨"c", ["b"]⟩, ⟨"d", ["x"]⟩]⟩
    Resolvable [first, second] ["x"] ∧ ¬ Resolvable [first, circle] ["x"] ∧
      plan [first, circle] ["x"] = .error (.cycle ["b", "c"]) ∧
      (PlanError.cycle ["b", "c"]).Blames [first, circle] ["x"] := by
  intro first second circle
  have hok : plan [first, second] ["x"] = .ok [⟨"first", [0], [0]⟩, ⟨"second", [0], [0]⟩] := by
    decide +kernel
  have hno : plan [first, circle] ["x"] = .error (.cycle ["b", "c"]) := by
    have hsorted : ["b", "c"].mergeSort = ["b", "c"] := List.mergeSort_of_pairwise (by decide)
    rw [← hsorted]
    rfl
  refine ⟨(plan_iff_resolvable _ _).1.mp ⟨_, hok⟩, ?_, hno, (plan_iff_resolvable _ _).2 _ hno⟩
  intro h
  obtain ⟨plans, hplans⟩ := (plan_iff_resolvable _ _).1.mpr h
  rw [hno] at hplans
  cases hplans

end Changeover
