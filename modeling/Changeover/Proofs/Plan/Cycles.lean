import Changeover.Proofs.Plan.Resolvable

/-!
# What a cycle report names

Where no running order is found, the report names the jobs that are left: exactly those of the first
stage with a circle that lie on one or depend on a job that does, however many steps away. Jobs that
are placed depend on placed jobs only, and depth falls along the way; jobs that are left lead into a
circle.
-/

namespace Changeover

/-! ### Positions -/

namespace Grown

variable {needs : List (List Nat)} {order : List Nat} {i j : Nat}

theorem mem_of_reaches (h : Grown needs order) (hi : i ∈ order)
    (hreach : Relation.ReflTransGen (fun i j => j ∈ needs.getD i []) i j) : j ∈ order := by
  induction hreach with
  | refl => exact hi
  | tail _ hneed ih => exact h.needs_subset _ ih hneed

theorem not_circle (h : Grown needs order) (hi : i ∈ order) :
    ¬ Relation.TransGen (fun i j => j ∈ needs.getD i []) i i := by
  have hfalls : ∀ j, Relation.TransGen (fun i j => j ∈ needs.getD i []) i j →
      (depthsAlong needs order).getD j 0 < (depthsAlong needs order).getD i 0 := by
    intro j hj
    induction hj with
    | single hneed => exact h.depth_lt i hi _ hneed
    | @tail k l hk hneed ih =>
      have hplaced := h.mem_of_reaches hi hk.to_reflTransGen
      exact lt_trans (h.depth_lt k hplaced l hneed) ih
  intro hcircle
  exact lt_irrefl _ (hfalls i hcircle)

end Grown

namespace JobStage

variable {s : JobStage} {i j : Nat} {x y : String}

/-- The job lies on a circle of dependencies inside the stage, or a chain of them leads from it to
one that does. -/
def Tangled (s : JobStage) (x : String) : Prop :=
  Relation.TransGen s.Links x x ∨
    ∃ y, Relation.TransGen s.Links x y ∧ Relation.TransGen s.Links y y

theorem tangled_iff : s.Tangled x ↔
    ∃ y, Relation.ReflTransGen s.Links x y ∧ Relation.TransGen s.Links y y := by
  constructor
  · rintro (hcircle | ⟨y, hreach, hcircle⟩)
    · exact ⟨x, .refl, hcircle⟩
    · exact ⟨y, hreach.to_reflTransGen, hcircle⟩
  · rintro ⟨y, hreach, hcircle⟩
    rcases Relation.reflTransGen_iff_eq_or_transGen.mp hreach with rfl | hchain
    · exact .inl hcircle
    · exact .inr ⟨y, hchain, hcircle⟩

theorem Tangled.mem_ids (h : s.Tangled x) : x ∈ s.ids := by
  obtain ⟨y, hchain⟩ : ∃ y, Relation.TransGen s.Links x y := by
    rcases h with hcircle | ⟨y, hchain, -⟩
    · exact ⟨x, hcircle⟩
    · exact ⟨y, hchain⟩
  obtain ⟨z, ⟨job, hjob, rfl, -⟩, -⟩ := Relation.TransGen.head'_iff.mp hchain
  exact List.mem_map_of_mem hjob

theorem reflTransGen_needs (hn : s.ids.Nodup) (h : Relation.ReflTransGen s.Links x y)
    (hi : s.ids[i]? = some x) (hj : s.ids[j]? = some y) :
    Relation.ReflTransGen s.Needs i j := by
  have hpos {k l : Nat} {z : String} (hk : s.ids[k]? = some z) (hl : s.ids[l]? = some z) :
      k = l :=
    (List.getElem?_inj (List.getElem?_eq_some_iff.mp hk).1 hn).mp (hk.trans hl.symm)
  induction h generalizing j with
  | refl => exact hpos hi hj ▸ .refl
  | @tail y z _ hlink ih =>
    obtain ⟨k, l, hk, hl, hneed⟩ := hlink.needs
    exact hpos hl hj ▸ (ih hk).tail hneed

/-- The positions that are left are those of the tangled jobs. -/
theorem left_iff_tangled (hn : s.ids.Nodup) (hx : s.ids[i]? = some x) :
    i ∉ runningOrder s.needs ↔ s.Tangled x := by
  rw [tangled_iff]
  constructor
  · intro hout
    have hi : i < s.jobs.length := by simpa [ids] using (List.getElem?_eq_some_iff.mp hx).1
    obtain ⟨j, -, hreach, hcircle⟩ := exists_circle_of_left hi hout
    obtain ⟨k, hneed, -⟩ := Relation.TransGen.head'_iff.mp hcircle
    obtain ⟨y, hy⟩ := exists_id hneed.lt_length.1
    refine ⟨y, ?_, transGen_links hcircle hy hy⟩
    rcases Relation.reflTransGen_iff_eq_or_transGen.mp hreach with rfl | hchain
    · have hxy : y = x := Option.some.inj (hy.symm.trans hx)
      exact hxy ▸ .refl
    · exact (transGen_links hchain hx hy).to_reflTransGen
  · rintro ⟨y, hreach, hcircle⟩ hin
    have hgrown := grown_runningOrder s.needs
    -- the circle starts with a link, so the job it starts from has a position
    obtain ⟨z, hlink, hback⟩ := Relation.TransGen.head'_iff.mp hcircle
    obtain ⟨j, k, hj, hk, hneed⟩ := hlink.needs
    have hplaced := hgrown.mem_of_reaches hin (reflTransGen_needs hn hreach hx hj)
    exact hgrown.not_circle hplaced (.head' hneed (reflTransGen_needs hn hback hk hj))

/-! ### The report of a stage -/

def leftIds (s : JobStage) : List String :=
  ((List.range s.jobs.length).filter fun i => !(runningOrder s.needs).contains i).filterMap
    fun i => s.ids[i]?

theorem mem_leftIds (hn : s.ids.Nodup) : x ∈ s.leftIds ↔ s.Tangled x := by
  constructor
  · intro hx
    obtain ⟨i, hi, hid⟩ := List.mem_filterMap.mp hx
    have hout := (List.mem_filter.mp hi).2
    rw [Bool.not_eq_true', List.contains_eq_mem, decide_eq_false_iff_not] at hout
    exact (left_iff_tangled hn hid).mp hout
  · intro hx
    obtain ⟨i, hid⟩ := List.getElem?_of_mem hx.mem_ids
    have hi : i < s.jobs.length := by simpa [ids] using (List.getElem?_eq_some_iff.mp hid).1
    refine List.mem_filterMap.mpr ⟨i, List.mem_filter.mpr ⟨List.mem_range.mpr hi, ?_⟩, hid⟩
    rw [Bool.not_eq_true', List.contains_eq_mem, decide_eq_false_iff_not]
    exact (left_iff_tangled hn hid).mpr hx

theorem leftIds_nodup (hn : s.ids.Nodup) : s.leftIds.Nodup := by
  refine List.Nodup.filterMap ?_ (List.nodup_range.filter _)
  intro i j x hi hj
  exact (List.getElem?_inj (List.getElem?_eq_some_iff.mp hi).1 hn).mp (hi.trans hj.symm)

end JobStage

theorem ascending_mergeSort {names : List String} (h : names.Nodup) :
    (names.mergeSort fun a b => decide (a ≤ b)).Pairwise (· < ·) := by
  have hsorted : (names.mergeSort fun a b => decide (a ≤ b)).Pairwise
      fun a b => decide (a ≤ b) = true := by
    refine List.pairwise_mergeSort ?_ ?_ names
    · intro a b c hab hbc
      exact decide_eq_true (String.le_trans (of_decide_eq_true hab) (of_decide_eq_true hbc))
    · intro a b
      rw [Bool.or_eq_true, decide_eq_true_iff, decide_eq_true_iff]
      exact String.le_total a b
  have hnodup := (List.mergeSort_perm names fun a b => decide (a ≤ b)).nodup_iff.mpr h
  refine hsorted.imp₂ ?_ hnodup
  intro a b hle hne
  exact Std.lt_of_le_of_ne (of_decide_eq_true hle) hne

theorem eq_of_ascending {names names' : List String} (h : names.Pairwise (· < ·))
    (h' : names'.Pairwise (· < ·)) (hmem : ∀ x, x ∈ names ↔ x ∈ names') : names = names' := by
  refine List.Perm.eq_of_pairwise ?_ h h' ?_
  · intro a b _ _ hab hba
    exact absurd hba (String.lt_asymm hab)
  · exact (List.perm_ext_iff_of_nodup (h.imp String.ne_of_lt) (h'.imp String.ne_of_lt)).mpr hmem

section

variable {known later ids : List String} {s : JobStage}

theorem planStage_eq_cycle_iff (hn : s.ids.Nodup) :
    planStage known later s = .error (.cycle ids) ↔
      (∀ job ∈ s.jobs, ∀ d ∈ job.dependencies, d ∈ s.ids ∨ d ∈ known ∧ d ∉ later) ∧
        ¬ s.Acyclic ∧ ids.Pairwise (· < ·) ∧ ∀ x, x ∈ ids ↔ s.Tangled x := by
  have hsorted := ascending_mergeSort (JobStage.leftIds_nodup hn)
  have hmem : ∀ x, x ∈ s.leftIds.mergeSort (fun a b => decide (a ≤ b)) ↔ s.Tangled x :=
    fun x => List.mem_mergeSort.trans (JobStage.mem_leftIds hn)
  unfold planStage
  split
  · rename_i e he
    obtain ⟨job, hjob, hf⟩ := List.exists_of_findSome?_eq_some he
    obtain ⟨d, hd, hf⟩ := List.exists_of_findSome?_eq_some hf
    refine iff_of_false ?_ ?_
    · intro h
      cases h
      rcases dependencyError?_eq_some hf with ⟨-, heq⟩ | ⟨-, -, -, heq⟩ <;> cases heq
    · rintro ⟨hall, -⟩
      rw [dependencyError?_eq_none_iff.mpr (hall job hjob d hd)] at hf
      cases hf
  · rename_i hnone
    have hall : ∀ job ∈ s.jobs, ∀ d ∈ job.dependencies, d ∈ s.ids ∨ d ∈ known ∧ d ∉ later := by
      intro job hjob d hd
      have hnone' := List.findSome?_eq_none_iff.mp hnone job hjob
      exact dependencyError?_eq_none_iff.mp (List.findSome?_eq_none_iff.mp hnone' d hd)
    simp only
    split
    · rename_i hl
      refine iff_of_false (fun h => nomatch h) ?_
      rintro ⟨-, hcyclic, -⟩
      exact hcyclic (JobStage.acyclic_of_length hn hl)
    · rename_i hl
      have hcyclic : ¬ s.Acyclic := fun h => hl (JobStage.length_of_acyclic h)
      rw [Except.error.injEq, PlanError.cycle.injEq]
      constructor
      · rintro rfl
        exact ⟨hall, hcyclic, hsorted, hmem⟩
      · rintro ⟨-, -, hsorted', hmem'⟩
        exact eq_of_ascending hsorted hsorted' fun x => (hmem x).trans (hmem' x).symm

end

/-! ### The report of a plan -/

/-- What is true where the report names `ids`: the stages `before` could be run, and those are the
tangled jobs of the next one. -/
structure CycleFound (done : List String) (before : List JobStage) (s : JobStage)
    (after : List JobStage) (ids : List String) : Prop where
  distinct : ((before ++ s :: after).flatMap JobStage.ids).Nodup
  fresh : ∀ id ∈ (before ++ s :: after).flatMap JobStage.ids, id ∉ done
  earlier : Resolvable before done
  known : ∀ job ∈ s.jobs, ∀ d ∈ job.dependencies,
    d ∈ s.ids ∨ d ∈ before.flatMap JobStage.ids ∨ d ∈ done
  cyclic : ¬ s.Acyclic
  named : ∀ x, x ∈ ids ↔ x ∈ s.ids ∧ s.Tangled x
  ascending : ids.Pairwise (· < ·)
  nonempty : ids ≠ []

section

variable {done ids : List String} {s t : JobStage} {stages before after : List JobStage}

theorem ids_nodup_of_split (hn : ((before ++ s :: after).flatMap JobStage.ids).Nodup) :
    s.ids.Nodup :=
  (List.nodup_flatMap.mp hn).1 s (List.mem_append_right _ List.mem_cons_self)

theorem planStage_ok_iff_of_split (hn : ((before ++ s :: after).flatMap JobStage.ids).Nodup)
    (hf : ∀ id ∈ (before ++ s :: after).flatMap JobStage.ids, id ∉ done) :
    (∃ p, planStage (done ++ before.flatMap JobStage.ids) (after.flatMap JobStage.ids) s =
      .ok p) ↔ (∀ job ∈ s.jobs, ∀ d ∈ job.dependencies,
        d ∈ s.ids ∨ d ∈ before.flatMap JobStage.ids ∨ d ∈ done) ∧ s.Acyclic := by
  simp only [planStage_eq_ok_iff (ids_nodup_of_split hn), mem_known_iff hn hf]
  exact ⟨fun ⟨_, hdeps, hacyclic, _⟩ => ⟨hdeps, hacyclic⟩,
    fun ⟨hdeps, hacyclic⟩ => ⟨_, hdeps, hacyclic, rfl⟩⟩

/-- The stages up to one are resolvable exactly if each of them has a plan among all. -/
theorem resolvable_before_iff (hn : ((before ++ s :: after).flatMap JobStage.ids).Nodup)
    (hf : ∀ id ∈ (before ++ s :: after).flatMap JobStage.ids, id ∉ done) :
    Resolvable before done ↔ ∀ b t a, before = b ++ t :: a →
      ∃ p, planStage (done ++ b.flatMap JobStage.ids)
        ((a ++ s :: after).flatMap JobStage.ids) t = .ok p := by
  have hone : ∀ b t a, before = b ++ t :: a →
      ((∃ p, planStage (done ++ b.flatMap JobStage.ids)
        ((a ++ s :: after).flatMap JobStage.ids) t = .ok p) ↔
      (∀ job ∈ t.jobs, ∀ d ∈ job.dependencies,
        d ∈ t.ids ∨ d ∈ b.flatMap JobStage.ids ∨ d ∈ done) ∧ t.Acyclic) := by
    rintro b t a rfl
    rw [List.append_assoc, List.cons_append] at hn hf
    exact planStage_ok_iff_of_split hn hf
  constructor
  · intro h b t a heq
    exact (hone b t a heq).mpr ⟨h.known b t a heq, h.acyclic t (by simp [heq])⟩
  · intro h
    rw [List.flatMap_append] at hn hf
    refine ⟨hn.of_append_left, fun id hid => hf id (List.mem_append_left _ hid), ?_, ?_⟩
    · intro b t a heq
      exact ((hone b t a heq).mp (h b t a heq)).1
    · intro t ht
      obtain ⟨b, a, heq⟩ := List.append_of_mem ht
      exact ((hone b t a heq).mp (h b t a heq)).2

theorem CycleFound.of_plan (h : plan stages done = .error (.cycle ids)) :
    ∃ before s after, stages = before ++ s :: after ∧ CycleFound done before s after ids := by
  unfold plan at h
  split at h
  · cases h
  · rename_i hfirst
    obtain ⟨hn, hf⟩ := firstRepeated_eq_none_iff.mp hfirst
    obtain ⟨before, s, after, rfl, hearlier, hs⟩ := planStages_eq_error_iff.mp h
    obtain ⟨hdeps, hcyclic, hascending, hnamed⟩ :=
      (planStage_eq_cycle_iff (ids_nodup_of_split hn)).mp hs
    simp only [mem_known_iff hn hf] at hdeps
    refine ⟨before, s, after, rfl, hn, hf, (resolvable_before_iff hn hf).mpr hearlier, hdeps,
      hcyclic, ?_, hascending, ?_⟩
    · intro x
      rw [hnamed]
      exact ⟨fun hx => ⟨hx.mem_ids, hx⟩, And.right⟩
    · rintro rfl
      refine hcyclic fun x hcircle => ?_
      exact List.not_mem_nil ((hnamed x).mpr (.inl hcircle))

theorem CycleFound.plan (h : CycleFound done before s after ids) :
    Changeover.plan (before ++ s :: after) done = .error (.cycle ids) := by
  unfold Changeover.plan
  rw [firstRepeated_eq_none_iff.mpr ⟨h.distinct, h.fresh⟩]
  refine planStages_eq_error_iff.mpr ⟨before, s, after, rfl,
    (resolvable_before_iff h.distinct h.fresh).mp h.earlier, ?_⟩
  refine (planStage_eq_cycle_iff (ids_nodup_of_split h.distinct)).mpr ⟨?_, h.cyclic, h.ascending, ?_⟩
  · simp only [mem_known_iff h.distinct h.fresh]
    exact h.known
  · intro x
    rw [h.named]
    exact ⟨And.right, fun hx => ⟨hx.mem_ids, hx⟩⟩

end

/-- A plan ends in the report of a cycle exactly if the stages before one can be run and that one
cannot, and the report then lists its jobs that lie on a circle or depend on one. -/
theorem plan_cycle_iff (stages : List JobStage) (done ids : List String) :
    plan stages done = .error (.cycle ids) ↔ ∃ before s after,
      stages = before ++ s :: after ∧ CycleFound done before s after ids := by
  constructor
  · exact CycleFound.of_plan
  · rintro ⟨before, s, after, rfl, h⟩
    exact h.plan

/-- Two jobs in a circle and a third that waits for them are named; one they wait for is not, nor
is the circle of a later stage. -/
example : plan [⟨"first", [⟨"a", []⟩]⟩,
    ⟨"second", [⟨"c", ["b", "e"]⟩, ⟨"b", ["c", "a"]⟩, ⟨"d", ["b"]⟩, ⟨"e", []⟩]⟩,
    ⟨"third", [⟨"f", ["f"]⟩]⟩] [] = .error (.cycle ["b", "c", "d"]) := by
  cbv

end Changeover
