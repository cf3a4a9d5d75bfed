import Changeover.Proofs.Plan.Batches
import Changeover.Proofs.Plan.Cycles
import Changeover.Proofs.Plan.Relaxation
import Mathlib.Order.Bounds.Basic

/-!
# Depth is the longest chain of dependencies

A job is one deeper than the deepest job it depends on, so a chain that ends at it can be followed
back to the first depth and no chain is longer. The tiers part the running order by depth: each
job rests on one of the tier before, and dependencies, however many steps away, lead out of the
tier.
-/

namespace Changeover

namespace StagePlanned

variable {known : List String} {s : JobStage} {p : StagePlan} {i j d : Nat}

theorem mem_order_iff (hp : StagePlanned known s p) : i ∈ p.order ↔ i < s.jobs.length := by
  rw [hp.full.mem_iff, List.mem_range]

theorem depth_eq (hp : StagePlanned known s p) (hi : i < s.jobs.length) :
    p.depth i = depthAbove p.depths (s.needs.getD i []) := by
  rw [StagePlan.depth, hp.depths]
  exact hp.grown.depth_eq i (hp.mem_order_iff.mpr hi)

theorem depth_lt (hp : StagePlanned known s p) (h : s.Needs i j) : p.depth j < p.depth i := by
  rw [hp.depth_eq h.lt_length.1]
  exact lt_depthAbove p.depths h

theorem depth_lt_of_transGen (hp : StagePlanned known s p) (h : Relation.TransGen s.Needs i j) :
    p.depth j < p.depth i := by
  induction h with
  | single hneeds => exact hp.depth_lt hneeds
  | tail _ hneeds ih => exact (hp.depth_lt hneeds).trans ih

theorem exists_need (hp : StagePlanned known s p) (hi : i < s.jobs.length)
    (hd : p.depth i = d + 1) : ∃ j, s.Needs i j ∧ p.depth j = d := by
  rw [hp.depth_eq hi] at hd
  exact exists_of_depthAbove_eq_succ hd

/-- No depth is passed over on the way down. -/
theorem exists_depth_eq (hp : StagePlanned known s p) (hi : i < s.jobs.length)
    (hd : d ≤ p.depth i) : ∃ j < s.jobs.length, p.depth j = d := by
  induction hk : p.depth i generalizing i with
  | zero => exact ⟨i, hi, by omega⟩
  | succ k ih =>
    by_cases hkd : d = k + 1
    · exact ⟨i, hi, hk.trans hkd.symm⟩
    · obtain ⟨j, hij, hj⟩ := hp.exists_need hi hk
      exact ih hij.lt_length.2 (by omega) hj

end StagePlanned

/-! ### Chains -/

/-- A chain of `n` dependencies inside the stage that ends at the job at `i`. -/
inductive JobStage.Chain (s : JobStage) : Nat → Nat → Prop
  | start {i : Nat} : i < s.jobs.length → Chain s 0 i
  | link {n i j : Nat} : Chain s n j → s.DependsAt i j → Chain s (n + 1) i

namespace StagePlanned

variable {known : List String} {s : JobStage} {p : StagePlan} {i n d : Nat}

theorem le_depth (hp : StagePlanned known s p) (hn : s.ids.Nodup) (h : s.Chain n i) :
    n ≤ p.depth i := by
  induction h with
  | start => exact Nat.zero_le _
  | link _ hij ih =>
    have hlt := hp.depth_lt ((JobStage.needs_iff_dependsAt hn).mpr hij)
    omega

theorem chain_of_depth_eq (hp : StagePlanned known s p) (hn : s.ids.Nodup)
    (hi : i < s.jobs.length) (hd : p.depth i = d) : s.Chain d i := by
  induction d generalizing i with
  | zero => exact .start hi
  | succ d ih =>
    obtain ⟨j, hij, hj⟩ := hp.exists_need hi hd
    exact .link (ih hij.lt_length.2 hj) ((JobStage.needs_iff_dependsAt hn).mp hij)

end StagePlanned

/-! ### Dependencies across stages -/

/-- A job called `x` depends on `y`, whatever stages they are in. -/
def DependsIn (stages : List JobStage) (x y : String) : Prop :=
  ∃ s ∈ stages, ∃ job ∈ s.jobs, job.id = x ∧ y ∈ job.dependencies

/-- Ids that may be depended on before a stage is reached: those of the stages before it, and those
that are done. -/
def KnownBefore (before : List JobStage) (done : List String) (x : String) : Prop :=
  x ∈ before.flatMap JobStage.ids ∨ x ∈ done

namespace Resolvable

variable {before after stages : List JobStage} {s : JobStage} {done : List String} {x y : String}

theorem not_known (h : Resolvable (before ++ after) done)
    (hx : x ∈ after.flatMap JobStage.ids) : ¬ KnownBefore before done x := by
  have hn := h.distinct
  rw [List.flatMap_append] at hn
  rintro (hbefore | hdone)
  · exact List.disjoint_of_nodup_append hn hbefore hx
  · refine h.fresh x ?_ hdone
    rw [List.flatMap_append]
    exact List.mem_append_right _ hx

theorem mem_ids_of_mem {stages : List JobStage} {s : JobStage} {job : Job} (hs : s ∈ stages)
    (hjob : job ∈ s.jobs) : job.id ∈ stages.flatMap JobStage.ids :=
  List.mem_flatMap.mpr ⟨s, hs, List.mem_map_of_mem hjob⟩

theorem known_of_known (h : Resolvable (before ++ after) done) (hx : KnownBefore before done x)
    (hxy : DependsIn (before ++ after) x y) : KnownBefore before done y := by
  obtain ⟨s, hs, job, hjob, rfl, hy⟩ := hxy
  rcases List.mem_append.mp hs with hs | hs
  · obtain ⟨first, rest, rfl⟩ := List.append_of_mem hs
    rw [KnownBefore, List.flatMap_append, List.flatMap_cons, List.mem_append, List.mem_append]
    rcases h.known first s (rest ++ after) (by simp) job hjob y hy with hself | hfirst | hdone
    · exact .inl (.inr (.inl hself))
    · exact .inl (.inl hfirst)
    · exact .inr hdone
  · exact absurd hx (h.not_known (mem_ids_of_mem hs hjob))

theorem links_or_known (h : Resolvable (before ++ s :: after) done) (hx : x ∈ s.ids)
    (hxy : DependsIn (before ++ s :: after) x y) : s.Links x y ∨ KnownBefore before done y := by
  obtain ⟨t, ht, job, hjob, rfl, hy⟩ := hxy
  have hself : job.id ∈ (s :: after).flatMap JobStage.ids :=
    List.mem_flatMap.mpr ⟨s, List.mem_cons_self, hx⟩
  rcases List.mem_append.mp ht with ht | ht
  · exact absurd (.inl (mem_ids_of_mem ht hjob)) (h.not_known hself)
  · rcases List.mem_cons.mp ht with rfl | ht
    · rcases h.known before t after rfl job hjob y hy with hlinks | hknown
      · exact .inl ⟨job, hjob, rfl, hy, hlinks⟩
      · exact .inr hknown
    · have hn := h.distinct
      rw [List.flatMap_append, List.flatMap_cons] at hn
      have hdisjoint := List.disjoint_of_nodup_append (List.Nodup.of_append_right hn)
      exact absurd (mem_ids_of_mem ht hjob) (hdisjoint hx)

theorem transGen_links (h : Resolvable stages done) (hs : s ∈ stages) (hx : x ∈ s.ids)
    (hy : y ∈ s.ids) (hxy : Relation.TransGen (DependsIn stages) x y) :
    Relation.TransGen s.Links x y := by
  obtain ⟨before, after, rfl⟩ := List.append_of_mem hs
  have hway : Relation.TransGen s.Links x y ∨ KnownBefore before done y := by
    clear hy
    induction hxy with
    | single hstep => exact (h.links_or_known hx hstep).imp_left .single
    | tail _ hstep ih =>
      rcases ih with hlinks | hknown
      · obtain ⟨_, _, _, _, _, _, hz⟩ := Relation.TransGen.tail'_iff.mp hlinks
        exact (h.links_or_known hz hstep).imp_left hlinks.tail
      · exact .inr (h.known_of_known hknown hstep)
  have hself : y ∈ (s :: after).flatMap JobStage.ids :=
    List.mem_flatMap.mpr ⟨s, List.mem_cons_self, hy⟩
  exact hway.resolve_right (h.not_known hself)

end Resolvable

/-! ### Tiers -/

/-- What depths and tiers say about the dependencies of a stage. -/
structure Layered (stages : List JobStage) (s : JobStage) (p : StagePlan) : Prop where
  counted : Countdown.run s.needs s.jobs.length (.start s.needs) =
    ⟨p.order, ∅, List.replicate s.jobs.length 0, p.depths⟩
  indexed : p.depths.length = s.jobs.length
  longest : ∀ i < s.jobs.length, IsGreatest {n | s.Chain n i} (p.depth i)
  filled : ∀ tier ∈ p.tiers, tier ≠ []
  parted : p.tiers.flatten.Perm p.order
  ordered : ∀ tier ∈ p.tiers, tier.Sublist p.order
  level : ∀ d tier, p.tiers[d]? = some tier → ∀ i ∈ tier, p.depth i = d
  unrelated : ∀ tier ∈ p.tiers, ∀ i ∈ tier, ∀ j ∈ tier, ∀ a b, s.jobs[i]? = some a →
    s.jobs[j]? = some b → ¬ Relation.TransGen (DependsIn stages) a.id b.id
  resting : ∀ d tier, p.tiers[d + 1]? = some tier → ∀ i ∈ tier,
    ∃ below, p.tiers[d]? = some below ∧ ∃ j ∈ below, s.DependsAt i j

namespace StagePlanned

variable {known done : List String} {stages : List JobStage} {s : JobStage} {p : StagePlan}
  {i j : Nat} {a b : Job}

/-- Depth falls along dependencies, even if they are followed across stages. -/
theorem depth_lt_of_dependsIn (hp : StagePlanned known s p) (h : Resolvable stages done)
    (hs : s ∈ stages) (ha : s.jobs[i]? = some a) (hb : s.jobs[j]? = some b)
    (hab : Relation.TransGen (DependsIn stages) a.id b.id) : p.depth j < p.depth i := by
  have hn : s.ids.Nodup := (List.nodup_flatMap.mp h.distinct).1 s hs
  have hlinks := h.transGen_links hs (List.mem_map_of_mem (List.mem_of_getElem? ha))
    (List.mem_map_of_mem (List.mem_of_getElem? hb)) hab
  have hi : s.ids[i]? = some a.id := by simp [JobStage.ids, ha]
  have hj : s.ids[j]? = some b.id := by simp [JobStage.ids, hb]
  have hneeds := JobStage.reflTransGen_needs hn hlinks.to_reflTransGen hi hj
  rcases Relation.reflTransGen_iff_eq_or_transGen.mp hneeds with rfl | hneeds
  · obtain rfl : a = b := Option.some.inj (ha.symm.trans hb)
    exact absurd hlinks (h.acyclic s hs a.id)
  · exact hp.depth_lt_of_transGen hneeds

theorem layered (hp : StagePlanned known s p) (h : Resolvable stages done) (hs : s ∈ stages) :
    Layered stages s p := by
  have hn : s.ids.Nodup := (List.nodup_flatMap.mp h.distinct).1 s hs
  obtain ⟨n, hlt, hdeep, htiers⟩ := p.exists_tiers
  have hget {d : Nat} {tier : List Nat} : p.tiers[d]? = some tier ↔
      d < n ∧ p.order.filter (p.depth · == d) = tier := by
    by_cases hd : d < n
    · simp [htiers, hd]
    · simp [htiers, hd]
  have hmem {tier : List Nat} (htier : tier ∈ p.tiers) :
      ∃ d < n, p.order.filter (p.depth · == d) = tier := by
    obtain ⟨d, hd⟩ := List.getElem?_of_mem htier
    exact ⟨d, hget.mp hd⟩
  have hin {i d : Nat} : i ∈ p.order.filter (p.depth · == d) ↔
      i < s.jobs.length ∧ p.depth i = d := by
    rw [List.mem_filter, hp.mem_order_iff, beq_iff_eq]
  constructor
  case counted => exact hp.counted
  case indexed => rw [hp.depths, depthsAlong_length, JobStage.needs_length]
  case longest =>
    intro i hi
    exact ⟨hp.chain_of_depth_eq hn hi rfl, fun n hchain => hp.le_depth hn hchain⟩
  case filled =>
    intro tier htier
    obtain ⟨d, hd, rfl⟩ := hmem htier
    obtain ⟨deep, hdeep, hle⟩ := hdeep d hd
    obtain ⟨i, hi, hid⟩ := hp.exists_depth_eq (hp.mem_order_iff.mp hdeep) hle
    exact List.ne_nil_of_mem (hin.mpr ⟨hi, hid⟩)
  case parted =>
    rw [htiers, ← List.flatMap_def]
    refine (flatMap_filter_perm p.order p.depth n).trans (List.Perm.of_eq ?_)
    rw [List.filter_eq_self]
    exact fun i hi => decide_eq_true (hlt i hi)
  case ordered =>
    intro tier htier
    obtain ⟨d, -, rfl⟩ := hmem htier
    exact List.filter_sublist
  case level =>
    intro d tier htier i hi
    obtain ⟨-, rfl⟩ := hget.mp htier
    exact (hin.mp hi).2
  case unrelated =>
    intro tier htier i hi j hj a b ha hb hab
    obtain ⟨d, -, rfl⟩ := hmem htier
    have hfalls := hp.depth_lt_of_dependsIn h hs ha hb hab
    rw [(hin.mp hi).2, (hin.mp hj).2] at hfalls
    exact lt_irrefl d hfalls
  case resting =>
    intro d tier htier i hi
    obtain ⟨hd, rfl⟩ := hget.mp htier
    obtain ⟨hlt, hid⟩ := hin.mp hi
    obtain ⟨j, hneeds, hjd⟩ := hp.exists_need hlt hid
    refine ⟨_, hget.mpr ⟨Nat.lt_of_succ_lt hd, rfl⟩, j, hin.mpr ⟨hneeds.lt_length.2, hjd⟩, ?_⟩
    exact (JobStage.needs_iff_dependsAt hn).mp hneeds

end StagePlanned

/-- Where there is a plan, counting down what each job waits for finds it as well, depth is the
length of the longest chain of dependencies, and the tiers are layers of jobs that do not depend on
each other. -/
theorem plan_layered {stages : List JobStage} {done : List String} {plans : List StagePlan}
    (h : plan stages done = .ok plans) : List.Forall₂ (Layered stages) stages plans := by
  obtain ⟨hn, -, hplanned⟩ := plan_ok h
  have hr := (plan_eq_ok_iff.mp h).1
  have hall := (List.forall₂_and_left stages plans).mpr ⟨fun s hs => hs, hplanned.forall₂ hn⟩
  refine hall.imp ?_
  rintro s p ⟨hs, -, known, hp⟩
  exact hp.layered hr hs

/-- The job that is listed first rests on both of the others, and one of them on the other, so it
comes last and is two deep. What the stage before has done does not count. -/
theorem plan_layered_reboot :
    let first : JobStage := ⟨"first", [⟨"check", []⟩]⟩
    let second : JobStage := ⟨"second", [⟨"reboot", ["kernel", "packages"]⟩,
      ⟨"packages", ["check"]⟩, ⟨"kernel", ["packages", "check"]⟩]⟩
    plan [first, second] [] =
        .ok [⟨"first", [0], [0]⟩, ⟨"second", [1, 2, 0], [2, 0, 1]⟩] ∧
      Layered [first, second] second ⟨"second", [1, 2, 0], [2, 0, 1]⟩ := by
  intro first second
  have hplan : plan [first, second] [] =
      .ok [⟨"first", [0], [0]⟩, ⟨"second", [1, 2, 0], [2, 0, 1]⟩] := by
    decide +kernel
  cases plan_layered hplan with
  | cons _ hrest =>
    cases hrest with
    | cons hsecond _ => exact ⟨hplan, hsecond⟩

end Changeover
