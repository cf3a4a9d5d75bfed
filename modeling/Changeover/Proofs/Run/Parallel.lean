import Changeover.Proofs.Plan.Canonical
import Changeover.Proofs.Run.Skips

/-!
# What may run at the same time

The batches of a stage that is run in parallel are filled first come, first served: an action goes
into the first batch of its tier that holds none of its resources. So no resource is held twice in a
batch. Since all that the actions of a batch need lies behind them when they start, no chain of
dependencies leads from one of them to another, not even through other stages.
-/

namespace Changeover

/-! ### Resources -/

namespace Batch

variable {resources : Nat → List String} {i : Nat} {b : Batch} {bs : List Batch}

/-- The members hold different resources, and the batch knows them all. -/
structure Compatible (resources : Nat → List String) (b : Batch) : Prop where
  nonempty : b.members ≠ []
  known : ∀ i ∈ b.members, resources i ⊆ b.held
  apart : b.members.Pairwise fun i j => (resources i).Disjoint (resources j)

theorem disjoint_of_admits {rs : List String} (h : b.admits rs = true) : b.held.Disjoint rs := by
  intro r hheld hr
  have hfree := List.all_eq_true.mp h r hr
  rw [Bool.not_eq_true', List.contains_eq_mem, decide_eq_false_iff_not] at hfree
  exact hfree hheld

theorem Compatible.new (resources : Nat → List String) (i : Nat) :
    Compatible resources ⟨[i], resources i⟩ where
  nonempty := List.cons_ne_nil _ _
  known j hj := by rw [List.mem_singleton.mp hj]; exact List.Subset.refl _
  apart := List.pairwise_singleton _ _

theorem Compatible.add (h : b.Compatible resources) (ha : b.admits (resources i) = true) :
    Compatible resources ⟨b.members ++ [i], b.held ++ resources i⟩ where
  nonempty := by simp
  known := by
    intro j hj
    rcases List.mem_append.mp hj with hj | hj
    · exact List.subset_append_of_subset_left _ (h.known j hj)
    · rw [List.mem_singleton.mp hj]
      exact List.subset_append_right _ _
  apart := by
    refine List.pairwise_append.mpr ⟨h.apart, List.pairwise_singleton _ _, ?_⟩
    intro j hj k hk
    rw [List.mem_singleton.mp hk]
    exact List.disjoint_of_subset_left (h.known j hj) (disjoint_of_admits ha)

theorem Compatible.disjoint {j : Nat} (h : b.Compatible resources) (hi : i ∈ b.members)
    (hj : j ∈ b.members) (hij : i ≠ j) : (resources i).Disjoint (resources j) := by
  have hsymm : Std.Symm fun i j => (resources i).Disjoint (resources j) :=
    ⟨fun _ _ hd => List.Disjoint.symm hd⟩
  exact h.apart.forall hi hj hij

theorem place_compatible (h : ∀ b ∈ bs, Compatible resources b) :
    ∀ b ∈ place i (resources i) bs, Compatible resources b := by
  induction bs with
  | nil =>
    intro b hb
    rw [List.mem_singleton.mp hb]
    exact .new resources i
  | cons c bs ih =>
    obtain ⟨hc, hbs⟩ := List.forall_mem_cons.mp h
    unfold place
    split
    · next ha => exact List.forall_mem_cons.mpr ⟨hc.add ha, hbs⟩
    · exact List.forall_mem_cons.mpr ⟨hc, ih hbs⟩

theorem ofTier_compatible (resources : Nat → List String) (tier : List Nat) :
    ∀ b ∈ ofTier resources tier, Compatible resources b := by
  unfold ofTier
  induction tier using List.reverseRecOn with
  | nil => simp
  | append_singleton tier i ih =>
    rw [List.foldl_append]
    exact place_compatible ih

end Batch

/-! ### Dependencies -/

section

variable {α β : Type} {needs : α → List β} {name : α → β} {there : List β}
  {before after : List (List α)} {b : List α}

theorem InOrder.needs_subset (h : InOrder needs name there (before ++ b :: after)) :
    ∀ a ∈ before.flatten ++ b, needs a ⊆ there ++ before.flatten.map name := by
  induction before generalizing there with
  | nil => simpa using h.1
  | cons c before ih =>
    intro a ha
    rw [List.flatten_cons, List.append_assoc, List.mem_append] at ha
    rw [List.flatten_cons, List.map_append, ← List.append_assoc]
    rcases ha with ha | ha
    · have hfirst := h.1 a ha
      exact List.subset_append_of_subset_left _ (List.subset_append_of_subset_left _ hfirst)
    · exact ih h.2 a ha

theorem InOrder.reached {batches : List (List α)} {R : β → β → Prop}
    (h : InOrder needs name there batches) (hbatches : batches = before ++ b :: after)
    (hnames : (batches.flatten.map name).Nodup)
    (hfresh : ∀ a ∈ batches.flatten, name a ∉ there)
    (hR : ∀ x y, R x y → ∃ a ∈ batches.flatten, name a = x ∧ y ∈ needs a) {a : α} (ha : a ∈ b)
    {y : β} (hy : Relation.TransGen R (name a) y) : y ∈ there ++ before.flatten.map name := by
  subst hbatches
  have hstep : ∀ c ∈ before.flatten ++ b, ∀ z, R (name c) z →
      z ∈ there ++ before.flatten.map name := by
    intro c hc z hz
    obtain ⟨c', hc', hsame, hneeds⟩ := hR _ _ hz
    have hcall : c ∈ (before ++ b :: after).flatten := by
      rw [List.flatten_append, List.flatten_cons, ← List.append_assoc]
      exact List.mem_append_left _ hc
    rw [List.inj_on_of_nodup_map hnames hc' hcall hsame] at hneeds
    exact h.needs_subset c hc hneeds
  induction hy with
  | single hz => exact hstep a (List.mem_append_right _ ha) _ hz
  | tail _ hz ih =>
    rcases List.mem_append.mp ih with hin | hin
    · obtain ⟨c, hc, rfl, -⟩ := hR _ _ hz
      exact absurd hin (hfresh c hc)
    · obtain ⟨c, hc, rfl⟩ := List.mem_map.mp hin
      exact hstep c (List.mem_append_left _ hc) _ hz

theorem InOrder.not_transGen {batches : List (List α)} {R : β → β → Prop}
    (h : InOrder needs name there batches) (hb : b ∈ batches)
    (hnames : (batches.flatten.map name).Nodup)
    (hfresh : ∀ a ∈ batches.flatten, name a ∉ there)
    (hR : ∀ x y, R x y → ∃ a ∈ batches.flatten, name a = x ∧ y ∈ needs a) {a c : α} (ha : a ∈ b)
    (hc : c ∈ b) : ¬ Relation.TransGen R (name a) (name c) := by
  intro hchain
  obtain ⟨before, after, rfl⟩ := List.append_of_mem hb
  rcases List.mem_append.mp (h.reached rfl hnames hfresh hR ha hchain) with hin | hin
  · exact hfresh c (List.mem_flatten_of_mem hb hc) hin
  · rw [List.flatten_append, List.flatten_cons, List.map_append, List.map_append] at hnames
    exact List.disjoint_of_nodup_append hnames hin
      (List.mem_append_left _ (List.mem_map_of_mem hc))

end

/-! ### Stages -/

/-- Batches of a stage whose members may be run at the same time. -/
structure Stage.Parallel (stages : List Stage) (s : Stage) (order : List Nat)
    (batches : List (List Nat)) : Prop where
  nonempty : ∀ b ∈ batches, b ≠ []
  full : batches.flatten.Perm order
  apart : ∀ b ∈ batches, ∀ i ∈ b, ∀ j ∈ b, i ≠ j →
    (resourcesAt s.actions i).Disjoint (resourcesAt s.actions j)
  independent : ∀ b ∈ batches, ∀ i ∈ b, ∀ j ∈ b, ∀ x ∈ s.actions[i]?, ∀ y ∈ s.actions[j]?,
    ¬ Relation.TransGen (DependsOn stages) x.id y.id
  earlier : ∀ before b after, batches = before ++ b :: after →
    ∀ i ∈ b, ∀ j, s.jobs.DependsAt i j → j ∈ before.flatten

variable {stages : List Stage} {done : List String} {plans : List StagePlan} {s : Stage}
  {p : StagePlan} {b : List Nat} {i j : Nat} {x y : Action}

theorem exists_tier_of_mem (hb : b ∈ parallelBatches p s.actions) :
    ∃ tier, ∃ batch ∈ Batch.ofTier (resourcesAt s.actions) tier, batch.members = b := by
  obtain ⟨tier, -, hmem⟩ := List.mem_flatMap.mp hb
  exact ⟨tier, List.mem_map.mp hmem⟩

/-- No chain of dependencies in any of the stages leads from one action of a batch to another. -/
theorem not_transGen_of_mem_batch (h : plan (stages.map Stage.jobs) done = .ok plans)
    (hs : (s, p) ∈ stages.zip plans) (hb : b ∈ parallelBatches p s.actions) (hi : i ∈ b)
    (hj : j ∈ b) (hx : s.actions[i]? = some x) (hy : s.actions[j]? = some y) :
    ¬ Relation.TransGen (DependsOn stages) x.id y.id := by
  obtain ⟨hn, hfresh, hplanned⟩ := plan_ok h
  rw [← workIn_ids] at hn hfresh
  obtain ⟨r, hr⟩ : ∃ r, r = Runner.ofSettings { parallel := true } := ⟨_, rfl⟩
  have horder : InOrder Action.dependencies Action.id done
      ((r.schedule (stages.zip plans)).map (·.2)) := hr ▸ Runner.schedule_inOrder hplanned
  have hperm : ((r.schedule (stages.zip plans)).map (·.2)).flatten.Perm
      ((workIn stages).map (·.2)) := hr ▸ Runner.schedule_perm hplanned
  have hbatch : b.filterMap (s.actions[·]?) ∈ (r.schedule (stages.zip plans)).map (·.2) := by
    refine List.mem_map.mpr ⟨(s.name, _), List.mem_flatMap.mpr ⟨_, hs, ?_⟩, rfl⟩
    refine List.mem_map.mpr ⟨_, List.mem_map.mpr ⟨b, ?_, rfl⟩, rfl⟩
    rw [hr]
    exact hb
  refine horder.not_transGen hbatch ?_ ?_ ?_ (List.mem_filterMap.mpr ⟨i, hi, hx⟩)
    (List.mem_filterMap.mpr ⟨j, hj, hy⟩)
  · rw [(hperm.map Action.id).nodup_iff, List.map_map]
    exact hn
  · intro a ha
    obtain ⟨w, hw, rfl⟩ := List.mem_map.mp (hperm.mem_iff.mp ha)
    exact hfresh _ (List.mem_map_of_mem hw)
  · rintro _ d ⟨w, hw, rfl, hd⟩
    exact ⟨w.2, hperm.mem_iff.mpr (List.mem_map_of_mem hw), rfl, hd⟩

theorem parallel_of_planned (h : plan (stages.map Stage.jobs) done = .ok plans)
    (hs : (s, p) ∈ stages.zip plans) (hn : s.jobs.ids.Nodup) {known : List String}
    (hp : StagePlanned known s.jobs p) :
    s.Parallel stages p.order (parallelBatches p s.actions) := by
  obtain ⟨hfull, horder⟩ := hp.batches true s.actions
  constructor
  case nonempty =>
    intro b hb
    obtain ⟨tier, batch, hbatch, rfl⟩ := exists_tier_of_mem hb
    exact (Batch.ofTier_compatible _ tier batch hbatch).nonempty
  case full => exact hfull
  case apart =>
    intro b hb i hi j hj hij
    obtain ⟨tier, batch, hbatch, rfl⟩ := exists_tier_of_mem hb
    exact (Batch.ofTier_compatible _ tier batch hbatch).disjoint hi hj hij
  case independent =>
    intro b hb i hi j hj x hx y hy
    exact not_transGen_of_mem_batch h hs hb hi hj hx hy
  case earlier =>
    intro before b after hsplit i hi j hdep
    rw [← JobStage.needs_iff_dependsAt hn] at hdep
    rw [show batchesFor true p s.actions = before ++ b :: after from hsplit] at horder
    have hneeds := horder.needs_subset i (List.mem_append_right _ hi)
    rw [List.nil_append, List.map_id] at hneeds
    exact hneeds hdep

/-- Every stage with a plan can be run in parallel, in batches without conflict. -/
theorem plan_parallel (h : plan (stages.map Stage.jobs) done = .ok plans) :
    List.Forall₂ (fun s p => s.Parallel stages p.order (parallelBatches p s.actions))
      stages plans := by
  obtain ⟨hn, -, hplanned⟩ := plan_ok h
  have hall := List.forall₂_map_left_iff.mp (hplanned.forall₂ hn)
  rw [List.forall₂_iff_zip] at hall ⊢
  refine ⟨hall.1, ?_⟩
  intro s p hs
  obtain ⟨hids, known, hp⟩ := hall.2 hs
  exact parallel_of_planned h hs hids hp

/-- Two changes of the package configuration do not run together, and the mount check, which holds
nothing, runs beside the first. -/
theorem plan_parallel_shared :
    let action (id : String) (dependencies resources : List String) : Action :=
      { id, dependencies, resources, run := fun _ => pure () }
    let checks : Stage := ⟨"checks", [action "release" [] []]⟩
    let changes : Stage := ⟨"changes", [action "locks" ["release"] ["yum", "yum"],
      action "repositories" [] ["rpm", "yum"], action "mounts" ["release"] [],
      action "packages" ["locks"] ["rpm"]]⟩
    let planned : StagePlan := ⟨"changes", [0, 1, 2, 3], [0, 0, 0, 1]⟩
    plan [checks.jobs, changes.jobs] [] = .ok [⟨"checks", [0], [0]⟩, planned] ∧
      parallelBatches planned changes.actions = [[0, 2], [1], [3]] ∧
      changes.Parallel [checks, changes] [0, 1, 2, 3] [[0, 2], [1], [3]] := by
  intro action checks changes planned
  have hplan : plan ([checks, changes].map Stage.jobs) [] =
      .ok [⟨"checks", [0], [0]⟩, planned] := rfl
  have hbatches : parallelBatches planned changes.actions = [[0, 2], [1], [3]] := by decide
  cases plan_parallel hplan with
  | cons _ hrest =>
    cases hrest with
    | cons hchanges _ => exact ⟨hplan, hbatches, hbatches ▸ hchanges⟩

end Changeover
