import Changeover.Batch
import Changeover.Proofs.Plan.Order
import Mathlib.Data.List.Flatten
import Mathlib.Data.List.Perm.Basic

/-!
# Batches respect dependencies

However a stage is cut into batches, every position is in exactly one of them, and what an action
of a batch needs lies in the batches before it.
-/

namespace Changeover

section

variable {α β : Type} {needs : α → List β} {name : α → β}

/-- All that the members of a batch need is there when the batch is reached: it was there from the
start, or it is the name of a member of an earlier batch. -/
def InOrder (needs : α → List β) (name : α → β) : List β → List (List α) → Prop
  | _, [] => True
  | there, b :: bs => (∀ a ∈ b, needs a ⊆ there) ∧ InOrder needs name (there ++ b.map name) bs

theorem InOrder.mono {there more : List β} {batches : List (List α)}
    (h : InOrder needs name there batches) (hs : there ⊆ more) :
    InOrder needs name more batches := by
  induction batches generalizing there more with
  | nil => trivial
  | cons b bs ih =>
    obtain ⟨hb, hbs⟩ := h
    refine ⟨?_, ih hbs ?_⟩
    · intro a ha
      exact List.Subset.trans (hb a ha) hs
    · intro x hx
      rcases List.mem_append.mp hx with hx | hx
      · exact List.mem_append_left _ (hs hx)
      · exact List.mem_append_right _ hx

theorem inOrder_append {there : List β} {bs cs : List (List α)} :
    InOrder needs name there (bs ++ cs) ↔
      InOrder needs name there bs ∧ InOrder needs name (there ++ bs.flatten.map name) cs := by
  induction bs generalizing there with
  | nil => simp [InOrder]
  | cons b bs ih => simp [InOrder, ih, and_assoc]

theorem inOrder_of_forall {there : List β} {batches : List (List α)}
    (h : ∀ a ∈ batches.flatten, needs a ⊆ there) : InOrder needs name there batches := by
  induction batches generalizing there with
  | nil => trivial
  | cons b bs ih =>
    refine ⟨?_, ih ?_⟩
    · intro a ha
      exact h a (List.mem_append_left _ ha)
    · intro a ha
      apply List.subset_append_of_subset_left
      exact h a (List.mem_append_right _ ha)

/-- What passes on from all that a member needs to its own name holds of every name. -/
theorem InOrder.forall_names {P : β → Prop} {there : List β} {batches : List (List α)}
    (h : InOrder needs name there batches) (hthere : ∀ x ∈ there, P x)
    (hstep : ∀ a ∈ batches.flatten, (∀ x ∈ needs a, P x) → P (name a)) :
    ∀ a ∈ batches.flatten, P (name a) := by
  induction batches generalizing there with
  | nil => simp
  | cons b bs ih =>
    obtain ⟨hb, hbs⟩ := h
    have hfirst : ∀ a ∈ b, P (name a) := by
      intro a ha
      apply hstep a (List.mem_append_left _ ha)
      intro x hx
      exact hthere x (hb a ha hx)
    intro a ha
    rcases List.mem_append.mp ha with ha | ha
    · exact hfirst a ha
    · refine ih hbs ?_ ?_ a ha
      · intro x hx
        rcases List.mem_append.mp hx with hx | hx
        · exact hthere x hx
        · obtain ⟨c, hc, rfl⟩ := List.mem_map.mp hx
          exact hfirst c hc
      · intro c hc
        exact hstep c (List.mem_append_right _ hc)

end

/-! ### One at a time -/

theorem flatten_map_singleton {α : Type} (xs : List α) : (xs.map ([·])).flatten = xs := by
  induction xs with
  | nil => rfl
  | cons x xs ih => simp [ih]

theorem Grown.inOrder_single {needs : List (List Nat)} {order : List Nat}
    (h : Grown needs order) : InOrder (needs.getD · []) id [] (order.map ([·])) := by
  induction h with
  | nil => trivial
  | @snoc placed i _ hi ih =>
    rw [List.map_append, inOrder_append]
    refine ⟨ih, ?_⟩
    rw [flatten_map_singleton, List.map_id, List.nil_append]
    refine ⟨?_, trivial⟩
    intro j hj
    exact List.mem_singleton.mp hj ▸ (nextReady_eq_some hi).2.2

/-! ### Independent actions together -/

namespace Batch

theorem place_perm (i : Nat) (resources : List String) (bs : List Batch) :
    ((place i resources bs).flatMap (·.members)).Perm (bs.flatMap (·.members) ++ [i]) := by
  induction bs with
  | nil => simp [place]
  | cons b bs ih =>
    unfold place
    split
    · simp only [List.flatMap_cons, List.append_assoc]
      exact (List.perm_append_comm).append_left _
    · simp only [List.flatMap_cons, List.append_assoc]
      exact ih.append_left _

theorem foldl_place_perm (resources : Nat → List String) (tier : List Nat) (bs : List Batch) :
    ((tier.foldl (fun bs i => place i (resources i) bs) bs).flatMap (·.members)).Perm
      (bs.flatMap (·.members) ++ tier) := by
  induction tier generalizing bs with
  | nil => simp
  | cons i tier ih =>
    refine (ih (place i (resources i) bs)).trans ?_
    refine ((place_perm i (resources i) bs).append_right tier).trans ?_
    simp

theorem ofTier_perm (resources : Nat → List String) (tier : List Nat) :
    ((ofTier resources tier).flatMap (·.members)).Perm tier :=
  foldl_place_perm resources tier []

end Batch

section

variable {order : List Nat} {depth : Nat → Nat} {resources : Nat → List String}

def tierBatches (order : List Nat) (depth : Nat → Nat) (resources : Nat → List String) (d : Nat) :
    List (List Nat) :=
  (Batch.ofTier resources (order.filter (depth · == d))).map (·.members)

theorem tierBatches_perm (d : Nat) :
    (tierBatches order depth resources d).flatten.Perm (order.filter (depth · == d)) :=
  Batch.ofTier_perm _ _

theorem flatMap_filter_perm (order : List Nat) (depth : Nat → Nat) (n : Nat) :
    ((List.range n).flatMap fun d => order.filter (depth · == d)).Perm
      (order.filter (depth · < n)) := by
  induction n with
  | zero => simp
  | succ n ih =>
    rw [List.range_succ, List.flatMap_append, List.flatMap_singleton]
    refine (ih.append_right _).trans ?_
    have hlow : (order.filter (depth · < n + 1)).filter (depth · < n) =
        order.filter (depth · < n) := by
      rw [List.filter_filter]
      apply List.filter_congr
      intro i _
      simp only [← Bool.decide_and, decide_eq_decide]
      omega
    have htop : (order.filter (depth · < n + 1)).filter (fun i => !decide (depth i < n)) =
        order.filter (depth · == n) := by
      rw [List.filter_filter]
      apply List.filter_congr
      intro i _
      rw [Bool.eq_iff_iff]
      simp only [Bool.and_eq_true, Bool.not_eq_true', decide_eq_true_eq, decide_eq_false_iff_not,
        beq_iff_eq]
      omega
    rw [← hlow, ← htop]
    exact List.filter_append_perm _ _

theorem tiersBelow_perm (n : Nat) :
    ((List.range n).flatMap (tierBatches order depth resources)).flatten.Perm
      (order.filter (depth · < n)) := by
  rw [← List.flatMap_id, List.flatMap_assoc]
  simp only [List.flatMap_id]
  refine List.Perm.trans ?_ (flatMap_filter_perm order depth n)
  exact List.Perm.flatMap_left _ fun d _ => tierBatches_perm d

/-- Tiers may be run one after the other if depth grows along needs. -/
theorem inOrder_tiers {needs : Nat → List Nat} (hclosed : ∀ i ∈ order, needs i ⊆ order)
    (hdeep : ∀ i ∈ order, ∀ j ∈ needs i, depth j < depth i) (n : Nat) :
    InOrder needs id [] ((List.range n).flatMap (tierBatches order depth resources)) := by
  induction n with
  | zero => trivial
  | succ n ih =>
    rw [List.range_succ, List.flatMap_append, List.flatMap_singleton, inOrder_append]
    refine ⟨ih, inOrder_of_forall ?_⟩
    intro i hi j hj
    obtain ⟨hio, hid⟩ := List.mem_filter.mp ((tierBatches_perm n).mem_iff.mp hi)
    rw [beq_iff_eq] at hid
    have hlow : j ∈ order.filter (depth · < n) := by
      refine List.mem_filter.mpr ⟨hclosed i hio hj, ?_⟩
      have := hdeep i hio j hj
      simp only [decide_eq_true_eq]
      omega
    rw [List.nil_append, List.map_id]
    exact (tiersBelow_perm n).mem_iff.mpr hlow

end

namespace StagePlan

theorem exists_tiers (p : StagePlan) : ∃ n, (∀ i ∈ p.order, p.depth i < n) ∧
    (∀ d < n, ∃ i ∈ p.order, d ≤ p.depth i) ∧
      p.tiers = (List.range n).map fun d => p.order.filter (p.depth · == d) := by
  unfold tiers
  cases hm : (p.order.map p.depth).max? with
  | none =>
    have hnil := List.map_eq_nil_iff.mp (List.max?_eq_none_iff.mp hm)
    refine ⟨0, ?_, fun d hd => absurd hd (Nat.not_lt_zero d), rfl⟩
    intro i hi
    simp [hnil] at hi
  | some top =>
    obtain ⟨htop, hle⟩ := List.max?_eq_some_iff.mp hm
    obtain ⟨deepest, hdeepest, rfl⟩ := List.mem_map.mp htop
    refine ⟨p.depth deepest + 1, ?_, fun d hd => ⟨deepest, hdeepest, Nat.le_of_lt_succ hd⟩, rfl⟩
    intro i hi
    exact Nat.lt_succ_of_le (hle _ (List.mem_map_of_mem hi))

theorem flatMap_tiers (p : StagePlan) (resources : Nat → List String) :
    ∃ n, (∀ i ∈ p.order, p.depth i < n) ∧
      (p.tiers.flatMap fun tier => (Batch.ofTier resources tier).map (·.members)) =
        (List.range n).flatMap (tierBatches p.order p.depth resources) := by
  obtain ⟨n, hlt, -, htiers⟩ := p.exists_tiers
  refine ⟨n, hlt, ?_⟩
  rw [htiers, List.flatMap_map]
  rfl

end StagePlan

/-- Either way every position is run once, and after all that it needs. -/
theorem StagePlanned.batches {known : List String} {s : JobStage} {p : StagePlan}
    (h : StagePlanned known s p) (parallel : Bool) (actions : List Action) :
    (batchesFor parallel p actions).flatten.Perm p.order ∧
      InOrder (s.needs.getD · []) id [] (batchesFor parallel p actions) := by
  cases parallel with
  | false =>
    refine ⟨?_, h.grown.inOrder_single⟩
    exact List.Perm.of_eq (flatten_map_singleton p.order)
  | true =>
    obtain ⟨n, hn, he⟩ := p.flatMap_tiers (resourcesAt actions)
    have hbatches : batchesFor true p actions =
        (List.range n).flatMap (tierBatches p.order p.depth (resourcesAt actions)) := he
    have hdepth : p.depth = fun i => (depthsAlong s.needs p.order).getD i 0 := by
      rw [← h.depths]
      rfl
    rw [hbatches]
    refine ⟨(tiersBelow_perm n).trans (List.Perm.of_eq ?_), inOrder_tiers ?_ ?_ n⟩
    · refine List.filter_eq_self.mpr ?_
      intro i hi
      exact decide_eq_true (hn i hi)
    · exact h.grown.needs_subset
    · intro i hi j hj
      rw [hdepth]
      exact h.grown.depth_lt i hi j hj

end Changeover
