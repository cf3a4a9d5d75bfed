import Changeover.Proofs.Plan.Acyclic
import Changeover.Proofs.Plan.Canonical
import Mathlib.Data.Finset.Max

/-!
# Counting down what is waited for

A running order is found without going over all positions again and again: for each position its
open needs are counted, and once a position is placed, those that need it count one less and become
at least one deeper than it. What has counted down to zero is ready. The counts and depths of every
moment are told by what has been placed, so this gives the running order and the depths of the plan,
no matter that a depth is raised before it is final.
-/

namespace Changeover

/-- How far the positions of a stage have been placed. -/
structure Countdown where
  order : List Nat
  ready : Finset Nat
  /-- How many needs of each position are open. -/
  waiting : List Nat
  depths : List Nat

/-- The positions that need `j`, from the first on. -/
def dependents (needs : List (List Nat)) (j : Nat) : List Nat :=
  (List.range needs.length).filter fun i => (needs.getD i []).contains j

namespace Countdown

def start (needs : List (List Nat)) : Countdown :=
  let waiting := needs.map fun below => below.toFinset.card
  { order := []
    ready := {i ∈ Finset.range needs.length | waiting.getD i 0 = 0}
    waiting
    depths := List.replicate needs.length 0 }

/-- `next` has been placed, and `child` needs it. -/
def relax (next : Nat) (c : Countdown) (child : Nat) : Countdown :=
  let left := c.waiting.getD child 0 - 1
  { c with
    ready := if left = 0 then insert child c.ready else c.ready
    waiting := c.waiting.set child left
    depths := c.depths.set child (max (c.depths.getD child 0) (c.depths.getD next 0 + 1)) }

def place (needs : List (List Nat)) (c : Countdown) (next : Nat) : Countdown :=
  (dependents needs next).foldl (relax next)
    { c with order := c.order ++ [next], ready := c.ready.erase next }

def run (needs : List (List Nat)) : Nat → Countdown → Countdown
  | 0, c => c
  | n + 1, c => if h : c.ready.Nonempty then run needs n (c.place needs (c.ready.min' h)) else c

/-- What the position `i` needs and has not been placed. -/
def openNeeds (needs : List (List Nat)) (placed : List Nat) (i : Nat) : Finset Nat :=
  (needs.getD i []).toFinset \ placed.toFinset

/-- The depth that what `i` needs has asked for so far. -/
def askedDepth (needs : List (List Nat)) (placed : List Nat) (i : Nat) : Nat :=
  depthAbove (depthsAlong needs placed) ((needs.getD i []).filter (· ∈ placed))

/-- Where the countdown is once `placed` has been placed. -/
def reached (needs : List (List Nat)) (placed : List Nat) : Countdown where
  order := placed
  ready := {i ∈ Finset.range needs.length | i ∉ placed ∧ needs.getD i [] ⊆ placed}
  waiting := (List.range needs.length).map fun i => (openNeeds needs placed i).card
  depths := (List.range needs.length).map (askedDepth needs placed)

end Countdown

section

variable {needs : List (List Nat)} {placed : List Nat} {i j n : Nat}

theorem mem_dependents : i ∈ dependents needs j ↔ i < needs.length ∧ j ∈ needs.getD i [] := by
  rw [dependents, List.mem_filter, List.mem_range, List.contains_iff_mem]

theorem getD_map_range (f : Nat → Nat) (hi : i < n) : ((List.range n).map f).getD i 0 = f i := by
  simp [hi]

theorem set_map_range (f : Nat → Nat) (m : Nat) :
    ((List.range n).map f).set i m = (List.range n).map (Function.update f i m) := by
  apply List.ext_getElem
  · simp
  · intro k hk hk'
    rw [List.getElem_set, List.getElem_map, List.getElem_map, List.getElem_range,
      Function.update_apply]
    by_cases hik : i = k
    · rw [if_pos hik, if_pos hik.symm]
    · rw [if_neg hik, if_neg (Ne.symm hik)]

theorem map_eq_map_range (f : List Nat → Nat) :
    needs.map f = (List.range needs.length).map fun i => f (needs.getD i []) := by
  apply List.ext_getElem
  · simp
  · intro k hk hk'
    rw [List.length_map] at hk
    simp [hk]

theorem depthAbove_le_iff {depths below : List Nat} {m : Nat} :
    depthAbove depths below ≤ m ↔ ∀ j ∈ below, depths.getD j 0 < m := by
  constructor
  · intro h j hj
    exact (lt_depthAbove depths hj).trans_le h
  · intro h
    cases hd : depthAbove depths below with
    | zero => exact Nat.zero_le m
    | succ d =>
      obtain ⟨j, hj, rfl⟩ := exists_of_depthAbove_eq_succ hd
      exact h j hj

end

namespace Countdown

variable {needs : List (List Nat)} {placed order : List Nat} {i j next n : Nat}

theorem foldl_relax {children : List Nat} (hn : children.Nodup) (hlt : ∀ i ∈ children, i < n)
    (hnext : next < n) (hself : next ∉ children) (order : List Nat) (ready : Finset Nat)
    (waits depth : Nat → Nat) :
    children.foldl (relax next)
        ⟨order, ready, (List.range n).map waits, (List.range n).map depth⟩ =
      ⟨order, ready ∪ {i ∈ children.toFinset | waits i - 1 = 0},
        (List.range n).map fun i => if i ∈ children then waits i - 1 else waits i,
        (List.range n).map fun i =>
          if i ∈ children then max (depth i) (depth next + 1) else depth i⟩ := by
  induction children generalizing ready waits depth with
  | nil => simp
  | cons child children ih =>
    rw [List.nodup_cons] at hn
    rw [List.forall_mem_cons] at hlt
    rw [List.mem_cons, not_or] at hself
    simp only [List.foldl_cons, relax, getD_map_range _ hlt.1, getD_map_range _ hnext,
      set_map_range]
    rw [ih hn.2 hlt.2 hself.2]
    congr 1
    · ext i
      by_cases hi : i = child
      · subst hi
        by_cases hleft : waits i - 1 = 0
        · simp [hleft]
        · simp [hleft, hn.1]
      · by_cases hleft : waits child - 1 = 0
        · simp [hi, hleft]
        · simp [hi, hleft]
    · congr 1
      funext i
      by_cases hi : i = child
      · subst hi
        simp [hn.1]
      · simp [hi]
    · congr 1
      funext i
      by_cases hi : i = child
      · subst hi
        simp [hn.1]
      · simp [hi, hself.1]

theorem mem_ready : i ∈ (reached needs placed).ready ↔
    i < needs.length ∧ i ∉ placed ∧ needs.getD i [] ⊆ placed := by
  rw [reached, Finset.mem_filter, Finset.mem_range]

theorem mem_openNeeds : j ∈ openNeeds needs placed i ↔ j ∈ needs.getD i [] ∧ j ∉ placed := by
  rw [openNeeds, Finset.mem_sdiff, List.mem_toFinset, List.mem_toFinset]

theorem openNeeds_snoc (needs : List (List Nat)) (placed : List Nat) (next i : Nat) :
    openNeeds needs (placed ++ [next]) i = (openNeeds needs placed i).erase next := by
  ext j
  rw [Finset.mem_erase, mem_openNeeds, mem_openNeeds, List.mem_append, List.mem_singleton, not_or]
  tauto

theorem openNeeds_eq_empty : openNeeds needs placed i = ∅ ↔ needs.getD i [] ⊆ placed := by
  rw [openNeeds, Finset.sdiff_eq_empty_iff_subset]
  simp [Finset.subset_iff, List.subset_def]

theorem start_eq (needs : List (List Nat)) : start needs = reached needs [] := by
  have hwaiting : needs.map (fun below => below.toFinset.card) =
      (List.range needs.length).map fun i => (openNeeds needs [] i).card := by
    simp [map_eq_map_range, openNeeds]
  have hready (i : Nat) (hi : i ∈ Finset.range needs.length) :
      (needs.map fun below => below.toFinset.card).getD i 0 = 0 ↔
        i ∉ [] ∧ needs.getD i [] ⊆ [] := by
    rw [map_eq_map_range, getD_map_range _ (Finset.mem_range.mp hi)]
    simp
  have hdepths : List.replicate needs.length 0 =
      (List.range needs.length).map (askedDepth needs []) := by
    have hzero : askedDepth needs [] = fun _ => 0 := by
      funext i
      simp [askedDepth, depthAbove]
    rw [hzero, List.map_const', List.length_range]
  rw [start, reached, Finset.filter_congr hready, hwaiting, hdepths]

theorem not_mem_dependents (hi : nextReady needs placed = some i) : i ∉ dependents needs i := by
  obtain ⟨-, hout, hneeds⟩ := nextReady_eq_some hi
  exact fun hmem => hout (hneeds (mem_dependents.mp hmem).2)

theorem card_openNeeds_snoc (hi : nextReady needs placed = some i) (hj : j < needs.length) :
    (openNeeds needs (placed ++ [i]) j).card =
      if j ∈ dependents needs i then (openNeeds needs placed j).card - 1
      else (openNeeds needs placed j).card := by
  obtain ⟨-, hout, -⟩ := nextReady_eq_some hi
  rw [openNeeds_snoc]
  split
  · next hmem =>
    rw [Finset.card_erase_of_mem (mem_openNeeds.mpr ⟨(mem_dependents.mp hmem).2, hout⟩)]
  · next hmem =>
    rw [Finset.erase_eq_of_notMem]
    exact fun hopen => hmem (mem_dependents.mpr ⟨hj, (mem_openNeeds.mp hopen).1⟩)

/-- What is ready next was ready already or has counted down to zero. -/
theorem ready_snoc (h : Grown needs placed) (hi : nextReady needs placed = some i) :
    (reached needs placed).ready.erase i ∪
        {j ∈ (dependents needs i).toFinset | (openNeeds needs placed j).card - 1 = 0} =
      (reached needs (placed ++ [i])).ready := by
  obtain ⟨-, hout, hneeds⟩ := nextReady_eq_some hi
  ext j
  rw [Finset.mem_union, Finset.mem_erase, Finset.mem_filter, List.mem_toFinset, mem_ready,
    mem_ready, ← openNeeds_eq_empty, ← openNeeds_eq_empty, openNeeds_snoc, List.mem_append,
    List.mem_singleton, not_or]
  by_cases hj : j ∈ dependents needs i
  · obtain ⟨hlt, hneed⟩ := mem_dependents.mp hj
    have hopen : i ∈ openNeeds needs placed j := mem_openNeeds.mpr ⟨hneed, hout⟩
    have hfresh : j ∉ placed := fun hmem => hout (h.needs_subset j hmem hneed)
    have hne : j ≠ i := by
      rintro rfl
      exact hout (hneeds hneed)
    rw [← Finset.card_erase_of_mem hopen, Finset.card_eq_zero]
    have hsome : openNeeds needs placed j ≠ ∅ := Finset.ne_empty_of_mem hopen
    tauto
  · by_cases hlt : j < needs.length
    · have hclosed : i ∉ openNeeds needs placed j := fun hopen =>
        hj (mem_dependents.mpr ⟨hlt, (mem_openNeeds.mp hopen).1⟩)
      rw [Finset.erase_eq_of_notMem hclosed]
      tauto
    · tauto

theorem askedDepth_nextReady (hi : nextReady needs placed = some i) :
    askedDepth needs placed i = (depthsAlong needs (placed ++ [i])).getD i 0 := by
  rw [depth_of_nextReady hi, askedDepth, List.filter_eq_self.mpr]
  exact fun j hj => decide_eq_true ((nextReady_eq_some hi).2.2 hj)

/-- The depth that is asked for grows only by what the position that was placed asks for. -/
theorem askedDepth_snoc (hi : nextReady needs placed = some i) (hj : j < needs.length) :
    askedDepth needs (placed ++ [i]) j =
      if j ∈ dependents needs i then
        max (askedDepth needs placed j) (askedDepth needs placed i + 1)
      else askedDepth needs placed j := by
  have hbound (m : Nat) : askedDepth needs (placed ++ [i]) j ≤ m ↔
      askedDepth needs placed j ≤ m ∧
        (i ∈ needs.getD j [] → (depthsAlong needs (placed ++ [i])).getD i 0 < m) := by
    simp only [askedDepth, depthAbove_le_iff, List.mem_filter, List.mem_append,
      List.mem_singleton, decide_eq_true_eq]
    constructor
    · intro hall
      refine ⟨fun k hk => ?_, fun hneed => hall i ⟨hneed, .inr rfl⟩⟩
      rw [← depth_of_placed hi hk.2]
      exact hall k ⟨hk.1, .inl hk.2⟩
    · rintro ⟨hbefore, hlast⟩ k ⟨hk, hk' | rfl⟩
      · rw [depth_of_placed hi hk']
        exact hbefore k ⟨hk, hk'⟩
      · exact hlast hk
  refine eq_of_forall_ge_iff fun m => ?_
  rw [hbound, ← askedDepth_nextReady hi]
  split
  · next hmem =>
    rw [max_le_iff, Nat.succ_le_iff, imp_iff_right (mem_dependents.mp hmem).2]
  · next hmem =>
    refine and_iff_left fun hneed => ?_
    exact absurd (mem_dependents.mpr ⟨hj, hneed⟩) hmem

theorem place_reached (h : Grown needs placed) (hi : nextReady needs placed = some i) :
    (reached needs placed).place needs i = reached needs (placed ++ [i]) := by
  have hnodup : (dependents needs i).Nodup := List.nodup_range.filter _
  have hlt : ∀ j ∈ dependents needs i, j < needs.length := fun j hj => (mem_dependents.mp hj).1
  have hplace := foldl_relax hnodup hlt (nextReady_eq_some hi).1 (not_mem_dependents hi)
    (placed ++ [i]) ((reached needs placed).ready.erase i)
    (fun j => (openNeeds needs placed j).card) (askedDepth needs placed)
  refine hplace.trans ?_
  rw [ready_snoc h hi, reached]
  congr 1
  · refine List.map_congr_left fun j hj => ?_
    rw [card_openNeeds_snoc hi (List.mem_range.mp hj)]
  · refine List.map_congr_left fun j hj => ?_
    rw [askedDepth_snoc hi (List.mem_range.mp hj)]

theorem nextReady_eq_min' (hr : (reached needs placed).ready.Nonempty) :
    nextReady needs placed = some ((reached needs placed).ready.min' hr) := by
  obtain ⟨hlt, hout, hneeds⟩ := mem_ready.mp (Finset.min'_mem _ hr)
  cases hnext : nextReady needs placed with
  | none =>
    obtain ⟨j, hj, hopen⟩ := exists_need_of_nextReady_eq_none hnext hlt hout
    exact absurd (hneeds hj) hopen
  | some j =>
    have hle := nextReady_le hnext hout hneeds
    rw [Nat.le_antisymm hle (Finset.min'_le _ j (mem_ready.mpr (nextReady_eq_some hnext)))]

theorem nextReady_eq_none (hr : ¬ (reached needs placed).ready.Nonempty) :
    nextReady needs placed = none := by
  rw [Option.eq_none_iff_forall_ne_some]
  intro i hi
  exact hr ⟨i, mem_ready.mpr (nextReady_eq_some hi)⟩

theorem run_reached (h : Grown needs placed) (n : Nat) :
    run needs n (reached needs placed) = reached needs (placeReady needs n placed) := by
  induction n generalizing placed with
  | zero => rfl
  | succ n ih =>
    unfold run placeReady
    by_cases hr : (reached needs placed).ready.Nonempty
    · have hnext := nextReady_eq_min' hr
      rw [dif_pos hr, place_reached h hnext, ih (h.snoc hnext), hnext]
    · rw [dif_neg hr, nextReady_eq_none hr]

/-- Counting down gives the running order, whether or not all positions can be placed. -/
theorem run_start (needs : List (List Nat)) :
    run needs needs.length (start needs) = reached needs (runningOrder needs) := by
  rw [start_eq, run_reached .nil, runningOrder]

theorem reached_of_full (h : Grown needs order) (hl : order.length = needs.length) :
    reached needs order =
      ⟨order, ∅, List.replicate needs.length 0, depthsAlong needs order⟩ := by
  have hall {i : Nat} (hi : i < needs.length) : i ∈ order :=
    (h.perm_range hl).mem_iff.mpr (List.mem_range.mpr hi)
  rw [reached]
  congr 1
  · refine Finset.filter_eq_empty_iff.mpr fun i hi hopen => ?_
    exact hopen.1 (hall (Finset.mem_range.mp hi))
  · refine List.eq_replicate_iff.mpr ⟨by simp, fun m hm => ?_⟩
    obtain ⟨i, hi, rfl⟩ := List.mem_map.mp hm
    rw [Finset.card_eq_zero, openNeeds_eq_empty]
    exact h.needs_subset i (hall (List.mem_range.mp hi))
  · apply List.ext_getElem
    · simp
    · intro i hi hi'
      rw [depthsAlong_length] at hi'
      have hplaced : (needs.getD i []).filter (· ∈ order) = needs.getD i [] :=
        List.filter_eq_self.mpr fun j hj =>
          decide_eq_true (h.needs_subset i (hall hi') hj)
      rw [List.getElem_map, List.getElem_range, askedDepth, hplaced, ← h.depth_eq i (hall hi')]
      simp [hi']

end Countdown

theorem Grown.placeReady_eq {needs : List (List Nat)} {placed rest : List Nat}
    (h : Grown needs (placed ++ rest)) :
    Changeover.placeReady needs rest.length placed = placed ++ rest := by
  induction rest generalizing placed with
  | nil => rw [List.append_nil, List.length_nil, Changeover.placeReady]
  | cons i rest ih =>
    rw [List.length_cons, Changeover.placeReady, h.nextReady_eq]
    rw [List.append_cons] at h ⊢
    exact ih h

theorem StagePlanned.counted {known : List String} {s : JobStage} {p : StagePlan}
    (hp : StagePlanned known s p) :
    Countdown.run s.needs s.jobs.length (.start s.needs) =
      ⟨p.order, ∅, List.replicate s.jobs.length 0, p.depths⟩ := by
  have hl : p.order.length = s.jobs.length := by rw [hp.full.length_eq, List.length_range]
  have hgrown : Grown s.needs ([] ++ p.order) := hp.grown
  have horder : runningOrder s.needs = p.order := by
    rw [runningOrder, s.needs_length, ← hl]
    exact hgrown.placeReady_eq
  have hrun := Countdown.run_start s.needs
  rw [horder, Countdown.reached_of_full hp.grown (by rw [hl, s.needs_length])] at hrun
  rw [hp.depths, ← s.needs_length]
  exact hrun

end Changeover
