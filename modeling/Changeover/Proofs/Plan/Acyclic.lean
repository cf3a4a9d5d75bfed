import Changeover.Proofs.Plan.Order
import Mathlib.Data.Fintype.Card
import Mathlib.Data.Set.Finite.Lemmas
import Mathlib.Logic.Relation

/-!
# Which stages have a running order

Placing stops only where every position left needs another one that is left. There are finitely many
of them, so from each a chain of needs leads into a circle. Conversely depth grows along needs, so a
stage that is placed as a whole has no circle.
-/

namespace Changeover

/-- Where each of finitely many leads to another of them, each leads into a circle. -/
theorem exists_circle {n : Nat} {R : Nat → Nat → Prop} {S : Nat → Prop}
    (hS : ∀ i, S i → i < n ∧ ∃ j, R i j ∧ S j) {i : Nat} (hi : S i) :
    ∃ j, Relation.ReflTransGen R i j ∧ S j ∧ Relation.TransGen R j j := by
  by_contra hnone
  let Reached := {j : Nat // S j ∧ Relation.ReflTransGen R i j}
  have hfinite : Finite Reached :=
    ((Set.finite_lt_nat n).subset fun j hj => (hS j hj.1).1).to_subtype
  have htrans : IsTrans Reached fun a b => Relation.TransGen R b.1 a.1 :=
    ⟨fun _ _ _ hab hbc => hbc.trans hab⟩
  have hirrefl : Std.Irrefl fun a b : Reached => Relation.TransGen R b.1 a.1 :=
    ⟨fun a ha => hnone ⟨a.1, a.2.2, a.2.1, ha⟩⟩
  have hwf := Finite.wellFounded_of_trans_of_irrefl
    fun a b : Reached => Relation.TransGen R b.1 a.1
  -- the last one reached would lead to yet another one
  obtain ⟨last, -, hlast⟩ := hwf.has_min Set.univ ⟨⟨i, hi, .refl⟩, trivial⟩
  obtain ⟨-, j, hj, hjS⟩ := hS last.1 last.2.1
  exact hlast ⟨j, hjS, last.2.2.tail hj⟩ trivial (.single hj)

/-! ### Positions that are left -/

section

variable {needs : List (List Nat)} {placed : List Nat} {i : Nat}

theorem Grown.length_eq (h : Grown needs placed) (hall : ∀ i < needs.length, i ∈ placed) :
    placed.length = needs.length := by
  refine Nat.le_antisymm h.length_le ?_
  have hs : (List.range needs.length).Subperm placed := by
    refine List.subperm_of_subset List.nodup_range ?_
    intro i hi
    exact hall i (List.mem_range.mp hi)
  simpa using hs.length_le

theorem exists_need_of_nextReady_eq_none (h : nextReady needs placed = none)
    (hi : i < needs.length) (hout : i ∉ placed) : ∃ j ∈ needs.getD i [], j ∉ placed := by
  have hnot := List.find?_eq_none.mp h i (List.mem_range.mpr hi)
  by_contra hall
  apply hnot
  simp only [Bool.and_eq_true, Bool.not_eq_true', List.all_eq_true, List.contains_iff_mem]
  refine ⟨by simpa using hout, ?_⟩
  intro j hj
  by_contra hj'
  exact hall ⟨j, hj, hj'⟩

theorem Grown.nextReady_placeReady (h : Grown needs placed) {n : Nat}
    (hn : needs.length ≤ n + placed.length) :
    nextReady needs (Changeover.placeReady needs n placed) = none := by
  induction n generalizing placed with
  | zero =>
    unfold Changeover.placeReady
    cases hr : nextReady needs placed with
    | none => rfl
    | some i =>
      have hlen := (h.snoc hr).length_le
      rw [List.length_append, List.length_singleton] at hlen
      omega
  | succ n ih =>
    unfold Changeover.placeReady
    cases hr : nextReady needs placed with
    | none => exact hr
    | some i =>
      refine ih (h.snoc hr) ?_
      rw [List.length_append, List.length_singleton]
      omega

theorem nextReady_runningOrder (needs : List (List Nat)) :
    nextReady needs (runningOrder needs) = none :=
  Grown.nil.nextReady_placeReady (Nat.le_add_right _ _)

end

/-! ### Dependencies inside a stage -/

namespace JobStage

variable {s : JobStage} {i j : Nat} {x y : String}

/-- A job called `x` depends on `y`, which is in the stage as well. -/
def Links (s : JobStage) (x y : String) : Prop :=
  ∃ job ∈ s.jobs, job.id = x ∧ y ∈ job.dependencies ∧ y ∈ s.ids

/-- No chain of dependencies inside the stage comes back to where it started. -/
def Acyclic (s : JobStage) : Prop := ∀ x, ¬ Relation.TransGen s.Links x x

def Needs (s : JobStage) (i j : Nat) : Prop := j ∈ s.needs.getD i []

theorem getElem?_of_idxOf? {ids : List String} (h : ids.idxOf? y = some j) : ids[j]? = some y := by
  obtain ⟨hlt, hid, -⟩ := List.findIdx?_eq_some_iff_getElem.mp h
  rw [List.getElem?_eq_getElem hlt, beq_iff_eq.mp hid]

theorem exists_id (hi : i < s.jobs.length) : ∃ x, s.ids[i]? = some x :=
  ⟨s.jobs[i].id, by simp [ids, hi]⟩

theorem needs_iff : s.Needs i j ↔
    ∃ job, s.jobs[i]? = some job ∧ ∃ d ∈ job.dependencies, s.ids.idxOf? d = some j := by
  cases h : s.jobs[i]? with
  | none => simp [Needs, needs, h]
  | some job => simp [Needs, needs, h]

theorem Needs.lt_length (h : s.Needs i j) : i < s.jobs.length ∧ j < s.jobs.length := by
  obtain ⟨_, hjob, d, -, hd⟩ := needs_iff.mp h
  obtain ⟨hlt, -, -⟩ := List.findIdx?_eq_some_iff_getElem.mp hd
  exact ⟨(List.getElem?_eq_some_iff.mp hjob).1, by simpa [ids] using hlt⟩

theorem Needs.links (h : s.Needs i j) (hi : s.ids[i]? = some x) (hj : s.ids[j]? = some y) :
    s.Links x y := by
  obtain ⟨job, hjob, d, hd, hdj⟩ := needs_iff.mp h
  have hx : job.id = x := by simpa [ids, hjob] using hi
  have hy : d = y := Option.some.inj ((getElem?_of_idxOf? hdj).symm.trans hj)
  exact ⟨job, List.mem_of_getElem? hjob, hx, hy ▸ hd, List.mem_of_getElem? hj⟩

theorem Links.needs (h : s.Links x y) :
    ∃ i j, s.ids[i]? = some x ∧ s.ids[j]? = some y ∧ s.Needs i j := by
  obtain ⟨job, hjob, rfl, hy, hin⟩ := h
  obtain ⟨i, hi⟩ := List.getElem?_of_mem hjob
  obtain ⟨j, hj⟩ := Option.isSome_iff_exists.mp (List.isSome_idxOf?.mpr hin)
  exact ⟨i, j, by simp [ids, hi], getElem?_of_idxOf? hj, needs_iff.mpr ⟨job, hi, y, hy, hj⟩⟩

theorem transGen_links (h : Relation.TransGen s.Needs i j) (hi : s.ids[i]? = some x)
    (hj : s.ids[j]? = some y) : Relation.TransGen s.Links x y := by
  induction h generalizing y with
  | single hn => exact .single (hn.links hi hj)
  | @tail k l _ hn ih =>
    obtain ⟨z, hz⟩ := exists_id hn.lt_length.1
    exact (ih hz).tail (hn.links hz hj)

/-- What is not placed leads into a circle of jobs that are not placed either. -/
theorem exists_circle_of_left (hi : i < s.jobs.length) (hout : i ∉ runningOrder s.needs) :
    ∃ j, j ∉ runningOrder s.needs ∧ Relation.ReflTransGen s.Needs i j ∧
      Relation.TransGen s.Needs j j := by
  have hleft : ∀ k, (k < s.jobs.length ∧ k ∉ runningOrder s.needs) →
      k < s.jobs.length ∧ ∃ j, s.Needs k j ∧ j < s.jobs.length ∧ j ∉ runningOrder s.needs := by
    rintro k ⟨hk, hkout⟩
    have hkn : k < s.needs.length := by simpa using hk
    obtain ⟨j, hj, hjout⟩ :=
      exists_need_of_nextReady_eq_none (nextReady_runningOrder s.needs) hkn hkout
    exact ⟨hk, j, hj, (Needs.lt_length hj).2, hjout⟩
  obtain ⟨j, hreach, ⟨-, hjout⟩, hcircle⟩ :=
    exists_circle (S := fun k => k < s.jobs.length ∧ k ∉ runningOrder s.needs) hleft ⟨hi, hout⟩
  exact ⟨j, hjout, hreach, hcircle⟩

theorem acyclic_of_length (hn : s.ids.Nodup)
    (hl : (runningOrder s.needs).length = s.jobs.length) : s.Acyclic := by
  have hgrown := grown_runningOrder s.needs
  have hfull := hgrown.perm_range (by simpa using hl)
  let depth : String → Nat := fun x =>
    (depthsAlong s.needs (runningOrder s.needs)).getD (s.ids.idxOf x) 0
  have hlt : ∀ x y, s.Links x y → depth y < depth x := by
    intro x y h
    obtain ⟨i, j, hi, hj, hneeds⟩ := h.needs
    have hpos {k : Nat} {z : String} (hk : s.ids[k]? = some z) : s.ids.idxOf z = k := by
      obtain ⟨hlt, rfl⟩ := List.getElem?_eq_some_iff.mp hk
      exact hn.idxOf_getElem k hlt
    have hin : i ∈ runningOrder s.needs := by
      rw [hfull.mem_iff, List.mem_range, needs_length]
      simpa [ids] using (List.getElem?_eq_some_iff.mp hi).1
    simp only [depth]
    rw [hpos hi, hpos hj]
    exact hgrown.depth_lt i hin j hneeds
  intro x hx
  have hless : Relation.TransGen (fun m n : Nat => n < m) (depth x) (depth x) := hx.lift depth hlt
  rw [Relation.transGen_eq_self] at hless
  exact lt_irrefl _ hless

theorem exists_left_of_length (hl : (runningOrder s.needs).length ≠ s.jobs.length) :
    ∃ i < s.jobs.length, i ∉ runningOrder s.needs ∧
      ∃ x, s.ids[i]? = some x ∧ Relation.TransGen s.Links x x := by
  have hleft : ∃ i < s.jobs.length, i ∉ runningOrder s.needs := by
    by_contra hnone
    have hall : ∀ i < s.needs.length, i ∈ runningOrder s.needs := by
      intro i hi
      by_contra hout
      exact hnone ⟨i, by simpa using hi, hout⟩
    exact hl (by simpa using (grown_runningOrder s.needs).length_eq hall)
  obtain ⟨i, hi, hout⟩ := hleft
  obtain ⟨j, hjout, -, hcircle⟩ := exists_circle_of_left hi hout
  obtain ⟨k, hneeds, -⟩ := Relation.TransGen.head'_iff.mp hcircle
  have hlt : j < s.jobs.length := (Needs.lt_length hneeds).1
  obtain ⟨x, hx⟩ := exists_id hlt
  exact ⟨j, hlt, hjout, x, hx, transGen_links hcircle hx hx⟩

theorem length_of_acyclic (h : s.Acyclic) :
    (runningOrder s.needs).length = s.jobs.length := by
  by_contra hl
  obtain ⟨_, -, -, x, -, hcircle⟩ := exists_left_of_length hl
  exact h x hcircle

/-- The stage has a running order exactly if its dependencies have no circle. -/
theorem length_runningOrder_iff (hn : s.ids.Nodup) :
    (runningOrder s.needs).length = s.jobs.length ↔ s.Acyclic :=
  ⟨acyclic_of_length hn, length_of_acyclic⟩

end JobStage

end Changeover
