import Changeover.Proofs.Plan.Acyclic
import Mathlib.Data.List.Forall2

/-!
# The running order is the first one

Of all orders in which the jobs of a stage could be run, the plan takes the one that comes first if
two orders are told apart at the first place at which they differ. Up to that place both have placed
the same jobs, so the other order has a ready job there too, and the plan's is the first that is
ready.
-/

namespace Changeover

/-! ### Choices -/

section

variable {needs : List (List Nat)} {placed rest : List Nat} {i j : Nat}

theorem nextReady_le (h : nextReady needs placed = some i) (hout : j ∉ placed)
    (hready : needs.getD j [] ⊆ placed) : i ≤ j := by
  obtain ⟨-, -, hfirst⟩ := List.find?_range_eq_some.mp h
  by_contra hlt
  have hnot := hfirst j (Nat.lt_of_not_le hlt)
  have hyes : (!placed.contains j && (needs.getD j []).all placed.contains) = true := by
    rw [Bool.and_eq_true, Bool.not_eq_true', List.contains_eq_mem, decide_eq_false_iff_not,
      List.all_eq_true]
    exact ⟨hout, fun k hk => List.contains_iff_mem.mpr (hready hk)⟩
  rw [hyes] at hnot
  cases hnot

theorem Grown.nextReady_eq (h : Grown needs (placed ++ i :: rest)) :
    nextReady needs placed = some i := by
  generalize horder : placed ++ i :: rest = order at h
  induction h generalizing rest with
  | nil => simp at horder
  | @snoc order k _ hk ih =>
    rcases List.eq_nil_or_concat' rest with rfl | ⟨rest, l, rfl⟩
    · obtain ⟨rfl, hik⟩ := List.append_inj' horder rfl
      cases hik
      exact hk
    · rw [← List.cons_append, ← List.append_assoc] at horder
      exact ih (List.append_inj' horder rfl).1

/-- Where orders part, the one that was grown has the smaller position. -/
theorem Grown.lex {grown : List Nat} (h : Grown needs (placed ++ grown))
    (hn : (placed ++ rest).Nodup)
    (hready : ∀ before i after, placed ++ rest = before ++ i :: after → needs.getD i [] ⊆ before)
    (hl : grown.length = rest.length) : rest = grown ∨ List.Lex (· < ·) grown rest := by
  induction grown generalizing placed rest with
  | nil =>
    rw [List.length_nil, eq_comm, List.length_eq_zero_iff] at hl
    exact .inl hl
  | cons i grown ih =>
    cases rest with
    | nil => cases hl
    | cons j rest =>
      -- both have placed the same so far, so what comes next in the other order is ready here too
      have hout : j ∉ placed := by
        intro hin
        exact List.disjoint_of_nodup_append hn hin List.mem_cons_self
      have hle := nextReady_le h.nextReady_eq hout (hready placed j rest rfl)
      rcases Nat.lt_or_eq_of_le hle with hlt | rfl
      · exact .inr (.rel hlt)
      · rw [List.append_cons] at hn hready h
        rcases ih h hn hready (Nat.succ.inj hl) with rfl | hlex
        · exact .inl rfl
        · exact .inr (.cons hlex)

end

/-! ### Orders of a stage -/

namespace JobStage

variable {s : JobStage} {order : List Nat} {i j : Nat}

/-- The job at `i` depends on the one at `j`. -/
def DependsAt (s : JobStage) (i j : Nat) : Prop :=
  ∃ a b, s.jobs[i]? = some a ∧ s.jobs[j]? = some b ∧ b.id ∈ a.dependencies

/-- An order in which the jobs could be run: all positions, each after those it depends on. -/
structure Runnable (s : JobStage) (order : List Nat) : Prop where
  full : order.Perm (List.range s.jobs.length)
  ordered : ∀ before i after, order = before ++ i :: after →
    ∀ j, s.DependsAt i j → j ∈ before

/-- The first of these orders, position by position. -/
structure Canonical (s : JobStage) (order : List Nat) : Prop where
  runnable : s.Runnable order
  first : ∀ other, s.Runnable other → other = order ∨ List.Lex (· < ·) order other

theorem needs_iff_dependsAt (hn : s.ids.Nodup) : s.Needs i j ↔ s.DependsAt i j := by
  rw [needs_iff]
  constructor
  · rintro ⟨a, ha, d, hd, hj⟩
    have hid := getElem?_of_idxOf? hj
    obtain ⟨b, hb, rfl⟩ : ∃ b, s.jobs[j]? = some b ∧ b.id = d := by simpa [ids] using hid
    exact ⟨a, b, ha, hb, hd⟩
  · rintro ⟨a, b, ha, hb, hd⟩
    have hj : s.ids[j]? = some b.id := by simp [ids, hb]
    obtain ⟨k, hk⟩ := Option.isSome_iff_exists.mp
      (List.isSome_idxOf?.mpr (List.mem_of_getElem? hj))
    have hlt := (List.getElem?_eq_some_iff.mp (getElem?_of_idxOf? hk)).1
    have hkj := (List.getElem?_inj hlt hn).mp ((getElem?_of_idxOf? hk).trans hj.symm)
    exact ⟨a, ha, b.id, hd, hkj ▸ hk⟩

theorem runnable_of_grown (hn : s.ids.Nodup) (h : Grown s.needs order)
    (hfull : order.Perm (List.range s.jobs.length)) : s.Runnable order := by
  refine ⟨hfull, ?_⟩
  rintro before i after rfl j hdep
  exact (nextReady_eq_some h.nextReady_eq).2.2 ((needs_iff_dependsAt hn).mpr hdep)

theorem Runnable.needs_subset (h : s.Runnable order) (hn : s.ids.Nodup) {before after : List Nat}
    (horder : order = before ++ i :: after) : s.needs.getD i [] ⊆ before :=
  fun j hj => h.ordered before i after horder j ((needs_iff_dependsAt hn).mp hj)

theorem canonical_of_grown (hn : s.ids.Nodup) (h : Grown s.needs order)
    (hfull : order.Perm (List.range s.jobs.length)) : s.Canonical order := by
  refine ⟨runnable_of_grown hn h hfull, ?_⟩
  intro other hother
  have hnodup : other.Nodup := hother.full.nodup_iff.mpr List.nodup_range
  have hlength : order.length = other.length := (hfull.trans hother.full.symm).length_eq
  have hgrown : Grown s.needs ([] ++ order) := h
  exact hgrown.lex hnodup (fun _ _ _ => hother.needs_subset hn) hlength

end JobStage

theorem Planned.forall₂ {known : List String} {stages : List JobStage} {plans : List StagePlan}
    (h : Planned known stages plans) (hn : (stages.flatMap JobStage.ids).Nodup) :
    List.Forall₂ (fun s p => s.ids.Nodup ∧ ∃ known, StagePlanned known s p) stages plans := by
  induction stages generalizing known plans with
  | nil =>
    cases plans with
    | nil => exact .nil
    | cons p plans => exact h.elim
  | cons s stages ih =>
    cases plans with
    | nil => exact h.elim
    | cons p plans =>
      rw [List.flatMap_cons] at hn
      obtain ⟨hs, hrest, -⟩ := List.nodup_append'.mp hn
      exact .cons ⟨hs, known, h.1⟩ (ih h.2 hrest)

/-- Where there is a plan, every stage is run in the first of the orders it can be run in. -/
theorem plan_canonical {stages : List JobStage} {done : List String} {plans : List StagePlan}
    (h : plan stages done = .ok plans) :
    List.Forall₂ (fun s p => s.Canonical p.order) stages plans := by
  obtain ⟨hn, -, hplanned⟩ := plan_ok h
  refine (hplanned.forall₂ hn).imp ?_
  rintro s p ⟨hs, known, hp⟩
  exact s.canonical_of_grown hs hp.grown hp.full

/-- The first job waits for the third, which it names twice; the other two come in between. -/
theorem plan_canonical_waiting :
    let stage : JobStage := ⟨"changes", [⟨"install", ["check", "check"]⟩, ⟨"report", []⟩,
      ⟨"check", []⟩, ⟨"note", ["report"]⟩]⟩
    plan [stage] [] = .ok [⟨"changes", [1, 2, 0, 3], [1, 0, 0, 1]⟩] ∧
      stage.Canonical [1, 2, 0, 3] := by
  intro stage
  have hplan : plan [stage] [] = .ok [⟨"changes", [1, 2, 0, 3], [1, 0, 0, 1]⟩] := rfl
  cases plan_canonical hplan with
  | cons hstage _ => exact ⟨hplan, hstage⟩

end Changeover
