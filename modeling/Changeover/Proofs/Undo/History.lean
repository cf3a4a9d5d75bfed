import Changeover.UndoStack
import Mathlib.Data.List.Basic

/-!
# Histories of the undo stack

Pushes are numbered in the order in which they are made, and a watched world notes what becomes of
each. Watching changes nothing: without numbers and notes a watched run is the plain run. A history
grows in a few ways only, and only the newest tracked change ever leaves; everything said here of a
whole run is read off that.

Histories are kept latest first, as the stack is.
-/

namespace Changeover

/-- A change under the number of its push. -/
structure Numbered (C : Type) where
  number : Nat
  change : C

/-- What becomes of a numbered push. -/
inductive UndoEvent where
  | tracked (n : Nat)
  | refused (n : Nat)
  /-- A call of `restore`: the label of the change, and how the call ended. -/
  | restored (n : Nat) (label : String) (ending : Except (Stop Fault) Unit)
  /-- Handed back by the call that popped it. -/
  | returned (n : Nat)
  | dropped (n : Nat)

namespace UndoEvent

def tracked? : UndoEvent → Option Nat
  | .tracked n => some n
  | _ => none

def pushed? : UndoEvent → Option Nat
  | .tracked n | .refused n => some n
  | _ => none

def restored? : UndoEvent → Option Nat
  | .restored n .. => some n
  | _ => none

def returned? : UndoEvent → Option Nat
  | .returned n => some n
  | _ => none

def dropped? : UndoEvent → Option Nat
  | .dropped n => some n
  | _ => none

/-- The line to write down about a restore that went wrong. -/
def complaint? : UndoEvent → Option String
  | .restored _ label (.error e) => some s!"{label}: {e.report}"
  | _ => none

end UndoEvent

/-! ### What a history says -/

def trackedIn (h : List UndoEvent) : List Nat := h.filterMap UndoEvent.tracked?

def pushedIn (h : List UndoEvent) : List Nat := h.filterMap UndoEvent.pushed?

def restoredIn (h : List UndoEvent) : List Nat := h.filterMap UndoEvent.restored?

def returnedIn (h : List UndoEvent) : List Nat := h.filterMap UndoEvent.returned?

def droppedIn (h : List UndoEvent) : List Nat := h.filterMap UndoEvent.dropped?

def complaintsIn (h : List UndoEvent) : List String := h.filterMap UndoEvent.complaint?

/-- Pushes that have left the stack, in either way. -/
def goneIn (h : List UndoEvent) : List Nat := restoredIn h ++ droppedIn h

/-- Pushes that were tracked and have not left. -/
def liveIn (h : List UndoEvent) : List Nat := (trackedIn h).filter (· ∉ goneIn h)

/-- The ways in which a history grows. The lists are the numbers on the stack, newest first, and
those that were restored and not yet handed back, in the order of the restores. Only the first
number on the stack can leave. -/
inductive LifoHistory : List UndoEvent → List Nat → List Nat → Prop where
  | nil : LifoHistory [] [] []
  | tracked {h live n} : LifoHistory h live [] → (∀ m ∈ trackedIn h, m < n) →
      LifoHistory (.tracked n :: h) (n :: live) []
  | refused {h live n} : LifoHistory h live [] → LifoHistory (.refused n :: h) live []
  | restored {h live owed n label ending} : LifoHistory h (n :: live) owed →
      LifoHistory (.restored n label ending :: h) live (owed ++ [n])
  | returned {h live owed n} : LifoHistory h live (n :: owed) →
      LifoHistory (.returned n :: h) live owed
  | dropped {h live n} : LifoHistory h (n :: live) [] → LifoHistory (.dropped n :: h) live []

namespace LifoHistory

variable {h : List UndoEvent} {live owed : List Nat}

theorem sorted (hl : LifoHistory h live owed) :
    (trackedIn h).Pairwise (· > ·) ∧ live.Sublist (trackedIn h) := by
  induction hl with
  | nil => simp [trackedIn]
  | tracked _ hn ih =>
    refine ⟨List.pairwise_cons.mpr ⟨fun m hm => hn m hm, ih.1⟩, ih.2.cons_cons _⟩
  | refused _ ih => exact ih
  | restored _ ih => exact ⟨ih.1, (List.sublist_cons_self _ _).trans ih.2⟩
  | returned _ ih => exact ih
  | dropped _ ih => exact ⟨ih.1, (List.sublist_cons_self _ _).trans ih.2⟩

theorem live_sorted (hl : LifoHistory h live owed) : live.Pairwise (· > ·) :=
  hl.sorted.1.sublist hl.sorted.2

theorem mem_tracked (hl : LifoHistory h live owed) {n : Nat} (hn : n ∈ live) :
    n ∈ trackedIn h := hl.sorted.2.subset hn

theorem gone_subset_tracked (hl : LifoHistory h live owed) : goneIn h ⊆ trackedIn h := by
  induction hl with
  | nil => simp [goneIn, restoredIn, droppedIn]
  | tracked _ _ ih => exact fun n hn => List.mem_cons_of_mem _ (ih hn)
  | refused _ ih => exact ih
  | restored hl ih =>
    intro m hm
    rcases List.mem_cons.mp hm with rfl | hm
    · exact hl.mem_tracked List.mem_cons_self
    · exact ih hm
  | returned _ ih => exact ih
  | dropped hl ih =>
    intro m hm
    rcases List.mem_append.mp hm with hm | hm
    · exact ih (List.mem_append_left _ hm)
    · rcases List.mem_cons.mp hm with rfl | hm
      · exact hl.mem_tracked List.mem_cons_self
      · exact ih (List.mem_append_right _ hm)

theorem filter_ne_head {n : Nat} (hs : (n :: live).Pairwise (· > ·)) :
    (n :: live).filter (· ≠ n) = live := by
  rw [List.filter_cons_of_neg (by simp), List.filter_eq_self]
  intro m hm
  have : n > m := List.rel_of_pairwise_cons hs hm
  exact decide_eq_true (by omega)

theorem liveIn_of_gone {h h' : List UndoEvent} {n : Nat} (ht : trackedIn h' = trackedIn h)
    (hg : ∀ m, m ∈ goneIn h' ↔ m = n ∨ m ∈ goneIn h) :
    liveIn h' = (liveIn h).filter (· ≠ n) := by
  unfold liveIn
  rw [ht, List.filter_filter]
  apply List.filter_congr
  intro m _
  simp only [hg, not_or, Bool.decide_and]

theorem live_eq (hl : LifoHistory h live owed) : liveIn h = live := by
  induction hl with
  | nil => rfl
  | @tracked h live n hl hn ih =>
    have hg : n ∉ goneIn h := fun hm => Nat.lt_irrefl n (hn n (hl.gone_subset_tracked hm))
    have hc : liveIn (.tracked n :: h) = n :: liveIn h :=
      List.filter_cons_of_pos (decide_eq_true hg)
    rw [hc, ih]
  | refused _ ih => exact ih
  | @restored h live _ n label ending hl ih =>
    have hg : goneIn (.restored n label ending :: h) = n :: goneIn h := rfl
    have hc : liveIn (.restored n label ending :: h) = (liveIn h).filter (· ≠ n) :=
      liveIn_of_gone rfl fun m => by rw [hg, List.mem_cons]
    rw [hc, ih]
    exact filter_ne_head hl.live_sorted
  | returned _ ih => exact ih
  | @dropped h live n hl ih =>
    have hg : goneIn (.dropped n :: h) = restoredIn h ++ n :: droppedIn h := rfl
    have hc : liveIn (.dropped n :: h) = (liveIn h).filter (· ≠ n) := by
      refine liveIn_of_gone rfl ?_
      intro m
      rw [hg]
      exact List.perm_middle.mem_iff.trans List.mem_cons
    rw [hc, ih]
    exact filter_ne_head hl.live_sorted

theorem not_gone (hl : LifoHistory h live owed) {n : Nat} (hn : n ∈ live) : n ∉ goneIn h := by
  rw [← hl.live_eq] at hn
  simpa using (List.mem_filter.mp hn).2

theorem gone_nodup (hl : LifoHistory h live owed) : (goneIn h).Nodup := by
  induction hl with
  | nil => exact .nil
  | tracked _ _ ih => exact ih
  | refused _ ih => exact ih
  | restored hl ih => exact List.nodup_cons.mpr ⟨hl.not_gone List.mem_cons_self, ih⟩
  | returned _ ih => exact ih
  | dropped hl ih =>
    exact List.perm_middle.nodup_iff.mpr
      (List.nodup_cons.mpr ⟨hl.not_gone List.mem_cons_self, ih⟩)

/-- Changes are handed back in the order in which they were restored. -/
theorem restored_eq (hl : LifoHistory h live owed) :
    restoredIn h = owed.reverse ++ returnedIn h := by
  induction hl with
  | nil => rfl
  | tracked _ _ ih => exact ih
  | refused _ ih => exact ih
  | @restored h _ owed n label ending _ ih =>
    have hr : restoredIn (.restored n label ending :: h) = n :: restoredIn h := rfl
    have hb : returnedIn (.restored n label ending :: h) = returnedIn h := rfl
    rw [hr, hb, ih]
    simp
  | @returned h _ owed n _ ih =>
    have hr : restoredIn (.returned n :: h) = restoredIn h := rfl
    have hb : returnedIn (.returned n :: h) = n :: returnedIn h := rfl
    rw [hr, hb, ih]
    simp
  | dropped _ ih => exact ih

theorem suffix {h₂ h₁ : List UndoEvent} (hl : LifoHistory (h₂ ++ h₁) live owed) :
    ∃ live₁ owed₁, LifoHistory h₁ live₁ owed₁ := by
  induction h₂ generalizing live owed with
  | nil => exact ⟨live, owed, hl⟩
  | cons e h₂ ih =>
    cases hl with
    | tracked hl _ => exact ih hl
    | refused hl => exact ih hl
    | restored hl => exact ih hl
    | returned hl => exact ih hl
    | dropped hl => exact ih hl

/-- A restored push is the newest of those tracked at that time. -/
theorem restored_top {h₂ h₁ : List UndoEvent} {n : Nat} {label : String}
    {ending : Except (Stop Fault) Unit}
    (hl : LifoHistory (h₂ ++ .restored n label ending :: h₁) live owed) :
    n ∈ liveIn h₁ ∧ ∀ m ∈ liveIn h₁, m ≤ n := by
  obtain ⟨_, _, hl⟩ := hl.suffix
  cases hl with
  | restored hl =>
    rw [hl.live_eq]
    refine ⟨List.mem_cons_self, ?_⟩
    intro m hm
    rcases List.mem_cons.mp hm with rfl | hm
    · exact Nat.le_refl m
    · exact Nat.le_of_lt (List.rel_of_pairwise_cons hl.live_sorted hm)

theorem returned_suffix (hl : LifoHistory h live owed) : returnedIn h <:+ restoredIn h :=
  ⟨owed.reverse, hl.restored_eq.symm⟩

theorem returnAll (hl : LifoHistory h live owed) :
    LifoHistory ((owed.map .returned).reverse ++ h) live [] := by
  induction owed generalizing h with
  | nil => exact hl
  | cons n owed ih => simpa using ih hl.returned

theorem dropAll (hl : LifoHistory h live []) :
    LifoHistory ((live.map .dropped).reverse ++ h) [] [] := by
  induction live generalizing h with
  | nil => exact hl
  | cons n live ih => simpa using ih hl.dropped

end LifoHistory

end Changeover
