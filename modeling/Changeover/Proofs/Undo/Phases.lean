import Changeover.UndoStack

/-!
# Phases on a stack

A phase is a marker and the changes pushed after it. Popping phases one by one restores the changes
of each, the newest first, and brings to light what was below them, with the markers that were
there before.
-/

namespace Changeover

namespace UndoStack

section

variable {C : Type}

/-- The stack with more changes on it, the newest one first. -/
def heap (s : UndoStack C) (cs : List C) : UndoStack C :=
  { s with entries := cs.map .change ++ s.entries }

theorem heap_heap (s : UndoStack C) (cs ds : List C) : (s.heap cs).heap ds = s.heap (ds ++ cs) := by
  simp [heap]

/-- The stack with more phases on it, the newest one first. -/
def heapPhases (s : UndoStack C) : List (List C) → UndoStack C
  | [] => s
  | cs :: css => (s.heapPhases css).pushMarker.heap cs

theorem heapPhases_append (s : UndoStack C) (css dss : List (List C)) :
    s.heapPhases (css ++ dss) = (s.heapPhases dss).heapPhases css := by
  induction css with
  | nil => rfl
  | cons cs css ih => simp only [List.cons_append, heapPhases, ih]

theorem heapPhases_mk (es : List (Entry C)) (fs gs : List String) (css : List (List C)) :
    heapPhases ⟨es, gs⟩ css = ⟨(heapPhases ⟨es, fs⟩ css).entries, gs⟩ := by
  induction css with
  | nil => rfl
  | cons cs css ih =>
    simp only [heapPhases, ih]
    rfl

end

section

variable {C W : Type} [Reversible C W]

/-- Pop phases one after the other: what each of them returns, the stack and the world. -/
def popPhases : Nat → UndoStack C → W → List (List C) × UndoStack C × W
  | 0, s, w => ([], s, w)
  | n + 1, s, w =>
    let (cs, s', w') := s.popPhase w
    let (css, s'', w'') := popPhases n s' w'
    (cs :: css, s'', w'')

def restoreGroups : List (List C) → W → List (List C) × List String × W
  | [], w => ([], [], w)
  | cs :: css, w =>
    let (cs', failures, w') := restoreEach cs w
    let (css', failures', w'') := restoreGroups css w'
    (cs' :: css', failures ++ failures', w'')

theorem popPhase_heap (s : UndoStack C) (cs : List C) (w : W) :
    (s.pushMarker.heap cs).popPhase w = s.unwind cs s.entries w := by
  have hchange : ∀ e ∈ cs.map Entry.change, (!e.isMarker) = true := by
    intro e he
    obtain ⟨c, -, rfl⟩ := List.mem_map.mp he
    rfl
  have hentries : (s.pushMarker.heap cs).entries = cs.map .change ++ .marker :: s.entries := rfl
  have hphase : (cs.map Entry.change).filterMap Entry.change? = cs := by
    rw [List.filterMap_map]
    exact List.filterMap_some
  unfold popPhase
  rw [hentries, List.dropWhile_append_of_pos hchange, List.takeWhile_append_of_pos hchange]
  simp only [List.dropWhile, List.takeWhile, Entry.isMarker, Bool.not_true, List.append_nil,
    hphase]
  rfl

/-- As many pops as there are phases restore them in turn, and nothing else. -/
theorem popPhases_heapPhases (s : UndoStack C) (css : List (List C)) (w : W) :
    popPhases css.length (s.heapPhases css) w =
      ((restoreGroups css w).1, { s with failures := s.failures ++ (restoreGroups css w).2.1 },
        (restoreGroups css w).2.2) := by
  induction css generalizing s w with
  | nil => simp [popPhases, restoreGroups, heapPhases]
  | cons cs css ih =>
    obtain ⟨es, fs⟩ := s
    have hfailures : (heapPhases ⟨es, fs⟩ css).failures = fs := by
      rw [heapPhases_mk es fs fs]
    have hbelow := heapPhases_mk es fs (fs ++ (restoreEach cs w).2.1) css
    simp only [List.length_cons, popPhases, heapPhases, popPhase_heap, unwind, restoreGroups,
      hfailures, ← hbelow, ih, List.append_assoc]

end

end UndoStack

/-! ### Pushes -/

section

variable {C W : Type} [Reversible C W]

/-- Pushes, between which the world may become anything, and the changes that were enabled and
tracked, the newest one first. -/
inductive Pushing (u : UndoStack C) (w : W) : List C → UndoStack C → W → Prop
  | none : Pushing u w [] u w
  | world {cs : List C} {u' : UndoStack C} {w' : W} (w'' : W) : Pushing u w cs u' w' →
    Pushing u w cs u' w''
  | tracked {cs : List C} {u' : UndoStack C} {c c' : C} {w' w'' : W} : Pushing u w cs u' w' →
    Reversible.enable c w' = (.ok (), c', w'') →
    Pushing u w (c' :: cs) (u'.push c w').2.1 (u'.push c w').2.2
  | refused {cs : List C} {u' : UndoStack C} {c c' : C} {w' w'' : W} {e : Stop Fault} :
    Pushing u w cs u' w' → Reversible.enable c w' = (.error e, c', w'') →
    Pushing u w cs (u'.push c w').2.1 (u'.push c w').2.2

namespace Pushing

variable {u u' : UndoStack C} {w w' : W} {cs : List C}

theorem eq_heap (h : Pushing u w cs u' w') : u' = u.heap cs := by
  induction h with
  | none => rfl
  | world _ _ ih => exact ih
  | tracked _ he ih =>
    rw [UndoStack.push_of_ok he, ih]
    rfl
  | refused _ he ih =>
    rw [UndoStack.push_of_error he]
    exact ih

theorem push (h : Pushing u w cs u' w') (c : C) :
    ∃ ds, Pushing u w ds (u'.push c w').2.1 (u'.push c w').2.2 := by
  rcases he : Reversible.enable c w' with ⟨ending, c', w''⟩
  cases ending with
  | ok _ => exact ⟨c' :: cs, h.tracked he⟩
  | error e => exact ⟨cs, h.refused he⟩

end Pushing

end

end Changeover
