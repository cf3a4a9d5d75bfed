import Changeover.Change
import Changeover.Proofs.Undo.Phases
import Changeover.Proofs.Undo.Uses

/-!
# Ways to unwind a stack

A stack can be unwound at once, change by change, or phase by phase. Each way restores the changes
in turn, the newest first, so the same calls are made, the same changes are handed back and the same
failures are written down. What may differ is whether markers below the oldest change stay.
-/

namespace Changeover

namespace UndoStack

section

variable {C W : Type} [Reversible C W]

theorem size_pop_lt {s s' : UndoStack C} {w w' : W} {c : C} (h : s.pop w = (.ok c, s', w')) :
    s'.size < s.size := by
  cases hc : s.changes with
  | nil =>
    rw [pop_of_changes_nil hc] at h
    cases h
  | cons d cs =>
    obtain ⟨rest, rfl, hp⟩ := pop_of_changes_cons hc w
    rw [hp] at h
    cases h
    unfold size
    rw [hc]
    exact Nat.lt_succ_self _

/-- Pop until there is nothing left to restore. -/
def popEach (s : UndoStack C) (w : W) : List C × UndoStack C × W :=
  match _h : s.pop w with
  | (.ok c, s', w') =>
    let (cs, s'', w'') := popEach s' w'
    (c :: cs, s'', w'')
  | (.error _, s', w') => ([], s', w')
termination_by s.size
decreasing_by exact size_pop_lt _h

/-- Pop a phase for each marker, and then all that is left, which may be nothing. -/
def popPhasesAndAll (s : UndoStack C) (w : W) : List C × UndoStack C × W :=
  let (css, s', w') := popPhases s.phases s w
  let (cs, s'', w'') := s'.popAll w'
  (css.flatten ++ cs.toOption.getD [], s'', w'')

theorem restoreEach_append (cs ds : List C) (w : W) :
    restoreEach (cs ++ ds) w =
      let (cs', failures, w') := restoreEach cs w
      let (ds', failures', w'') := restoreEach ds w'
      (cs' ++ ds', failures ++ failures', w'') := by
  induction cs generalizing w with
  | nil => rfl
  | cons c cs ih => simp only [List.cons_append, restoreEach, ih, List.append_assoc]

theorem unwind_nil (s : UndoStack C) (rest : List (Entry C)) (w : W) :
    s.unwind [] rest w = ([], ⟨rest, s.failures⟩, w) := by
  simp [unwind, restoreEach]

/-- Some changes can be restored first and the others afterwards, whatever is kept between. -/
theorem unwind_append (s : UndoStack C) (cs ds : List C) (between rest : List (Entry C)) (w : W) :
    s.unwind (cs ++ ds) rest w =
      let (cs', s', w') := s.unwind cs between w
      let (ds', s'', w'') := s'.unwind ds rest w'
      (cs' ++ ds', s'', w'') := by
  simp only [unwind, restoreEach_append, List.append_assoc]

theorem unwind_cons (s : UndoStack C) (c : C) (cs : List C) (between rest : List (Entry C))
    (w : W) :
    s.unwind (c :: cs) rest w =
      let (failure, c', w') := restoreOne c w
      let (cs', s', w'') := unwind ⟨between, s.failures ++ failure.toList⟩ cs rest w'
      (c' :: cs', s', w'') := by
  simp only [unwind, restoreEach, List.append_assoc]

/-! ### At once -/

theorem popAll_of_ne_nil {s : UndoStack C} (h : s.changes ≠ []) (w : W) :
    s.popAll w = (.ok (s.unwind s.changes [] w).1, (s.unwind s.changes [] w).2) := by
  have hsome : s.isEmpty = false := by simpa [isEmpty] using h
  simp only [popAll, hsome]
  rfl

theorem popAll_eq_unwind (s : UndoStack C) (w : W) :
    ((s.popAll w).1.toOption.getD [], (s.popAll w).2) = s.unwind s.changes [] w := by
  by_cases h : s.changes = []
  · have hnone : s.isEmpty = true := by simp [isEmpty, h]
    simp [popAll, hnone, h, unwind_nil, Except.toOption]
  · rw [popAll_of_ne_nil h]
    rfl

/-! ### Phase by phase -/

theorem unwind_popPhase (s : UndoStack C) (w : W) :
    s.unwind s.changes [] w =
      let (cs, s', w') := s.popPhase w
      let (ds, s'', w'') := s'.unwind s'.changes [] w'
      (cs ++ ds, s'', w'') := by
  unfold popPhase
  cases h : s.entries.dropWhile (!·.isMarker) with
  | nil => rfl
  | cons e rest =>
    rw [changes_eq_phase_append h]
    exact s.unwind_append _ _ rest [] w

theorem unwind_popPhases (n : Nat) (s : UndoStack C) (w : W) :
    s.unwind s.changes [] w =
      let (css, s', w') := popPhases n s w
      let (ds, s'', w'') := s'.unwind s'.changes [] w'
      (css.flatten ++ ds, s'', w'') := by
  induction n generalizing s w with
  | zero => rfl
  | succ n ih =>
    rw [unwind_popPhase]
    simp only [popPhases, List.flatten_cons, List.append_assoc]
    rw [ih]

theorem popPhasesAndAll_eq_unwind (s : UndoStack C) (w : W) :
    s.popPhasesAndAll w = s.unwind s.changes [] w := by
  rw [unwind_popPhases s.phases s w]
  simp only [popPhasesAndAll, ← popAll_eq_unwind]

/-! ### Change by change -/

section

variable {s s' : UndoStack C} {w w' : W}

theorem popEach_of_ok {c : C} (h : s.pop w = (.ok c, s', w')) :
    s.popEach w = (c :: (s'.popEach w').1, (s'.popEach w').2) := by
  rw [popEach]
  split
  · next hp =>
    rw [h] at hp
    cases hp
    rfl
  · next hp =>
    rw [h] at hp
    cases hp

theorem popEach_of_changes_nil (h : s.changes = []) (w : W) : s.popEach w = ([], s, w) := by
  rw [popEach]
  split
  · next hp =>
    rw [pop_of_changes_nil h] at hp
    cases hp
  · next hp =>
    rw [pop_of_changes_nil h] at hp
    cases hp
    rfl

end

theorem pop_marker {es : List (Entry C)} (h : es.filterMap Entry.change? ≠ [])
    (failures : List String) (w : W) :
    pop ⟨.marker :: es, failures⟩ w = pop ⟨es, failures⟩ w := by
  have hdrop : (Entry.marker :: es).dropWhile Entry.isMarker = es.dropWhile Entry.isMarker := rfl
  rw [← filterMap_change?_dropWhile] at h
  simp only [pop, hdrop]
  cases hes : es.dropWhile Entry.isMarker with
  | nil =>
    rw [hes] at h
    exact absurd rfl h
  | cons e rest =>
    cases e with
    | change c => rfl
    | marker =>
      have hhead := List.head_dropWhile_not Entry.isMarker (l := es) (by simp [hes])
      simp [hes, Entry.isMarker] at hhead

theorem popEach_marker {es : List (Entry C)} (h : es.filterMap Entry.change? ≠ [])
    (failures : List String) (w : W) :
    popEach ⟨.marker :: es, failures⟩ w = popEach ⟨es, failures⟩ w := by
  obtain ⟨c, cs, hc⟩ := List.exists_cons_of_ne_nil h
  obtain ⟨rest, -, hp⟩ := pop_of_changes_cons (s := ⟨es, failures⟩) hc w
  rw [popEach_of_ok ((pop_marker h failures w).trans hp), popEach_of_ok hp]

theorem popEach_change (c : C) (es : List (Entry C)) (failures : List String) (w : W) :
    popEach ⟨.change c :: es, failures⟩ w =
      let (failure, c', w') := restoreOne c w
      let (cs, s, w'') := popEach ⟨es, failures ++ failure.toList⟩ w'
      (c' :: cs, s, w'') := by
  have hpop : pop ⟨.change c :: es, failures⟩ w = (.ok (restoreOne c w).2.1,
      ⟨es, failures ++ (restoreOne c w).1.toList⟩, (restoreOne c w).2.2) := rfl
  exact popEach_of_ok hpop

/-- The oldest change is the last one to be popped, and the markers below it stay. -/
theorem popEach_eq_unwind {above below : List (Entry C)} (c : C)
    (hbelow : below.filterMap Entry.change? = []) (failures : List String) (w : W) :
    let s : UndoStack C := ⟨above ++ .change c :: below, failures⟩
    s.popEach w = s.unwind s.changes below w := by
  intro s
  induction above generalizing failures w with
  | nil =>
    have hchanges : s.changes = [c] := congrArg (c :: ·) hbelow
    have hnone (failures : List String) : changes ⟨below, failures⟩ = [] := hbelow
    rw [hchanges, s.unwind_cons c [] below]
    refine (popEach_change c below failures w).trans ?_
    simp only [popEach_of_changes_nil (hnone _), unwind_nil]
    rfl
  | cons e above ih =>
    cases e with
    | change d =>
      have hchanges : s.changes = d :: (above ++ .change c :: below).filterMap Entry.change? := rfl
      rw [hchanges, s.unwind_cons d _ (above ++ .change c :: below)]
      refine (popEach_change d _ failures w).trans ?_
      simp only [List.append_eq, ih]
      rfl
    | marker =>
      have hsome : (above ++ .change c :: below).filterMap Entry.change? ≠ [] := by
        simp [List.filterMap_append, Entry.change?]
      exact (popEach_marker hsome failures w).trans (ih failures w)

end

/-! ### Agreement -/

section

variable {C : Type}

theorem exists_oldest {es : List (Entry C)} (h : es.filterMap Entry.change? ≠ []) :
    ∃ above c below, es = above ++ .change c :: below ∧
      below.filterMap Entry.change? = [] := by
  induction es with
  | nil => exact absurd rfl h
  | cons e es ih =>
    by_cases hes : es.filterMap Entry.change? = []
    · cases e with
      | change c => exact ⟨[], c, es, rfl, hes⟩
      | marker => exact absurd hes h
    · obtain ⟨above, c, below, rfl, hbelow⟩ := ih hes
      exact ⟨e :: above, c, below, rfl, hbelow⟩

theorem isMarker_of_filterMap_eq_nil {es : List (Entry C)}
    (h : es.filterMap Entry.change? = []) : ∀ e ∈ es, e.isMarker = true := by
  intro e he
  have hnone := List.filterMap_eq_nil_iff.mp h e he
  cases e with
  | change c => cases hnone
  | marker => rfl

end

section

variable {C W : Type} [Reversible C W]

theorem unwindings {s : UndoStack C} (hs : s.changes ≠ []) (w : W) :
    ∃ above c below, s.entries = above ++ .change c :: below ∧
      (∀ e ∈ below, e.isMarker = true) ∧
      s.popAll w = (.ok (s.unwind s.changes [] w).1, (s.unwind s.changes [] w).2) ∧
      s.popEach w = s.unwind s.changes below w ∧
      s.popPhasesAndAll w = s.unwind s.changes [] w := by
  obtain ⟨es, failures⟩ := s
  obtain ⟨above, c, below, rfl, hbelow⟩ := exists_oldest hs
  refine ⟨above, c, below, rfl, isMarker_of_filterMap_eq_nil hbelow, ?_, ?_, ?_⟩
  · exact popAll_of_ne_nil hs w
  · exact popEach_eq_unwind c hbelow failures w
  · exact popPhasesAndAll_eq_unwind _ w

end

end UndoStack

theorem UndoRun.watch_changes_ne_nil {C W : Type} {s : UndoStack C} (hs : s.changes ≠ []) (w : W) :
    (watch s w).undo.changes ≠ [] := by
  intro hnil
  have hplain : (watch s w).undo.forget = s := congrArg Prod.fst (plain_watch s w)
  rw [← hplain, UndoStack.changes_forget, hnil] at hs
  exact hs rfl

section

variable {C W : Type} [Reversible C W]

open UndoStack

/-- Popping all, popping one by one until nothing is left, and popping phase by phase and then the
rest, all restore the changes in turn, the newest first. So they make the same calls, hand back the
same changes and write down the same failures, and no change is left; of the stack only the markers
below the oldest change may stay. A watched stack has the calls in its history, each change being
restored once. -/
theorem unwindings_agree (s : UndoStack C) (hs : s.changes ≠ []) (w : W) :
    ∃ above c below, s.entries = above ++ .change c :: below ∧
      (∀ e ∈ below, e.isMarker = true) ∧
      (let (cs, failures, w') := restoreEach s.changes w
      s.popAll w = (.ok cs, ⟨[], s.failures ++ failures⟩, w') ∧
        s.popEach w = (cs, ⟨below, s.failures ++ failures⟩, w') ∧
        s.popPhasesAndAll w = (cs, ⟨[], s.failures ++ failures⟩, w')) ∧
      let r := UndoRun.watch s w
      let history := (r.undo.popAll r.world).2.2.history
      restoredIn history = List.range s.size ∧
        (r.undo.popEach r.world).2.2.history = history ∧
        (r.undo.popPhasesAndAll r.world).2.2.history = history := by
  obtain ⟨above, c, below, hsplit, hbelow, hways⟩ := unwindings hs w
  obtain ⟨_, _, _, -, -, hall, heach, hphases⟩ :=
    unwindings (UndoRun.watch_changes_ne_nil hs w) (UndoRun.watch s w).world
  refine ⟨above, c, below, hsplit, hbelow, hways, ?_⟩
  dsimp only
  rw [hall, heach, hphases]
  exact ⟨UndoRun.watch_restored s w, rfl, rfl⟩

/-- Markers between changes and below them, a restore that fails and one that panics. -/
def layered : UndoStack Change where
  entries := [.marker, .change (.rehearsed ⟨"last", none, none, true⟩), .marker, .marker,
    .change (.rehearsed ⟨"stuck", none, some (.failed ⟨"stuck", ["busy"]⟩), true⟩),
    .change (.rehearsed ⟨"wild", none, some (.panicked none), true⟩), .marker]
  failures := ["earlier"]

/-- Each way restores all three, in the same order and with the same failures, and leaves markers
at most. -/
theorem unwindings_agree_layered : ∃ failures journal,
    failures = ["earlier", "stuck: stuck: busy", "wild: unknown panic payload"] ∧
    journal = ["restore:last", "restore:stuck", "restore:wild"] ∧
    ((layered.popAll {}).2.1.failures, (layered.popAll {}).2.2.journal) = (failures, journal) ∧
    ((layered.popEach {}).2.1.failures, (layered.popEach {}).2.2.journal) = (failures, journal) ∧
    ((layered.popPhasesAndAll {}).2.1.failures, (layered.popPhasesAndAll {}).2.2.journal) =
      (failures, journal) ∧
    ∀ e ∈ (layered.popEach {}).2.1.entries, e.isMarker = true := by
  have hsome : layered.changes ≠ [] := List.cons_ne_nil _ _
  obtain ⟨above, c, below, -, hbelow, ⟨hall, heach, hphases⟩, -⟩ :=
    unwindings_agree layered hsome {}
  refine ⟨_, _, rfl, rfl, ?_, ?_, ?_, ?_⟩
  · rw [hall]
    rfl
  · rw [heach]
    rfl
  · rw [hphases]
    rfl
  · rw [heach]
    exact hbelow

end

end Changeover
