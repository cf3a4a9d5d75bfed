import Changeover.UndoStack

/-!
# Stacks seen through a map

Changes that are kept with notes of some kind still act as the changes themselves do. Then a stack
that holds them acts as one that holds the changes: but for the notes every operation gives the same
answer and leaves the same stack and the same world.
-/

namespace Changeover

/-- What is seen of a change and its world acts as they do. -/
structure View {D V C W : Type} [Reversible D V] [Reversible C W] (look : D → C) (sight : V → W) :
    Prop where
  describe : ∀ d, Reversible.describe (W := W) (look d) = Reversible.describe (W := V) d
  enable : ∀ d v, Reversible.enable (look d) (sight v) =
    ((Reversible.enable d v).1, look (Reversible.enable d v).2.1,
      sight (Reversible.enable d v).2.2)
  restore : ∀ d v, Reversible.restore (look d) (sight v) =
    ((Reversible.restore d v).1, look (Reversible.restore d v).2.1,
      sight (Reversible.restore d v).2.2)

section

variable {C D : Type} {look : D → C}

def Entry.map (look : D → C) : Entry D → Entry C
  | .change d => .change (look d)
  | .marker => .marker

def UndoStack.map (look : D → C) (s : UndoStack D) : UndoStack C :=
  ⟨s.entries.map (Entry.map look), s.failures⟩

namespace Entry

theorem change?_map (e : Entry D) : (e.map look).change? = e.change?.map look := by
  cases e <;> rfl

theorem isMarker_map (e : Entry D) : (e.map look).isMarker = e.isMarker := by
  cases e <;> rfl

theorem isMarker_comp_map : isMarker ∘ Entry.map look = isMarker := funext isMarker_map

theorem not_isMarker_comp_map : (!isMarker ·) ∘ Entry.map look = (!isMarker ·) :=
  funext fun e => congrArg (!·) (isMarker_map e)

theorem filterMap_map (es : List (Entry D)) :
    (es.map (Entry.map look)).filterMap change? = (es.filterMap change?).map look := by
  rw [List.filterMap_map, List.map_filterMap]
  exact congrArg (List.filterMap · es) (funext change?_map)

end Entry

namespace UndoStack

theorem changes_map (s : UndoStack D) : (s.map look).changes = s.changes.map look :=
  Entry.filterMap_map s.entries

theorem commit_map (s : UndoStack D) :
    (s.map look).commit = (s.commit.1, s.commit.2.map look) := by
  rw [commit, size, changes_map, List.length_map]
  rfl

end UndoStack

end

namespace View

open UndoStack

variable {D V C W : Type} [Reversible D V] [Reversible C W] {look : D → C} {sight : V → W}

theorem push (hv : View look sight) (s : UndoStack D) (d : D) (v : V) :
    (s.map look).push (look d) (sight v) =
      ((s.push d v).1, (s.push d v).2.1.map look, sight (s.push d v).2.2) := by
  have he := hv.enable d v
  rcases hd : Reversible.enable d v with ⟨r, d', v'⟩
  rw [hd] at he
  cases r with
  | ok =>
    rw [push_of_ok he, push_of_ok hd]
    rfl
  | error e =>
    rw [push_of_error he, push_of_error hd, hv.describe]

theorem restoreOne (hv : View look sight) (d : D) (v : V) :
    restoreOne (look d) (sight v) = ((UndoStack.restoreOne d v).1,
      look (UndoStack.restoreOne d v).2.1, sight (UndoStack.restoreOne d v).2.2) := by
  unfold UndoStack.restoreOne
  rw [hv.restore]
  rcases Reversible.restore d v with ⟨_ | _, d', v'⟩
  · simp only [hv.describe]
  · rfl

theorem restoreEach (hv : View look sight) (ds : List D) (v : V) :
    restoreEach (ds.map look) (sight v) = ((UndoStack.restoreEach ds v).1.map look,
      (UndoStack.restoreEach ds v).2.1, sight (UndoStack.restoreEach ds v).2.2) := by
  induction ds generalizing v with
  | nil => rfl
  | cons d ds ih =>
    simp only [List.map_cons, UndoStack.restoreEach, hv.restoreOne d v]
    rw [ih]

theorem unwind (hv : View look sight) (s : UndoStack D) (ds : List D) (rest : List (Entry D))
    (v : V) : (s.map look).unwind (ds.map look) (rest.map (Entry.map look)) (sight v) =
      ((s.unwind ds rest v).1.map look, (s.unwind ds rest v).2.1.map look,
        sight (s.unwind ds rest v).2.2) := by
  simp only [UndoStack.unwind, hv.restoreEach ds v]
  rfl

theorem pop (hv : View look sight) (s : UndoStack D) (v : V) :
    (s.map look).pop (sight v) =
      ((s.pop v).1.map look, (s.pop v).2.1.map look, sight (s.pop v).2.2) := by
  have hd : (s.map look).entries.dropWhile Entry.isMarker =
      (s.entries.dropWhile Entry.isMarker).map (Entry.map look) := by
    rw [UndoStack.map, List.dropWhile_map, Entry.isMarker_comp_map]
  unfold UndoStack.pop
  rw [hd]
  cases s.entries.dropWhile Entry.isMarker with
  | nil => rfl
  | cons e rest =>
    cases e with
    | marker => rfl
    | change d =>
      simp only [List.map_cons, Entry.map, hv.restoreOne d v]
      rfl

theorem popAll (hv : View look sight) (s : UndoStack D) (v : V) :
    (s.map look).popAll (sight v) =
      ((s.popAll v).1.map (List.map look), (s.popAll v).2.1.map look, sight (s.popAll v).2.2) := by
  have he : (s.map look).isEmpty = s.isEmpty := by simp [isEmpty, changes_map]
  unfold UndoStack.popAll
  rw [he]
  split
  · rfl
  · have hu := hv.unwind s s.changes [] v
    rw [← changes_map, List.map_nil] at hu
    rw [hu]
    rfl

theorem popPhase (hv : View look sight) (s : UndoStack D) (v : V) :
    (s.map look).popPhase (sight v) =
      ((s.popPhase v).1.map look, (s.popPhase v).2.1.map look, sight (s.popPhase v).2.2) := by
  have hd : (s.map look).entries.dropWhile (!·.isMarker) =
      (s.entries.dropWhile (!·.isMarker)).map (Entry.map look) := by
    rw [UndoStack.map, List.dropWhile_map, Entry.not_isMarker_comp_map]
  have ht : (s.map look).entries.takeWhile (!·.isMarker) =
      (s.entries.takeWhile (!·.isMarker)).map (Entry.map look) := by
    rw [UndoStack.map, List.takeWhile_map, Entry.not_isMarker_comp_map]
  unfold UndoStack.popPhase
  rw [hd, ht]
  cases s.entries.dropWhile (!·.isMarker) with
  | nil => rfl
  | cons e rest =>
    simp only [List.map_cons, Entry.filterMap_map]
    rw [hv.unwind]

end View

end Changeover
