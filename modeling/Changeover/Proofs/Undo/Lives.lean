import Changeover.Proofs.Undo.Views
import Mathlib.Data.List.InsertIdx

/-!
# Lives of changes

All that is ever asked of a change is to be enabled and to be restored. The life of a change is the
list of these calls, each with the world it was made in, and it decides what the change is now.
Changes are called directly or pushed on a stack, popped and pushed again: a workshop in which every
change keeps its life works as one in which none does.

Calls are kept latest first.
-/

namespace Changeover

/-- What can be asked of a change. -/
inductive Verb where
  | enable
  | restore
  deriving DecidableEq

section

variable {C W : Type} [Reversible C W]

def Verb.run (v : Verb) (c : C) (w : W) : Except (Stop Fault) Unit × C × W :=
  match v with
  | .enable => Reversible.enable c w
  | .restore => Reversible.restore c w

/-- A change with the calls that were made on it. -/
structure Living (C W : Type) where
  born : C
  calls : List (Verb × W) := []

def lived (c : C) : List (Verb × W) → C
  | [] => c
  | (v, w) :: calls => (v.run (lived c calls) w).2.1

theorem lived_append (c : C) (later earlier : List (Verb × W)) :
    lived c (later ++ earlier) = lived (lived c earlier) later := by
  induction later with
  | nil => rfl
  | cons k later ih => rw [List.cons_append, lived, lived, ih]

namespace Living

def now (l : Living C W) : C := lived l.born l.calls

/-- Make a call and keep it. -/
def call (l : Living C W) (v : Verb) (w : W) : Except (Stop Fault) Unit × Living C W × W :=
  let (r, _, w') := v.run l.now w
  (r, { l with calls := (v, w) :: l.calls }, w')

end Living

instance : Reversible (Living C W) W where
  describe l := Reversible.describe (W := W) l.now
  enabled l := Reversible.enabled (W := W) l.now
  enable l := l.call .enable
  restore l := l.call .restore

theorem living_view : View (fun l : Living C W => l.now) (fun w : W => w) where
  describe _ := rfl
  enable _ _ := rfl
  restore _ _ := rfl

end

/-! ### Workshops -/

/-- What is done with changes and a stack. A change at hand is named by its place. -/
inductive Handling (C W : Type) where
  | bring (c : C)
  | call (v : Verb) (i : Nat)
  | push (i : Nat)
  | marker
  | pop
  | popAll
  | popPhase
  | commit
  /-- A change of the world that no call makes. -/
  | world (w : W)

def Handling.map {C D W : Type} (look : D → C) : Handling D W → Handling C W
  | .bring d => .bring (look d)
  | .call v i => .call v i
  | .push i => .push i
  | .marker => .marker
  | .pop => .pop
  | .popAll => .popAll
  | .popPhase => .popPhase
  | .commit => .commit
  | .world w => .world w

/-- A stack, the changes at hand, those that nobody holds any more, and the world. -/
structure Workshop (C W : Type) where
  undo : UndoStack C := {}
  hand : List C := []
  gone : List C := []
  world : W

namespace Workshop

/-- Every change there has been, as it is now or was when it was last held. -/
def changes {C W : Type} (s : Workshop C W) : List C := s.undo.changes ++ s.hand ++ s.gone

def map {C D W : Type} (look : D → C) (s : Workshop D W) : Workshop C W :=
  ⟨s.undo.map look, s.hand.map look, s.gone.map look, s.world⟩

variable {C D W : Type} [Reversible C W] [Reversible D W]

/-- A change that is popped is at hand again. One that is refused is gone, as it is after the call
that failed. -/
def step (s : Workshop C W) : Handling C W → Workshop C W
  | .bring c => { s with hand := c :: s.hand }
  | .call v i =>
    match s.hand[i]? with
    | none => s
    | some c =>
      let (_, c', w) := v.run c s.world
      { s with hand := s.hand.set i c', world := w }
  | .push i =>
    match s.hand[i]? with
    | none => s
    | some c =>
      match s.undo.push c s.world with
      | (.ok (), u, w) => { s with undo := u, hand := s.hand.eraseIdx i, world := w }
      | (.error _, u, w) =>
        let (_, c', _) := Reversible.enable c s.world
        ⟨u, s.hand.eraseIdx i, c' :: s.gone, w⟩
  | .marker => { s with undo := s.undo.pushMarker }
  | .pop =>
    match s.undo.pop s.world with
    | (.ok c, u, w) => { s with undo := u, hand := c :: s.hand, world := w }
    | (.error _, u, w) => { s with undo := u, world := w }
  | .popAll =>
    match s.undo.popAll s.world with
    | (.ok cs, u, w) => { s with undo := u, hand := cs ++ s.hand, world := w }
    | (.error _, u, w) => { s with undo := u, world := w }
  | .popPhase =>
    let (cs, u, w) := s.undo.popPhase s.world
    { s with undo := u, hand := cs ++ s.hand, world := w }
  | .commit => { s with undo := s.undo.commit.2, gone := s.undo.changes ++ s.gone }
  | .world w => { s with world := w }

theorem step_map {look : D → C} (hv : View look (fun w : W => w)) (s : Workshop D W)
    (x : Handling D W) : (s.step x).map look = (s.map look).step (x.map look) := by
  have hat (i : Nat) : (s.map look).hand[i]? = s.hand[i]?.map look := List.getElem?_map
  cases x with
  | bring d => rfl
  | call v i =>
    simp only [step, Handling.map, hat]
    cases s.hand[i]? with
    | none => rfl
    | some d =>
      have hrun : v.run (look d) s.world =
          ((v.run d s.world).1, look (v.run d s.world).2.1, (v.run d s.world).2.2) := by
        cases v with
        | enable => exact hv.enable d s.world
        | restore => exact hv.restore d s.world
      change map look ⟨s.undo, s.hand.set i (v.run d s.world).2.1, s.gone, (v.run d s.world).2.2⟩ =
        _
      simp only [Option.map_some, map, List.map_set, hrun]
  | push i =>
    simp only [step, Handling.map, hat]
    cases s.hand[i]? with
    | none => rfl
    | some d =>
      have hpush := hv.push s.undo d s.world
      have hrefused := hv.enable d s.world
      simp only [Option.map_some, map, hpush, hrefused]
      rcases s.undo.push d s.world with ⟨_ | _, u, w⟩
      · simp only [List.eraseIdx_map, List.map_cons]
      · simp only [List.eraseIdx_map]
  | marker => rfl
  | pop =>
    have hpop := hv.pop s.undo s.world
    simp only [step, Handling.map, map, hpop]
    rcases s.undo.pop s.world with ⟨_ | _, u, w⟩ <;> rfl
  | popAll =>
    have hpop := hv.popAll s.undo s.world
    simp only [step, Handling.map, map, hpop]
    rcases s.undo.popAll s.world with ⟨_ | cs, u, w⟩
    · rfl
    · simp only [Except.map, List.map_append]
  | popPhase =>
    have hpop := hv.popPhase s.undo s.world
    simp only [step, Handling.map, map, hpop, List.map_append]
  | commit =>
    simp only [step, Handling.map, map, UndoStack.commit_map, UndoStack.changes_map,
      List.map_append]
  | world w => rfl

def run (w : W) (xs : List (Handling C W)) : Workshop C W := xs.foldl step { world := w }

theorem run_map {look : D → C} (hv : View look (fun w : W => w)) (w : W)
    (xs : List (Handling D W)) : (run w xs).map look = run w (xs.map (Handling.map look)) := by
  have hstart : map look ({ world := w } : Workshop D W) = { world := w } := rfl
  unfold run
  rw [← hstart]
  generalize ({ world := w } : Workshop D W) = s
  induction xs generalizing s with
  | nil => rfl
  | cons x xs ih => rw [List.map_cons, List.foldl_cons, List.foldl_cons, ih, step_map hv]

end Workshop

def Living.newborn {C W : Type} (c : C) : Living C W := { born := c }

theorem Handling.map_now_newborn {C W : Type} [Reversible C W] (x : Handling C W) :
    (x.map Living.newborn).map (fun l : Living C W => l.now) = x := by
  cases x <;> rfl

theorem Workshop.run_newborn {C W : Type} [Reversible C W] (w : W) (xs : List (Handling C W)) :
    (run w (xs.map (Handling.map Living.newborn))).map (fun l : Living C W => l.now) =
      run w xs := by
  rw [run_map living_view, List.map_map]
  have hid : Handling.map (fun l : Living C W => l.now) ∘ Handling.map Living.newborn =
      (id : Handling C W → Handling C W) := funext Handling.map_now_newborn
  rw [hid, List.map_id]

end Changeover
