import Changeover.Proofs.Undo.History
import Changeover.Proofs.Undo.Views

/-!
# Runs of the undo stack

The operations of the stack in any order, first plain, then watched: each push is given the next
number, and the world notes every call of `restore` as it is made. The main statement says of every
run that the stack is a stack: what is tracked is what was pushed and has not left, each change
leaves at most once and with at most one restore, the newest leaves first, and no failure is lost.
-/

namespace Changeover

/-- An operation on the undo stack. -/
inductive UndoOp (C : Type) where
  | push (c : C)
  | marker
  | pop
  | popAll
  | popPhase
  | commit

/-- A world and what was seen to happen in it. -/
structure Watched (W : Type) where
  world : W
  history : List UndoEvent := []

namespace Watched

variable {W : Type}

def note (w : Watched W) (e : UndoEvent) : Watched W := { w with history := e :: w.history }

def noteEach (w : Watched W) (e : Nat → UndoEvent) (ns : List Nat) : Watched W :=
  { w with history := (ns.map e).reverse ++ w.history }

theorem filterMap_noteEach {α : Type} (w : Watched W) {e : Nat → UndoEvent}
    {f : UndoEvent → Option α} (h : ∀ n, f (e n) = none) (ns : List Nat) :
    (w.noteEach e ns).history.filterMap f = w.history.filterMap f := by
  simp [noteEach, List.filterMap_append, h]

end Watched

section

variable {C W : Type}

/-- A watched run: the stack, the world with its history, and the number of the next push. -/
structure UndoRun (C W : Type) where
  undo : UndoStack (Numbered C) := {}
  world : Watched W
  next : Nat := 0

namespace UndoRun

/-- What every operation keeps: the history is one of a stack that holds what the undo stack
holds, nothing is owed, every push has a number of its own, and the failures are the complaints. -/
structure Sound (r : UndoRun C W) : Prop where
  lifo : LifoHistory r.world.history (r.undo.changes.map (·.number)) []
  numbered : pushedIn r.world.history = (List.range r.next).reverse
  failures : r.undo.failures = (complaintsIn r.world.history).reverse

theorem Sound.fresh {r : UndoRun C W} (hr : r.Sound) :
    ∀ m ∈ trackedIn r.world.history, m < r.next := by
  intro m hm
  obtain ⟨e, he, ht⟩ := List.mem_filterMap.mp hm
  have hp : m ∈ pushedIn r.world.history := by
    refine List.mem_filterMap.mpr ⟨e, he, ?_⟩
    cases e <;> simp_all [UndoEvent.tracked?, UndoEvent.pushed?]
  rw [hr.numbered] at hp
  exact List.mem_range.mp (List.mem_reverse.mp hp)

theorem Sound.tracked {r : UndoRun C W} (hr : r.Sound) (c : C) :
    Sound ⟨{ r.undo with entries := .change ⟨r.next, c⟩ :: r.undo.entries },
      r.world.note (.tracked r.next), r.next + 1⟩ where
  lifo := hr.lifo.tracked hr.fresh
  numbered := by
    rw [List.range_succ, List.reverse_append]
    exact congrArg (r.next :: ·) hr.numbered
  failures := hr.failures

theorem Sound.refused {r : UndoRun C W} (hr : r.Sound) :
    Sound ⟨r.undo, r.world.note (.refused r.next), r.next + 1⟩ where
  lifo := hr.lifo.refused
  numbered := by
    rw [List.range_succ, List.reverse_append]
    exact congrArg (r.next :: ·) hr.numbered
  failures := hr.failures

theorem Sound.cleared {r : UndoRun C W} (hr : r.Sound) :
    Sound (C := C) ⟨{ r.undo with entries := [] },
      r.world.noteEach .dropped (r.undo.changes.map (·.number)), r.next⟩ := by
  refine ⟨hr.lifo.dropAll, ?_, ?_⟩
  · exact (r.world.filterMap_noteEach (fun _ => rfl) _).trans hr.numbered
  · refine hr.failures.trans (congrArg List.reverse ?_)
    exact (r.world.filterMap_noteEach (fun _ => rfl) _).symm

/-- The laws of a stack, as the history of a run shows them. -/
structure Lifo (r : UndoRun C W) : Prop where
  /-- Every push has a number of its own, and greater numbers were pushed later. -/
  numbered : pushedIn r.world.history = (List.range r.next).reverse
  /-- On the stack is what was tracked and has been neither handed back nor dropped, the newest
  push first. -/
  tracked : r.undo.changes.map (·.number) = (trackedIn r.world.history).filter
    fun n => n ∉ returnedIn r.world.history ∧ n ∉ droppedIn r.world.history
  /-- No change leaves twice, and none that was not tracked. -/
  leaves_once : (returnedIn r.world.history ++ droppedIn r.world.history).Nodup
  leaves_tracked :
    returnedIn r.world.history ++ droppedIn r.world.history ⊆ trackedIn r.world.history
  /-- A change that is handed back was restored by one call, and a dropped one by none. -/
  restored_once : restoredIn r.world.history = returnedIn r.world.history
  /-- At no time has a change been handed back that was not restored before. -/
  restored_first : ∀ later earlier, r.world.history = later ++ earlier →
    returnedIn earlier <:+ restoredIn earlier
  /-- A change is restored while it is tracked and nothing that was pushed after it is. -/
  newest_first : ∀ later n label ending earlier,
    r.world.history = later ++ .restored n label ending :: earlier →
      n ∈ liveIn earlier ∧ ∀ m ∈ liveIn earlier, m ≤ n
  /-- One line for each restore that failed or panicked, in the order of the restores. -/
  failures : r.undo.failures = (complaintsIn r.world.history).reverse

theorem Sound.restored_eq {r : UndoRun C W} (hr : r.Sound) :
    restoredIn r.world.history = returnedIn r.world.history := hr.lifo.restored_eq

theorem Sound.toLifo {r : UndoRun C W} (hr : r.Sound) : r.Lifo where
  numbered := hr.numbered
  tracked := by
    rw [← hr.lifo.live_eq]
    apply List.filter_congr
    intro n _
    simp [goneIn, hr.restored_eq]
  leaves_once := hr.restored_eq ▸ hr.lifo.gone_nodup
  leaves_tracked := hr.restored_eq ▸ hr.lifo.gone_subset_tracked
  restored_once := hr.restored_eq
  restored_first later earlier h := by
    obtain ⟨_, _, he⟩ := (h ▸ hr.lifo).suffix
    exact he.returned_suffix
  newest_first _ _ _ _ _ h := (h ▸ hr.lifo).restored_top
  failures := hr.failures

end UndoRun

end

section

variable {C W : Type} [Reversible C W]

/-- A numbered change acts as the change does, and every call of `restore` is noted. -/
instance : Reversible (Numbered C) (Watched W) where
  describe c := Reversible.describe (W := W) c.change
  enabled c := Reversible.enabled (W := W) c.change
  enable c w :=
    let (r, c', w') := Reversible.enable c.change w.world
    (r, { c with change := c' }, { w with world := w' })
  restore c w :=
    let (r, c', w') := Reversible.restore c.change w.world
    (r, { c with change := c' },
      ⟨w', .restored c.number (Reversible.describe (W := W) c.change) r :: w.history⟩)

def UndoOp.apply (s : UndoStack C × W) : UndoOp C → UndoStack C × W
  | .push c => (s.1.push c s.2).2
  | .marker => (s.1.pushMarker, s.2)
  | .pop => (s.1.pop s.2).2
  | .popAll => (s.1.popAll s.2).2
  | .popPhase => (s.1.popPhase s.2).2
  | .commit => (s.1.commit.2, s.2)

namespace UndoRun

/-- One operation. Whether a push was tracked, and what was handed back or dropped, is read off its
answer. -/
def step (r : UndoRun C W) : UndoOp C → UndoRun C W
  | .push c =>
    match r.undo.push ⟨r.next, c⟩ r.world with
    | (.ok (), u, w) => ⟨u, w.note (.tracked r.next), r.next + 1⟩
    | (.error _, u, w) => ⟨u, w.note (.refused r.next), r.next + 1⟩
  | .marker => { r with undo := r.undo.pushMarker }
  | .pop =>
    match r.undo.pop r.world with
    | (.ok c, u, w) => ⟨u, w.note (.returned c.number), r.next⟩
    | (.error _, u, w) => ⟨u, w, r.next⟩
  | .popAll =>
    match r.undo.popAll r.world with
    | (.ok cs, u, w) => ⟨u, w.noteEach .returned (cs.map (·.number)), r.next⟩
    | (.error _, u, w) => ⟨u, w, r.next⟩
  | .popPhase =>
    let (cs, u, w) := r.undo.popPhase r.world
    ⟨u, w.noteEach .returned (cs.map (·.number)), r.next⟩
  | .commit =>
    ⟨r.undo.commit.2, r.world.noteEach .dropped (r.undo.changes.map (·.number)), r.next⟩

def exec (w : W) (ops : List (UndoOp C)) : UndoRun C W := ops.foldl step { world := { world := w } }

end UndoRun

/-! ### Watching changes nothing -/

def Entry.forget : Entry (Numbered C) → Entry C
  | .change c => .change c.change
  | .marker => .marker

def UndoStack.forget (s : UndoStack (Numbered C)) : UndoStack C :=
  ⟨s.entries.map Entry.forget, s.failures⟩

theorem Entry.forget_eq_map : Entry.forget (C := C) = Entry.map (·.change) :=
  funext fun e => by cases e <;> rfl

/-- Watched changes are seen without their numbers, and the world without its history. -/
theorem watched_view : View (fun c : Numbered C => c.change) (fun w : Watched W => w.world) where
  describe _ := rfl
  enable _ _ := rfl
  restore _ _ := rfl

namespace UndoStack

theorem forget_eq_map (s : UndoStack (Numbered C)) : s.forget = s.map (·.change) := by
  rw [forget, map, Entry.forget_eq_map]

theorem changes_forget (s : UndoStack (Numbered C)) :
    s.forget.changes = s.changes.map (·.change) := by
  rw [forget_eq_map, changes_map]

theorem unwind_forget (s : UndoStack (Numbered C)) (cs : List (Numbered C))
    (rest : List (Entry (Numbered C))) (w : Watched W) :
    s.forget.unwind (cs.map (·.change)) (rest.map Entry.forget) w.world =
      ((s.unwind cs rest w).1.map (·.change), (s.unwind cs rest w).2.1.forget,
        (s.unwind cs rest w).2.2.world) := by
  rw [forget_eq_map, forget_eq_map, Entry.forget_eq_map]
  exact watched_view.unwind s cs rest w

theorem popPhase_forget (s : UndoStack (Numbered C)) (w : Watched W) :
    s.forget.popPhase w.world = ((s.popPhase w).1.map (·.change), (s.popPhase w).2.1.forget,
      (s.popPhase w).2.2.world) := by
  rw [forget_eq_map, forget_eq_map]
  exact watched_view.popPhase s w

end UndoStack

namespace UndoRun

/-- The stack and the world of a run, without numbers and notes. -/
def plain (r : UndoRun C W) : UndoStack C × W := (r.undo.forget, r.world.world)

theorem plain_step (r : UndoRun C W) (op : UndoOp C) : (r.step op).plain = op.apply r.plain := by
  have hplain (u : UndoStack (Numbered C)) (w : Watched W) (n : Nat) :
      plain ⟨u, w, n⟩ = (u.map (·.change), w.world) := by
    rw [plain, UndoStack.forget_eq_map]
  have hseen : r.plain = (r.undo.map (·.change), r.world.world) :=
    hplain r.undo r.world r.next
  rw [hseen]
  cases op with
  | push c =>
    have h := watched_view.push r.undo ⟨r.next, c⟩ r.world
    simp only [UndoOp.apply, h, step]
    rcases r.undo.push ⟨r.next, c⟩ r.world with ⟨_ | _, u, w⟩
    · exact hplain u _ _
    · exact hplain u _ _
  | marker => exact hplain _ _ _
  | pop =>
    have h := watched_view.pop r.undo r.world
    simp only [UndoOp.apply, h, step]
    rcases r.undo.pop r.world with ⟨_ | _, u, w⟩
    · exact hplain u _ _
    · exact hplain u _ _
  | popAll =>
    have h := watched_view.popAll r.undo r.world
    simp only [UndoOp.apply, h, step]
    rcases r.undo.popAll r.world with ⟨_ | _, u, w⟩
    · exact hplain u _ _
    · exact hplain u _ _
  | popPhase =>
    have h := watched_view.popPhase r.undo r.world
    simp only [UndoOp.apply, h, step]
    exact hplain _ _ _
  | commit => exact hplain _ _ _

theorem plain_foldl (ops : List (UndoOp C)) (r : UndoRun C W) :
    (ops.foldl step r).plain = ops.foldl UndoOp.apply r.plain := by
  induction ops generalizing r with
  | nil => rfl
  | cons op ops ih => rw [List.foldl_cons, List.foldl_cons, ih, plain_step]

end UndoRun

/-! ### One step -/

namespace UndoStack

/-- Restoring the newest changes in turn takes their numbers off the stack, hands back the same
changes, and complains of those whose restore went wrong. -/
theorem restoreEach_history {cs cs' : List (Numbered C)} {w w' : Watched W}
    {failures : List String} {live owed : List Nat}
    (hr : restoreEach cs w = (cs', failures, w'))
    (hl : LifoHistory w.history (cs.map (·.number) ++ live) owed) :
    LifoHistory w'.history live (owed ++ cs'.map (·.number)) ∧
      complaintsIn w'.history = failures.reverse ++ complaintsIn w.history ∧
      pushedIn w'.history = pushedIn w.history := by
  induction cs generalizing w owed cs' failures with
  | nil =>
    cases hr
    exact ⟨by simpa using hl, rfl, rfl⟩
  | cons c cs ih =>
    rcases hc : Reversible.restore c.change w.world with ⟨ending, c', wc⟩
    obtain ⟨event, he⟩ : ∃ event, event = UndoEvent.restored c.number
      (Reversible.describe (W := W) c.change) ending := ⟨_, rfl⟩
    have ho : restoreOne c w =
        (event.complaint?, { c with change := c' }, ⟨wc, event :: w.history⟩) := by
      subst he
      cases ending <;> simp [restoreOne, Reversible.restore, Reversible.describe, hc] <;> rfl
    rcases hn : restoreEach cs (⟨wc, event :: w.history⟩ : Watched W) with ⟨ds, more, wd⟩
    simp only [restoreEach, ho, hn] at hr
    cases hr
    obtain ⟨hl, hm, hp⟩ := ih hn (he ▸ hl.restored)
    refine ⟨by simpa using hl, ?_, ?_⟩
    · rw [hm, List.reverse_append, List.append_assoc]
      congr 1
      subst he
      cases ending <;> rfl
    · rw [hp]
      subst he
      rfl

end UndoStack

namespace UndoRun

theorem Sound.unwind {r : UndoRun C W} (hr : r.Sound) {cs cs' : List (Numbered C)}
    {rest : List (Entry (Numbered C))} {u : UndoStack (Numbered C)} {w : Watched W}
    (hc : r.undo.changes = cs ++ rest.filterMap Entry.change?)
    (hu : r.undo.unwind cs rest r.world = (cs', u, w)) :
    Sound ⟨u, w.noteEach .returned (cs'.map (·.number)), r.next⟩ := by
  have hl := hr.lifo
  rw [hc, List.map_append] at hl
  rcases hx : UndoStack.restoreEach cs r.world with ⟨ds, failures, wx⟩
  simp only [UndoStack.unwind, hx] at hu
  cases hu
  obtain ⟨hl, hm, hp⟩ := UndoStack.restoreEach_history hx hl
  -- handing back notes neither a push nor a complaint
  refine ⟨hl.returnAll, ?_, ?_⟩
  · exact (w.filterMap_noteEach (fun _ => rfl) _).trans (hp.trans hr.numbered)
  · have hs : complaintsIn (w.noteEach .returned (cs'.map (·.number))).history =
        complaintsIn w.history := w.filterMap_noteEach (fun _ => rfl) _
    rw [hs, hm, List.reverse_append, List.reverse_reverse, hr.failures]

theorem step_push (r : UndoRun C W) (c : C) :
    (∃ c' w, r.step (.push c) =
      ⟨{ r.undo with entries := .change ⟨r.next, c'⟩ :: r.undo.entries },
        ⟨w, .tracked r.next :: r.world.history⟩, r.next + 1⟩) ∨
    ∃ w, r.step (.push c) = ⟨r.undo, ⟨w, .refused r.next :: r.world.history⟩, r.next + 1⟩ := by
  rcases he : Reversible.enable c r.world.world with ⟨ending, c', w⟩
  have hn : Reversible.enable (⟨r.next, c⟩ : Numbered C) r.world =
      (ending, ⟨r.next, c'⟩, { r.world with world := w }) := by
    simp only [Reversible.enable, he]
  cases ending with
  | ok =>
    simp only [step, UndoStack.push_of_ok hn]
    exact Or.inl ⟨c', w, rfl⟩
  | error e =>
    simp only [step, UndoStack.push_of_error hn]
    exact Or.inr ⟨w, rfl⟩

/-- Popping in any way restores some of the newest changes and hands them back, unless there is
nothing to restore. A stack without changes may lose its markers. -/
theorem step_pops (r : UndoRun C W) {op : UndoOp C}
    (hop : op = .pop ∨ op = .popAll ∨ op = .popPhase) :
    r.step op = r ∨ (r.undo.changes = [] ∧ r.step op = r.step .commit) ∨
      ∃ cs rest cs' u w, r.undo.changes = cs ++ rest.filterMap Entry.change? ∧
        r.undo.unwind cs rest r.world = (cs', u, w) ∧
        r.step op = ⟨u, w.noteEach .returned (cs'.map (·.number)), r.next⟩ := by
  rcases hop with rfl | rfl | rfl
  case inl =>
    cases hc : r.undo.changes with
    | nil =>
      refine Or.inl ?_
      simp only [step, UndoStack.pop_of_changes_nil hc]
    | cons c cs =>
      obtain ⟨rest, rfl, hp⟩ := UndoStack.pop_of_changes_cons hc r.world
      refine Or.inr (Or.inr ⟨[c], rest, _, _, _, rfl, rfl, ?_⟩)
      simp only [step, hp]
      rfl
  case inr.inl =>
    cases hc : r.undo.changes with
    | nil =>
      have he : r.undo.isEmpty = true := by simp [UndoStack.isEmpty, hc]
      refine Or.inr (Or.inl ⟨rfl, ?_⟩)
      simp only [step, UndoStack.popAll, he, hc]
      rfl
    | cons c cs =>
      have he : r.undo.isEmpty = false := by simp [UndoStack.isEmpty, hc]
      refine Or.inr (Or.inr ⟨c :: cs, [], _, _, _, (List.append_nil _).symm, rfl, ?_⟩)
      simp only [step, UndoStack.popAll, he, hc]
      rfl
  case inr.inr =>
    cases hd : r.undo.entries.dropWhile (!·.isMarker) with
    | nil =>
      refine Or.inl ?_
      simp only [step, UndoStack.popPhase, hd]
      rfl
    | cons e rest =>
      refine Or.inr (Or.inr ⟨_, rest, _, _, _, UndoStack.changes_eq_phase_append hd, rfl, ?_⟩)
      simp only [step, UndoStack.popPhase, hd]
      rfl

theorem step_sound {r : UndoRun C W} (hr : r.Sound) (op : UndoOp C) : (r.step op).Sound := by
  have hpops {op : UndoOp C} (hop : op = .pop ∨ op = .popAll ∨ op = .popPhase) :
      (r.step op).Sound := by
    rcases step_pops r hop with hsame | ⟨-, hsame⟩ | ⟨cs, rest, cs', u, w, hc, hu, hstep⟩
    · rwa [hsame]
    · rw [hsame]
      exact hr.cleared
    · rw [hstep]
      exact hr.unwind hc hu
  cases op with
  | push c =>
    rcases step_push r c with ⟨c', w, hstep⟩ | ⟨w, hstep⟩
    · rw [hstep]
      exact ⟨hr.tracked c' |>.lifo, hr.tracked c' |>.numbered, hr.failures⟩
    · rw [hstep]
      exact ⟨hr.refused.lifo, hr.refused.numbered, hr.failures⟩
  | marker => exact ⟨hr.lifo, hr.numbered, hr.failures⟩
  | pop => exact hpops (Or.inl rfl)
  | popAll => exact hpops (Or.inr (Or.inl rfl))
  | popPhase => exact hpops (Or.inr (Or.inr rfl))
  | commit => exact hr.cleared

theorem exec_sound (w : W) (ops : List (UndoOp C)) : (exec w ops).Sound := by
  have start : Sound (C := C) { world := { world := w } } := ⟨.nil, rfl, rfl⟩
  unfold exec
  generalize ({ world := { world := w } } : UndoRun C W) = r at start
  induction ops generalizing r with
  | nil => exact start
  | cons op ops ih => exact ih _ (step_sound start op)

end UndoRun

/-! ### Runs -/

namespace UndoStack

/-- The same tracked changes and the same failures. Markers may differ. -/
def Agrees (s u : UndoStack C) : Prop := s.changes = u.changes ∧ s.failures = u.failures

theorem push_error_agrees {s : UndoStack C} {c : C} {w : W} {e : Stop UndoError}
    (h : (s.push c w).1 = .error e) : (s.push c w).2.1.Agrees s := by
  rcases he : Reversible.enable c w with ⟨_ | _, c', w'⟩
  · rw [push_of_error he]
    exact ⟨rfl, rfl⟩
  · rw [push_of_ok he] at h
    cases h

theorem pop_error_agrees {s : UndoStack C} {w : W} {e : UndoError}
    (h : (s.pop w).1 = .error e) : (s.pop w).2.1.Agrees s := by
  cases hc : s.changes with
  | nil =>
    rw [pop_of_changes_nil hc]
    exact ⟨rfl, rfl⟩
  | cons c cs =>
    obtain ⟨rest, _, hp⟩ := pop_of_changes_cons hc w
    rw [hp] at h
    cases h

theorem popAll_error_agrees {s : UndoStack C} {w : W} {e : UndoError}
    (h : (s.popAll w).1 = .error e) : (s.popAll w).2.1.Agrees s := by
  unfold popAll at h ⊢
  split at h
  · next he =>
    rw [if_pos he]
    exact ⟨(List.isEmpty_iff.mp he).symm, rfl⟩
  · cases h

end UndoStack

/-- Every run on a new stack obeys the laws of a stack, watched or not, and an operation that is
refused changes neither what is tracked nor the failures. -/
theorem exec_lifo (w : W) (ops : List (UndoOp C)) :
    let r := UndoRun.exec w ops
    let (s, v) := ops.foldl UndoOp.apply (({}, w) : UndoStack C × W)
    r.plain = (s, v) ∧ r.Lifo ∧
      (∀ c e, (s.push c v).1 = .error e → (s.push c v).2.1.Agrees s) ∧
      (∀ e, (s.pop v).1 = .error e → (s.pop v).2.1.Agrees s) ∧
      (∀ e, (s.popAll v).1 = .error e → (s.popAll v).2.1.Agrees s) := by
  refine ⟨UndoRun.plain_foldl ops _, (UndoRun.exec_sound w ops).toLifo, ?_, ?_, ?_⟩
  · exact fun c e h => UndoStack.push_error_agrees h
  · exact fun e h => UndoStack.pop_error_agrees h
  · exact fun e h => UndoStack.popAll_error_agrees h

end

end Changeover
