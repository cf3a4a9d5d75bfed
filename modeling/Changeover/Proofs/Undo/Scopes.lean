import Changeover.Change
import Changeover.Proofs.Undo.Phases
import Changeover.Proofs.Undo.Uses

/-!
# Scopes

A scope is opened by a marker and closed by popping the newest phase. In it changes are pushed,
which may be refused or panic, and other scopes are opened and closed. The stack below a scope has
no part in it: closing restores what was tracked in the scope and is still tracked, and then the
stack is what it was before.
-/

namespace Changeover

/-- What can be done in a scope before it is closed. -/
inductive Scoped {C W : Type} : List (StackUse C W) → Prop
  | nil : Scoped []
  | push {us : List (StackUse C W)} (c : C) : Scoped us → Scoped (.op (.push c) :: us)
  | world {us : List (StackUse C W)} (w : W) : Scoped us → Scoped (.world w :: us)
  | scope {inner us : List (StackUse C W)} : Scoped inner → Scoped us →
    Scoped (.op .marker :: inner ++ .op .popPhase :: us)

section

variable {C W : Type} [Reversible C W]

namespace UndoStack

theorem restoreOne_number (c : Numbered C) (w : Watched W) :
    (restoreOne c w).2.1.number = c.number := by
  unfold restoreOne
  split
  · next he => exact congrArg (·.2.1.number) he.symm
  · next he => exact congrArg (·.2.1.number) he.symm

theorem restoreEach_numbers (cs : List (Numbered C)) (w : Watched W) :
    (restoreEach cs w).1.map (·.number) = cs.map (·.number) := by
  induction cs generalizing w with
  | nil => rfl
  | cons c cs ih => simp only [restoreEach, List.map_cons, restoreOne_number, ih]

theorem restoreEach_tracked (cs : List (Numbered C)) (w : Watched W) :
    trackedIn (restoreEach cs w).2.2.history = trackedIn w.history := by
  induction cs generalizing w with
  | nil => rfl
  | cons c cs ih =>
    rw [restoreEach_cons_world, ih, restoreOne_world]
    rfl

end UndoStack

namespace UndoRun

/-- The changes `cs` were tracked on top of `base` and are still there. The history knows of them,
and of the older ones that are `live`. -/
structure Over (base : List (Entry (Numbered C))) (live : List Nat) (r : UndoRun C W)
    (cs : List (Numbered C)) : Prop where
  entries : r.undo.entries = cs.map .change ++ base
  lifo : LifoHistory r.world.history (cs.map (·.number) ++ live) []
  fresh : ∀ n ∈ trackedIn r.world.history, n < r.next

namespace Over

variable {base : List (Entry (Numbered C))} {live : List Nat} {r r' : UndoRun C W}
  {cs ds : List (Numbered C)}

theorem world (h : Over base live r cs) (w : W) : Over base live (r.use (.world w)) cs :=
  ⟨h.entries, h.lifo, h.fresh⟩

theorem push (h : Over base live r cs) (c : C) : ∃ ds, Over base live (r.step (.push c)) ds := by
  rcases step_push r c with ⟨c', w, hstep⟩ | ⟨w, hstep⟩
  · rw [hstep]
    refine ⟨⟨r.next, c'⟩ :: cs, ?_, h.lifo.tracked h.fresh, ?_⟩
    · exact congrArg (Entry.change _ :: ·) h.entries
    · intro n hmem
      rcases List.mem_cons.mp hmem with rfl | hmem
      · exact Nat.lt_succ_self _
      · exact Nat.lt_succ_of_lt (h.fresh n hmem)
  · rw [hstep]
    exact ⟨cs, h.entries, h.lifo.refused, fun n hn => Nat.lt_succ_of_lt (h.fresh n hn)⟩

theorem opened (h : Over base live r cs) :
    Over (.marker :: r.undo.entries) (cs.map (·.number) ++ live) (r.step .marker) [] :=
  ⟨rfl, h.lifo, h.fresh⟩

theorem popPhase (h : Over (.marker :: base) live r cs) :
    r.undo.popPhase r.world = r.undo.unwind cs base r.world := by
  have hheap : r.undo = UndoStack.heap (UndoStack.pushMarker ⟨base, r.undo.failures⟩) cs := by
    rw [UndoStack.heap, UndoStack.pushMarker, ← h.entries]
  rw [hheap]
  exact UndoStack.popPhase_heap _ cs r.world

theorem closed (h : Over base live r cs)
    (h' : Over (.marker :: r.undo.entries) (cs.map (·.number) ++ live) r' ds) :
    Over base live (r'.step .popPhase) cs := by
  have htracked := UndoStack.restoreEach_tracked ds r'.world
  rcases hx : UndoStack.restoreEach ds r'.world with ⟨ds', failures, w⟩
  obtain ⟨hl, -, -⟩ := UndoStack.restoreEach_history hx h'.lifo
  rw [hx] at htracked
  simp only [step, h'.popPhase, UndoStack.unwind, hx]
  refine ⟨h.entries, hl.returnAll, ?_⟩
  have hreturned : trackedIn (w.noteEach .returned (ds'.map (·.number))).history =
      trackedIn w.history := w.filterMap_noteEach (fun _ => rfl) _
  rw [hreturned, htracked]
  exact h'.fresh

/-- A scope keeps what is below it, however deep other scopes are nested in it. -/
theorem uses {us : List (StackUse C W)} (hus : Scoped us) (h : Over base live r cs) :
    ∃ ds, Over base live (us.foldl use r) ds := by
  induction hus generalizing base live r cs with
  | nil => exact ⟨cs, h⟩
  | push c _ ih =>
    obtain ⟨ds, hds⟩ := h.push c
    exact ih hds
  | world w _ ih => exact ih (h.world w)
  | @scope inner us _ _ ihInner ih =>
    -- the inner scope has a base of its own, which is all that is there when it is opened
    obtain ⟨ds, hds⟩ := ihInner h.opened
    have hsplit : (.op .marker :: inner ++ .op .popPhase :: us).foldl use r =
        us.foldl use ((inner.foldl use (r.step .marker)).step .popPhase) := by
      rw [List.cons_append, List.foldl_cons, List.foldl_append, List.foldl_cons]
      rfl
    rw [hsplit]
    exact ih (h.closed hds)

end Over

end UndoRun

/-- Whatever stack a scope is opened on and whatever is done in it, what is on top of its marker is
what was tracked in the scope and has not left. Closing the scope hands these changes back, the
newest first, restores each of them once in that order, and leaves the entries that were there
before the scope was opened. The history is that of the scope: it begins when the scope does. -/
theorem scope_closed (s : UndoStack C) (w : W) (us : List (StackUse C W)) (hus : Scoped us) :
    let (s', w') := us.foldl StackUse.apply (s.pushMarker, w)
    let r := us.foldl UndoRun.use ((UndoRun.watch s w).step .marker)
    let live := liveIn r.world.history
    r.plain = (s', w') ∧ live.Pairwise (· > ·) ∧
      (∃ cs : List (Numbered C), cs.map (·.number) = live ∧
        s'.entries = cs.map (.change ·.change) ++ .marker :: s.entries ∧
        let (restored, failures, after) := UndoStack.restoreEach (cs.map (·.change)) w'
        s'.popPhase w' = (restored, ⟨s.entries, s'.failures ++ failures⟩, after)) ∧
      (r.undo.popPhase r.world).1.map (·.number) = live ∧
      restoredIn (r.undo.popPhase r.world).2.2.history =
        live.reverse ++ restoredIn r.world.history := by
  have start : UndoRun.Over (.marker :: numberEntries s.entries) []
      ((UndoRun.watch s w).step .marker) [] :=
    ⟨rfl, .nil, fun n hn => absurd hn List.not_mem_nil⟩
  have hplain := UndoRun.plain_uses us ((UndoRun.watch s w).step .marker)
  rw [UndoRun.plain_step, UndoRun.plain_watch] at hplain
  obtain ⟨cs, hcs⟩ := start.uses hus
  have hlive := hcs.lifo.live_eq
  have hsorted := hcs.lifo.live_sorted
  rw [List.append_nil] at hlive hsorted
  dsimp only
  generalize us.foldl UndoRun.use ((UndoRun.watch s w).step .marker) = r at hplain hcs hlive ⊢
  simp only [UndoOp.apply] at hplain
  rw [← hplain, hlive]
  have hentries : r.undo.forget.entries = cs.map (.change ·.change) ++ .marker :: s.entries := by
    rw [UndoStack.forget, hcs.entries, List.map_append, List.map_map, List.map_cons,
      forget_numberEntries]
    rfl
  have hpop : r.undo.forget.popPhase r.world.world =
      r.undo.forget.unwind (cs.map (·.change)) s.entries r.world.world := by
    rw [UndoStack.popPhase_forget, hcs.popPhase, ← UndoStack.unwind_forget, forget_numberEntries]
  refine ⟨rfl, hsorted, ⟨cs, rfl, hentries, hpop⟩, ?_, ?_⟩
  · rw [hcs.popPhase]
    exact UndoStack.restoreEach_numbers cs r.world
  · rw [hcs.popPhase]
    exact UndoStack.restoreEach_restored cs r.world

/-- Two pushes that are tracked with another scope between them, in which one push is tracked, one
is refused and one panics; then one more that is refused. -/
def brackets : List (StackUse Change Host) :=
  [.op (.push (.rehearsed ⟨"first", none, none, false⟩)),
    .op .marker,
    .op (.push (.rehearsed ⟨"inner", none, none, false⟩)),
    .op (.push (.rehearsed ⟨"refused", some (.failed ⟨"full", []⟩), none, false⟩)),
    .op (.push (.rehearsed ⟨"wild", some (.panicked none), none, false⟩)),
    .op .popPhase,
    .op (.push (.rehearsed ⟨"second", none, some (.failed ⟨"busy", []⟩), false⟩)),
    .op (.push (.rehearsed ⟨"refused", some (.failed ⟨"full", []⟩), none, false⟩))]

theorem scoped_brackets : Scoped brackets :=
  .push _ (.scope (.push _ (.push _ (.push _ .nil))) (.push _ (.push _ .nil)))

/-- Only the two that are tracked in the outer scope are handed back when it is closed, the second
although it cannot be restored, and the markers below stay. -/
theorem scope_closed_brackets :
    let s : UndoStack Change :=
      { entries := [.marker, .change (.rehearsed ⟨"old", none, none, true⟩), .marker] }
    let (s', w') := brackets.foldl StackUse.apply (s.pushMarker, {})
    let r := brackets.foldl UndoRun.use ((UndoRun.watch s {}).step .marker)
    (s'.popPhase w').2.1.entries = s.entries ∧
      (s'.popPhase w').2.1.failures = ["second: busy"] ∧
      (r.undo.popPhase r.world).1.map (·.number) = [5, 1] ∧
      restoredIn (r.undo.popPhase r.world).2.2.history = [1, 5, 2] := by
  intro s
  obtain ⟨-, -, ⟨cs, -, -, hpop⟩, hnumbers, hrestored⟩ := scope_closed s {} brackets scoped_brackets
  refine ⟨congrArg (·.2.1.entries) hpop, ?_, hnumbers.trans ?_, hrestored.trans ?_⟩
  · decide +kernel
  · decide +kernel
  · decide +kernel

end

end Changeover
