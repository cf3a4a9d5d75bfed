import Changeover.Proofs.Undo.Watched

/-!
# Stacks that are watched from the middle

A stack that holds changes is watched from now on: its changes are numbered from below, and between
the operations the world may become anything. Popping everything restores each of these changes
once, the newest first. After a commit none of them is ever restored.
-/

namespace Changeover

/-- What is done to a stack and its world. -/
inductive StackUse (C W : Type) where
  | op (o : UndoOp C)
  /-- A change of the world in which the stack has no part. -/
  | world (w : W)

section

variable {C W : Type}

/-- Give each change the number of changes below it. -/
def numberEntries : List (Entry C) → List (Entry (Numbered C))
  | [] => []
  | .marker :: es => .marker :: numberEntries es
  | .change c :: es => .change ⟨(es.filterMap Entry.change?).length, c⟩ :: numberEntries es

theorem forget_numberEntries (es : List (Entry C)) :
    (numberEntries es).map Entry.forget = es := by
  induction es with
  | nil => rfl
  | cons e es ih =>
    cases e with
    | change c => exact congrArg (Entry.change c :: ·) ih
    | marker => exact congrArg (Entry.marker :: ·) ih

theorem numbers_numberEntries (es : List (Entry C)) :
    ((numberEntries es).filterMap Entry.change?).map (·.number) =
      (List.range (es.filterMap Entry.change?).length).reverse := by
  induction es with
  | nil => rfl
  | cons e es ih =>
    cases e with
    | marker => exact ih
    | change c =>
      have hcount : ((Entry.change c :: es).filterMap Entry.change?).length =
          (es.filterMap Entry.change?).length + 1 := rfl
      rw [hcount, List.range_succ, List.reverse_append, ← ih]
      rfl

namespace UndoRun

def watch (s : UndoStack C) (w : W) : UndoRun C W :=
  { undo := ⟨numberEntries s.entries, s.failures⟩, world := { world := w }, next := s.size }

theorem plain_watch (s : UndoStack C) (w : W) : (watch s w).plain = (s, w) := by
  unfold plain watch UndoStack.forget
  rw [forget_numberEntries]

theorem watch_numbers (s : UndoStack C) (w : W) :
    (watch s w).undo.changes.map (·.number) = (List.range s.size).reverse :=
  numbers_numberEntries s.entries

/-- No change with a number below `k` is on the stack, and none was restored. A commit establishes
this, and nothing that is done later ends it. -/
structure Since (k : Nat) (r : UndoRun C W) : Prop where
  next : k ≤ r.next
  tracked : ∀ c ∈ r.undo.changes, k ≤ c.number
  restored : ∀ n ∈ restoredIn r.world.history, k ≤ n

theorem Since.cleared {k : Nat} {r : UndoRun C W} (hr : r.Since k) (ns : List Nat) :
    Since (C := C) k ⟨{ r.undo with entries := [] }, r.world.noteEach .dropped ns, r.next⟩ where
  next := hr.next
  tracked c hc := by cases hc
  restored n hn := by
    have hsame : restoredIn (r.world.noteEach .dropped ns).history =
        restoredIn r.world.history := r.world.filterMap_noteEach (fun _ => rfl) _
    rw [hsame] at hn
    exact hr.restored n hn

end UndoRun

end

section

variable {C W : Type} [Reversible C W]

def StackUse.apply (s : UndoStack C × W) : StackUse C W → UndoStack C × W
  | .op o => o.apply s
  | .world w => (s.1, w)

theorem UndoStack.restoreEach_restored (cs : List (Numbered C)) (w : Watched W) :
    restoredIn (restoreEach cs w).2.2.history =
      (cs.map (·.number)).reverse ++ restoredIn w.history := by
  induction cs generalizing w with
  | nil => rfl
  | cons c cs ih =>
    rw [restoreEach_cons_world, ih, restoreOne_world, List.map_cons, List.reverse_cons,
      List.append_assoc]
    rfl

namespace UndoRun

def use (r : UndoRun C W) : StackUse C W → UndoRun C W
  | .op o => r.step o
  | .world w => { r with world := { r.world with world := w } }

theorem plain_use (r : UndoRun C W) (u : StackUse C W) : (r.use u).plain = u.apply r.plain := by
  cases u with
  | op o => exact plain_step r o
  | world w => rfl

theorem plain_uses (us : List (StackUse C W)) (r : UndoRun C W) :
    (us.foldl use r).plain = us.foldl StackUse.apply r.plain := by
  induction us generalizing r with
  | nil => rfl
  | cons u us ih => rw [List.foldl_cons, List.foldl_cons, ih, plain_use]

/-- Every change that is on the stack can be restored once, the newest first. -/
theorem watch_restored (s : UndoStack C) (w : W) :
    restoredIn (UndoStack.restoreEach (watch s w).undo.changes
      (watch s w).world).2.2.history = List.range s.size := by
  rw [UndoStack.restoreEach_restored, watch_numbers, List.reverse_reverse]
  exact List.append_nil _

theorem watch_popAll_restored (s : UndoStack C) (w : W) :
    restoredIn ((watch s w).step .popAll).world.history = List.range s.size := by
  have hall := watch_restored s w
  cases he : (watch s w).undo.isEmpty with
  | true =>
    have hnil : (watch s w).undo.changes = [] := List.isEmpty_iff.mp he
    rw [hnil] at hall
    simp only [step, UndoStack.popAll, he, if_true]
    exact hall
  | false =>
    simp only [step, UndoStack.popAll, he]
    exact (Watched.filterMap_noteEach _ (fun _ => rfl) _).trans hall

/-! ### After a commit -/

theorem watch_commit_since (s : UndoStack C) (w : W) :
    ((watch s w).step .commit).Since s.size where
  next := Nat.le_refl _
  tracked c hc := by cases hc
  restored n hn := by
    have hnone : restoredIn ((watch s w).step .commit).world.history = [] :=
      Watched.filterMap_noteEach _ (fun _ => rfl) _
    rw [hnone] at hn
    cases hn

variable {k : Nat} {r : UndoRun C W}

theorem Since.unwind (hr : r.Since k) {cs cs' : List (Numbered C)}
    {rest : List (Entry (Numbered C))} {u : UndoStack (Numbered C)} {w : Watched W}
    (hc : r.undo.changes = cs ++ rest.filterMap Entry.change?)
    (hu : r.undo.unwind cs rest r.world = (cs', u, w)) :
    Since k ⟨u, w.noteEach .returned (cs'.map (·.number)), r.next⟩ := by
  have hw := UndoStack.restoreEach_restored cs r.world
  rcases hx : UndoStack.restoreEach cs r.world with ⟨ds, failures, wx⟩
  rw [hx] at hw
  simp only [UndoStack.unwind, hx] at hu
  cases hu
  refine ⟨hr.next, ?_, ?_⟩
  · intro c hmem
    apply hr.tracked
    rw [hc]
    exact List.mem_append_right _ hmem
  · intro n hn
    have hsame : restoredIn (w.noteEach .returned (cs'.map (·.number))).history =
        restoredIn w.history := w.filterMap_noteEach (fun _ => rfl) _
    rw [hsame, hw, List.mem_append, List.mem_reverse] at hn
    rcases hn with hn | hn
    · obtain ⟨c, hmem, rfl⟩ := List.mem_map.mp hn
      apply hr.tracked
      rw [hc]
      exact List.mem_append_left _ hmem
    · exact hr.restored n hn

theorem Since.push (hr : r.Since k) (c : C) : (r.step (.push c)).Since k := by
  rcases step_push r c with ⟨c', w, hstep⟩ | ⟨w, hstep⟩
  · rw [hstep]
    refine ⟨Nat.le_succ_of_le hr.next, ?_, hr.restored⟩
    intro d hd
    rcases List.mem_cons.mp hd with rfl | hd
    · exact hr.next
    · exact hr.tracked d hd
  · rw [hstep]
    exact ⟨Nat.le_succ_of_le hr.next, hr.tracked, hr.restored⟩

theorem Since.step (hr : r.Since k) (op : UndoOp C) : (r.step op).Since k := by
  have hpops {op : UndoOp C} (hop : op = .pop ∨ op = .popAll ∨ op = .popPhase) :
      (r.step op).Since k := by
    rcases step_pops r hop with hsame | ⟨-, hsame⟩ | ⟨cs, rest, cs', u, w, hc, hu, hstep⟩
    · rwa [hsame]
    · rw [hsame]
      exact hr.cleared _
    · rw [hstep]
      exact hr.unwind hc hu
  cases op with
  | push c => exact hr.push c
  | marker => exact ⟨hr.next, hr.tracked, hr.restored⟩
  | pop => exact hpops (Or.inl rfl)
  | popAll => exact hpops (Or.inr (Or.inl rfl))
  | popPhase => exact hpops (Or.inr (Or.inr rfl))
  | commit => exact hr.cleared _

theorem Since.uses (hr : r.Since k) (us : List (StackUse C W)) : (us.foldl use r).Since k := by
  induction us generalizing r with
  | nil => exact hr
  | cons u us ih =>
    apply ih
    cases u with
    | op o => exact hr.step o
    | world w => exact ⟨hr.next, hr.tracked, hr.restored⟩

end UndoRun

end

end Changeover
