import Changeover.Action.Catalog
import Changeover.Proofs.Run.Conditions
import Changeover.Proofs.Run.Lasting
import Changeover.Proofs.Undo.Uses
import Changeover.Rehearsal.Step

/-!
# Actions that use the undo stack

An action finds the undo stack in its workspace and uses it by its operations. Whatever else it does
is a change of the host. Then a whole run is a list of uses of the stack, and the stack can be
watched through the run.
-/

namespace Changeover

/-- What uses of the stack make of `u` and `h`. -/
def UsedFrom (u : UndoStack Change) (h : Host) : Condition := fun u' h' =>
  ∃ uses : List (StackUse Change Host), uses.foldl StackUse.apply (u, h) = (u', h')

/-- The action has nothing of the stack but its operations. -/
def Action.UsesStack (a : Action) : Prop :=
  ∀ (settings : Settings) (u : UndoStack Change) (h : Host),
    Procedure.Leads (UsedFrom u h) (UsedFrom u h) (a.run settings)

namespace UsedFrom

variable {u u' : UndoStack Change} {h h' : Host}

theorem refl (u : UndoStack Change) (h : Host) : UsedFrom u h u h := ⟨[], rfl⟩

theorem use (hu : UsedFrom u h u' h') (use : StackUse Change Host) :
    UsedFrom u h (use.apply (u', h')).1 (use.apply (u', h')).2 := by
  obtain ⟨uses, heq⟩ := hu
  refine ⟨uses ++ [use], ?_⟩
  rw [List.foldl_append, heq]
  rfl

theorem host (hu : UsedFrom u h u' h') (h'' : Host) : UsedFrom u h u' h'' := hu.use (.world h'')

theorem push (hu : UsedFrom u h u' h') (c : Change) :
    UsedFrom u h (u'.push c h').2.1 (u'.push c h').2.2 := hu.use (.op (.push c))

end UsedFrom

def Step.OnlyPushes : Step → Prop
  | .marker | .pop | .popPhase | .commit => False
  | _ => True

namespace Procedure

variable {α : Type} {I : Condition} {u : UndoStack Change} {h : Host}

theorem keeps_panic (text : Option String) : Leads I I (panic text : Procedure α) :=
  fun _ hw => hw

/-- A condition that lives through pushes and changes of the host lives through every step but the
other operations of the stack. -/
theorem keeps_step (hhost : ∀ u h h', I u h → I u h')
    (hpush : ∀ c u h, I u h → I (u.push c h).2.1 (u.push c h).2.2) (action : String)
    (settings : Settings) {step : Step} (hs : step.OnlyPushes) :
    Leads I I (Step.perform action settings step) := by
  have hnote : ∀ line, Leads I I (Step.note line) := fun line =>
    leads_onHost fun u h => hhost u h _
  cases step with
  | result r => exact keeps_setResult action r
  | tryResult r =>
    refine keeps_get.andThen fun w => ?_
    cases w.tracker.setResult action r with
    | ok t => exact keeps_setResult action r
    | error e => exact hnote _
  | message m => exact keeps_addMessage m
  | fail f => exact keeps_fail f
  | panic text => exact keeps_panic text
  | interrupt =>
    simp only [Step.perform]
    exact leads_onHost fun u h => hhost u h _
  | push spec =>
    refine keeps_get.andThen fun w => ?_
    cases spec.build w.host.files with
    | ok c => exact leads_push (hpush c)
    | error e => exact keeps_fail _
  | marker => exact hs.elim
  | pop => exact hs.elim
  | popPhase => exact hs.elim
  | commit => exact hs.elim
  | settings => exact keeps_get.andThen fun w => hnote _
  | files s =>
    simp only [Step.perform]
    exact leads_onHost fun u h => hhost u h _

end Procedure

theorem Action.UsesStack.perform {a : Action} (ha : a.UsesStack) {settings : Settings}
    {u : UndoStack Change} {h : Host} {s : Session} (hs : UsedFrom u h s.undo s.host) :
    UsedFrom u h (Changeover.perform settings a s).2.undo
      (Changeover.perform settings a s).2.host := by
  have hend := ha settings u h { host := s.host, undo := s.undo } hs
  exact hend.host _

theorem UsedFrom.lasting {settings : Settings} {as : List Action} (has : ∀ a ∈ as, a.UsesStack)
    (u : UndoStack Change) (h : Host) :
    Lasting settings as fun _ s => UsedFrom u h s.undo s.host where
  raise hs := hs.host _
  marker hs := hs.use (.op .marker)
  turn _ hs := hs
  recorded _ hs := hs
  ran ha hs := (has _ ha).perform hs

end Changeover
