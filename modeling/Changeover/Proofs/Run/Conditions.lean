import Changeover.Proofs.Run.Moments

/-!
# Conditions on the host and the stack

What a piece of work leads to, whatever its end, and so what a run leads to whose batches are
actions one by one. Interrupts and markers do not count, and an action that does not start leaves
everything as it is.
-/

namespace Changeover

abbrev Condition := UndoStack Change → Host → Prop

/-- A condition that interrupts and markers do not touch. -/
structure Condition.Stable (I : Condition) : Prop where
  interrupt : ∀ {u : UndoStack Change} {h : Host} (i : Bool), I u h →
    I u { h with interrupted := i }
  marker : ∀ {u : UndoStack Change} {h : Host}, I u h → I u.pushMarker h

namespace Procedure

variable {α β : Type} {I J K : Condition}

/-- The work leads from `I` to `J`, also if it stops. -/
def Leads (I J : Condition) (p : Procedure α) : Prop :=
  ∀ w : Workspace, I w.undo w.host → J (p.perform w).2.undo (p.perform w).2.host

theorem perform_bind (p : Procedure α) (f : α → Procedure β) (w : Workspace) :
    (p >>= f).perform w = match p.perform w with
      | (.ok a, w') => (f a).perform w'
      | (.error e, w') => (.error e, w') := by
  simp only [perform, ExceptT.run, bind, ExceptT.bind, ExceptT.mk, ExceptT.bindCont, StateT.run,
    StateT.bind]
  cases p w with
  | mk r w' => cases r <;> rfl

theorem Leads.bind {p : Procedure α} {f : α → Procedure β} (hp : Leads I J p)
    (hf : ∀ a, Leads J K (f a)) (hJK : ∀ u h, J u h → K u h) : Leads I K (p >>= f) := by
  intro w hw
  have hmid := hp w hw
  rw [perform_bind]
  rcases h : p.perform w with ⟨_ | a, w'⟩
  · rw [h] at hmid
    exact hJK _ _ hmid
  · rw [h] at hmid
    exact hf a w' hmid

theorem Leads.andThen {p : Procedure α} {f : α → Procedure β} (hp : Leads I I p)
    (hf : ∀ a, Leads I I (f a)) : Leads I I (p >>= f) := hp.bind hf fun _ _ h => h

theorem keeps_pure (a : α) : Leads I I (pure a : Procedure α) := fun _ hw => hw

theorem keeps_get : Leads I I (get : Procedure Workspace) := fun _ hw => hw

theorem keeps_fail (f : Fault) : Leads I I (fail f : Procedure α) := fun _ hw => hw

theorem perform_get (w : Workspace) : (get : Procedure Workspace).perform w = (.ok w, w) := rfl

theorem perform_set (w w' : Workspace) : (set w' : Procedure PUnit).perform w = (.ok ⟨⟩, w') := rfl

theorem keeps_setResult (action : String) (r : Result) : Leads I I (setResult action r) := by
  intro w hw
  simp only [setResult, perform_bind, perform_get]
  cases w.tracker.setResult action r with
  | ok t => exact hw
  | error e => exact hw

theorem keeps_addMessage (m : Message) : Leads I I (addMessage m) := fun _ hw => hw

theorem leads_onHost {f : Host → α × Host} (hf : ∀ u h, I u h → J u (f h).2) :
    Leads I J (onHost f) := fun _ hw => hf _ _ hw

theorem perform_tryPush (c : Change) (w : Workspace) : (tryPush c).perform w =
    (match (w.undo.push c w.host).1 with
      | .ok () => .ok (.ok ())
      | .error (.failed e) => .ok (.error e)
      | .error (.panicked t) => .error (.panicked t),
      { w with undo := (w.undo.push c w.host).2.1, host := (w.undo.push c w.host).2.2 }) := by
  simp only [tryPush, perform_bind, perform_get, perform_set]
  cases (w.undo.push c w.host).1 with
  | ok _ => rfl
  | error e => cases e <;> rfl

theorem leads_tryPush {c : Change} (hc : ∀ u h, I u h → J (u.push c h).2.1 (u.push c h).2.2) :
    Leads I J (tryPush c) := by
  intro w hw
  rw [perform_tryPush]
  exact hc _ _ hw

theorem leads_push {c : Change} (hc : ∀ u h, I u h → J (u.push c h).2.1 (u.push c h).2.2) :
    Leads I J (push c) := by
  refine (leads_tryPush hc).bind (fun r => ?_) fun _ _ h => h
  cases r with
  | ok _ => exact keeps_pure ()
  | error e => exact keeps_fail _

theorem keeps_forM {p : β → Procedure PUnit} (as : List β) (hp : ∀ a ∈ as, Leads I I (p a)) :
    Leads I I (as.forM p) := by
  induction as with
  | nil => exact keeps_pure ()
  | cons a as ih =>
    have hrest := ih fun b hb => hp b (List.mem_cons_of_mem a hb)
    exact (hp a List.mem_cons_self).andThen fun _ => hrest

end Procedure

theorem Procedure.Leads.perform_action {I J : Condition} {settings : Settings} {a : Action}
    (h : Procedure.Leads I J (a.run settings)) (hJ : J.Stable) {s : Session}
    (hs : I s.undo s.host) :
    J (Changeover.perform settings a s).2.undo (Changeover.perform settings a s).2.host :=
  hJ.interrupt _ (h { host := s.host, undo := s.undo } hs)

/-! ### Batches of one action -/

namespace Progress

def Meets (I : Condition) (p : Progress) : Prop := I p.session.undo p.session.host

end Progress

section

variable {I J : Condition} {settings : Settings} {run stage : String} {a : Action}
  {p p' : Progress} {ms : List Moment}

/-- How far a batch of one action has come. -/
inductive OneAction (I J : Condition) (a : Action) : Underway → Prop
  | waiting {p : Progress} : p.Meets I → OneAction I J a ⟨[a], [], p⟩
  | started {p : Progress} : p.Meets I → OneAction I J a ⟨[], [(a, none)], p⟩
  | ran {p : Progress} {d : Performed} : p.Meets J → OneAction I J a ⟨[], [(a, some d)], p⟩
  | ended {p : Progress} : p.Meets J → OneAction I J a ⟨[], [], p⟩

theorem OneAction.step {b b' : Underway} (hI : I.Stable) (hJ : J.Stable)
    (hIJ : ∀ u h, I u h → J u h) (ha : Procedure.Leads I J (a.run settings))
    (hb : OneAction I J a b) (h : BatchStep settings run stage b ms b') : OneAction I J a b' := by
  cases h with
  | raise =>
    cases hb with
    | waiting hp => exact .waiting (hI.interrupt true hp)
    | started hp => exact .started (hI.interrupt true hp)
    | ran hp => exact .ran (hJ.interrupt true hp)
    | ended hp => exact .ended (hJ.interrupt true hp)
  | interrupted _ _ =>
    cases hb with
    | waiting hp => exact .ended (hIJ _ _ hp)
  | blocked _ _ =>
    cases hb with
    | waiting hp => exact .ended (hIJ _ _ hp)
  | start _ =>
    cases hb with
    | waiting hp => exact .started hp
  | @perform c _ ps qs p d s hperform =>
    generalize hst : ps ++ (c, none) :: qs = st at hb
    cases hb with
    | waiting _ => simp at hst
    | started hp =>
      obtain ⟨rfl, rfl, rfl⟩ : ps = [] ∧ c = a ∧ qs = [] := by
        simpa [List.append_eq_singleton_iff] using hst
      have hend := ha.perform_action hJ hp
      rw [hperform] at hend
      exact .ran hend
    | ran _ =>
      simp [List.append_eq_singleton_iff] at hst
    | ended _ => simp at hst
  | settle =>
    cases hb with
    | ran hp => exact .ended hp

theorem BatchSteps.leads {b b' : Underway} (hI : I.Stable) (hJ : J.Stable)
    (hIJ : ∀ u h, I u h → J u h) (ha : Procedure.Leads I J (a.run settings))
    (hb : OneAction I J a b) (h : BatchSteps settings run stage b ms b') :
    OneAction I J a b' := by
  induction h with
  | refl => exact hb
  | snoc _ hs ih => exact ih.step hI hJ hIJ ha hs

theorem BatchRun.leads (hI : I.Stable) (hJ : J.Stable) (hIJ : ∀ u h, I u h → J u h)
    (ha : Procedure.Leads I J (a.run settings)) (h : BatchRun settings run stage [a] p ms p')
    (hp : p.Meets I) : p'.Meets J := by
  cases BatchSteps.leads hI hJ hIJ ha (.waiting hp) h with
  | ended hend => exact hend

end

/-! ### Stages -/

/-- Actions that lead from condition to condition, one after the other. -/
inductive LeadsOn (settings : Settings) : Condition → List Action → Condition → Prop
  | nil {I : Condition} : LeadsOn settings I [] I
  | cons {I J K : Condition} {a : Action} {as : List Action} : J.Stable →
    (∀ u h, I u h → J u h) → Procedure.Leads I J (a.run settings) → LeadsOn settings J as K →
    LeadsOn settings I (a :: as) K

theorem LeadsOn.keep {settings : Settings} {I : Condition} (hI : I.Stable) {as : List Action}
    (h : ∀ a ∈ as, Procedure.Leads I I (a.run settings)) : LeadsOn settings I as I := by
  induction as with
  | nil => exact .nil
  | cons a as ih =>
    exact .cons hI (fun _ _ h => h) (h a List.mem_cons_self)
      (ih fun b hb => h b (List.mem_cons_of_mem a hb))

theorem BatchRuns.leads {settings : Settings} {run stage : String} {I J : Condition}
    {as : List Action} {p p' : Progress} {ms : List Moment} (hI : I.Stable)
    (has : LeadsOn settings I as J)
    (h : BatchRuns settings run stage (as.map fun a => [a]) p ms p') (hp : p.Meets I) :
    p'.Meets J := by
  induction has generalizing p ms with
  | nil =>
    cases h
    exact hp
  | cons hJ hIJ ha _ ih =>
    cases h with
    | cons hb hbs => exact ih hJ hbs (hb.leads hI hJ hIJ ha hp)

namespace Runner

variable {r : Runner} {run : String} {I J : Condition} {p p' : Progress} {ms : List Moment}

theorem StageRuns.leads_nil (hI : I.Stable) (h : r.StageRuns run [] p ms p') (hp : p.Meets I) :
    p'.Meets I := by
  generalize hs : ([] : List (Stage × StagePlan)) = stages at h
  induction h with
  | nil => exact hp
  | raise _ ih => exact ih (hI.interrupt true hp) hs
  | cons _ _ _ => cases hs

theorem StageRuns.leads_cons {stage : Stage × StagePlan} {stages : List (Stage × StagePlan)}
    {as : List Action} (hI : I.Stable) (hb : r.batchesOf stage = as.map fun a => [a])
    (has : LeadsOn r.settings I as J) (h : r.StageRuns run (stage :: stages) p ms p')
    (hp : p.Meets I) : ∃ q ns, q.Meets J ∧ r.StageRuns run stages q ns p' := by
  generalize hs : stage :: stages = all at h
  induction h with
  | nil => cases hs
  | raise _ ih => exact ih (hI.interrupt true hp) hs
  | cons hruns hrest _ =>
    cases hs
    rw [hb] at hruns
    exact ⟨_, _, hruns.leads hI has (hI.marker hp), hrest⟩

end Runner

end Changeover
