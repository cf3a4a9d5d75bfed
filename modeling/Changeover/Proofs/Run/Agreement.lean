import Changeover.Proofs.Run.Skips

/-!
# Runs that agree

Two runs are compared action by action. Whatever the batches are, an action finds at its turn the
last levels of all that it depends on. So if neither run is interrupted on its way, an action that
comes to the same in both and depends only on such actions has the same entry in both, by induction
along dependencies.
-/

namespace Changeover

/-- What the action comes to does not depend on the session. -/
def Action.Fixed (settings : Settings) (a : Action) (d : Performed) : Prop :=
  ∀ s, (perform settings a s).1 = d

/-- The entry of an action by what stands at its turn, and by what it comes to if it runs. -/
def entryAt (stage : String) (a : Action) (raised : Bool) (blockedBy : List String)
    (d : Performed) : ReportEntry :=
  if raised then { action := a.id, stage, result := interruptedResult }
  else match blockedBy with
    | [] => { action := a.id, stage, result := d.result, messages := d.tracker.messages }
    | d :: ds => { action := a.id, stage, result := skippedResult (d :: ds) }

theorem TurnIn.raisedBy_eq {settings : Settings} {levels : Levels} {raised : Bool} {a : Action}
    {ms before after : List Moment} (ht : TurnIn levels a ms before after)
    (h : raisedBy settings raised ms = raised) : raisedBy settings raised before = raised := by
  cases raised with
  | false => exact ht.calm h
  | true => rfl

theorem Handled.eq_entryAt {settings : Settings} {levels : Levels} {raised : Bool}
    {stage : String} {a : Action} {ms : List Moment} {entry : ReportEntry} {d : Performed}
    (h : Handled settings levels raised stage a ms entry)
    (hraised : raisedBy settings raised ms = raised)
    (hd : a.Fixed settings d) :
    ∃ before after, TurnIn levels a ms before after ∧
      entry = entryAt stage a raised (blockers settings (levelsAfter levels before) a) d := by
  cases h with
  | interrupted ht hr _ heq _ =>
    rw [ht.raisedBy_eq hraised] at hr
    exact ⟨_, _, ht, by rw [heq, hr]; rfl⟩
  | @skipped before after _ ds ht hr hds hne _ heq _ =>
    rw [ht.raisedBy_eq hraised] at hr
    obtain ⟨x, xs, rfl⟩ := List.exists_cons_of_ne_nil hne
    exact ⟨_, _, ht, by rw [heq, hr, ← hds]; rfl⟩
  | @ran before _ after s _ _ r ht hr hnone _ hcall hend heq _ =>
    rw [ht.raisedBy_eq hraised] at hr
    refine ⟨_, _, ht, ?_⟩
    rw [heq, hend.eq_result, hcall.eq_perform, hd, hr, hnone]
    rfl

namespace Concluded

variable {allow parallel parallel' raised : Bool} {prior : Levels} {stages stages' : List Stage}
  {plans : List StagePlan} {ms ms' : List Moment} {e e' : RunEnd} {report report' : Report}

/-- What holds an action back is the same where its dependencies end alike. -/
theorem blockers_eq (h : Concluded ⟨allow, parallel⟩ prior raised stages ms e report)
    (h' : Concluded ⟨allow, parallel'⟩ prior raised stages' ms' e' report') {a : Action}
    {before after before' after' : List Moment} (ht : TurnIn prior a ms before after)
    (ht' : TurnIn prior a ms' before' after')
    (hsame : ∀ d ∈ a.dependencies, ∀ l, EndedAt prior report.entries d l →
      EndedAt prior report'.entries d l) :
    blockers ⟨allow, parallel⟩ (levelsAfter prior before) a =
      blockers ⟨allow, parallel'⟩ (levelsAfter prior before') a := by
  apply List.filter_congr
  intro d hd
  obtain ⟨l, hl⟩ := ht.known d hd
  obtain ⟨l', hl'⟩ := ht'.known d hd
  have hend := hsame d hd l (h.endedAt_of_level? ht.split hl)
  rw [hl, hl', h'.endedAt_unique hend (h'.endedAt_of_level? ht'.split hl')]

/-- The actions named in `shared` are in both runs and come to the same there, and they depend on
nothing else. -/
structure Shared (allow parallel parallel' : Bool) (stages stages' : List Stage)
    (shared : String → Prop) : Prop where
  closed : ∀ x d, shared x → DependsOn stages x d → shared d
  there : ∀ w ∈ workIn stages, shared w.2.id → w ∈ workIn stages' ∧
    ∃ d, w.2.Fixed ⟨allow, parallel⟩ d ∧ w.2.Fixed ⟨allow, parallel'⟩ d

theorem mem_entries_of_shared {shared : String → Prop}
    (h : Concluded ⟨allow, parallel⟩ prior raised stages ms e report)
    (h' : Concluded ⟨allow, parallel'⟩ prior raised stages' ms' e' report')
    (hplan : plan (stages.map Stage.jobs) (prior.map (·.1)) = .ok plans)
    (hshared : Shared allow parallel parallel' stages stages' shared)
    (hms : raisedBy ⟨allow, parallel⟩ raised ms = raised)
    (hms' : raisedBy ⟨allow, parallel'⟩ raised ms' = raised) :
    ∀ entry ∈ report.entries, shared entry.action → entry ∈ report'.entries := by
  have hall := forall_of_plan hplan (P := fun x => shared x → ∀ entry ∈ report.entries,
    entry.action = x → entry ∈ report'.entries) ?_ ?_
  · intro entry he hx
    obtain ⟨w, hw, hhandled⟩ := h.entry_handled he
    rw [hhandled.action_eq] at hx
    exact hall w hw hx entry he hhandled.action_eq
  · rintro x hx - entry he rfl
    exact absurd hx (h.fresh entry he)
  · rintro x ih hx entry he rfl
    obtain ⟨w, hw, hhandled⟩ := h.entry_handled he
    have hid := hhandled.action_eq
    obtain ⟨hw', d, hd, hd'⟩ := hshared.there w hw (hid ▸ hx)
    obtain ⟨entry', he', hhandled'⟩ := h'.handled w hw'
    obtain ⟨_, _, ht, heq⟩ := hhandled.eq_entryAt hms hd
    obtain ⟨_, _, ht', heq'⟩ := hhandled'.eq_entryAt hms' hd'
    have hblockers := h.blockers_eq h' ht ht' ?_
    · rw [hblockers, ← heq'] at heq
      exact heq ▸ he'
    · intro d hd l hl
      have hdep : DependsOn stages entry.action d := ⟨w, hw, hid.symm, hd⟩
      cases hl with
      | @here other ho hod => exact .here (ih d hdep (hshared.closed _ d hx hdep) other ho hod) hod
      | before hp => exact .before hp

end Concluded

end Changeover
