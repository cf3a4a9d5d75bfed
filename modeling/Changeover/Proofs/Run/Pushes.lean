import Changeover.Proofs.Run.StackUses
import Changeover.Proofs.Run.Turns
import Changeover.Proofs.Undo.Phases

/-!
# What stages push

A run puts a marker on the stack for each stage, also if nothing of the stage is run. If all actions
leave the stack alone but for pushes, what a stage has pushed lies above its marker and below the
next one. So the stages of a run are undone one by one, the last stage first, and what was on the
stack before the run comes to light again.
-/

namespace Changeover

/-- What pushes make of `u` and `h`. -/
def PushedFrom (u : UndoStack Change) (h : Host) : Condition := fun u' h' =>
  ∃ cs, Pushing u h cs u' h'

/-- The action has nothing of the stack but pushes, also if it stops in the middle. -/
def Action.OnlyPushes (a : Action) : Prop :=
  ∀ (settings : Settings) (u : UndoStack Change) (h : Host),
    Procedure.Leads (PushedFrom u h) (PushedFrom u h) (a.run settings)

namespace PushedFrom

variable {u u' : UndoStack Change} {h h' : Host}

theorem host (hu : PushedFrom u h u' h') (h'' : Host) : PushedFrom u h u' h'' := by
  obtain ⟨cs, hcs⟩ := hu
  exact ⟨cs, hcs.world h''⟩

theorem push (hu : PushedFrom u h u' h') (c : Change) :
    PushedFrom u h (u'.push c h').2.1 (u'.push c h').2.2 := by
  obtain ⟨cs, hcs⟩ := hu
  exact hcs.push c

end PushedFrom

theorem rehearsedAction_onlyPushes (id : String) (dependencies resources : List String)
    {steps : List Step} (hs : ∀ step ∈ steps, step.OnlyPushes) :
    (rehearsedAction id dependencies resources steps).OnlyPushes := by
  intro settings u h
  have hhost : ∀ u' h' h'', PushedFrom u h u' h' → PushedFrom u h u' h'' := fun _ _ h'' hu =>
    hu.host h''
  refine (Procedure.leads_onHost fun u' h' => hhost u' h' _).andThen fun _ => ?_
  refine Procedure.keeps_forM steps fun step hstep => ?_
  exact Procedure.keeps_step hhost (fun c _ _ hu => hu.push c) id settings (hs step hstep)

theorem Action.OnlyPushes.perform {a : Action} (ha : a.OnlyPushes) (settings : Settings)
    (s : Session) : ∃ cs, Pushing s.undo s.host cs (Changeover.perform settings a s).2.undo
      (Changeover.perform settings a s).2.host := by
  have hend := ha settings s.undo s.host { host := s.host, undo := s.undo } ⟨[], .none⟩
  exact PushedFrom.host hend _

/-- The changes that runs of the actions have pushed and that were enabled, the newest one first. -/
inductive PushedBy (settings : Settings) (as : List Action) : List Moment → List Change → Prop
  | nil : PushedBy settings as [] []
  | ran {a : Action} {s : Session} {ms : List Moment} {cs ds : List Change} : a ∈ as →
    Pushing s.undo s.host cs (perform settings a s).2.undo (perform settings a s).2.host →
    PushedBy settings as ms ds → PushedBy settings as (.ran a s :: ms) (ds ++ cs)
  | other {m : Moment} {ms : List Moment} {cs : List Change} : (∀ a s, m = .ran a s → a ∉ as) →
    PushedBy settings as ms cs → PushedBy settings as (m :: ms) cs

namespace PushedBy

variable {settings : Settings} {as : List Action} {ms ns : List Moment} {cs ds : List Change}

theorem append (h : PushedBy settings as ms cs) (h' : PushedBy settings as ns ds) :
    PushedBy settings as (ms ++ ns) (ds ++ cs) := by
  induction h with
  | nil =>
    rw [List.append_nil]
    exact h'
  | ran ha hpushing _ ih =>
    rw [← List.append_assoc]
    exact .ran ha hpushing ih
  | other hm _ ih => exact .other hm ih

theorem of_not_mem (h : ∀ a s, .ran a s ∈ ms → a ∉ as) : PushedBy settings as ms [] := by
  induction ms with
  | nil => exact .nil
  | cons m ms ih =>
    refine .other ?_ (ih fun a s ha => h a s (List.mem_cons_of_mem m ha))
    rintro a s rfl
    exact h a s List.mem_cons_self

end PushedBy

section

variable {settings : Settings} {run stage : String} {as : List Action} {b b' : Underway}
  {p p' : Progress} {ms ns : List Moment}

theorem BatchStep.pushed (h : BatchStep settings run stage b ns b') (hb : b.Within as)
    (has : ∀ a ∈ as, a.OnlyPushes) : ∃ cs, PushedBy settings as ns cs ∧
      b'.progress.session.undo = b.progress.session.undo.heap cs := by
  cases h with
  | raise => exact ⟨[], .of_not_mem (by simp), rfl⟩
  | interrupted _ _ => exact ⟨[], .of_not_mem (by simp), rfl⟩
  | blocked _ _ => exact ⟨[], .of_not_mem (by simp), rfl⟩
  | start _ => exact ⟨[], .of_not_mem (by simp), rfl⟩
  | @perform a _ _ _ p _ _ hperform =>
    have ha : a ∈ as := hb.started (a, none) (List.mem_append_right _ List.mem_cons_self)
    obtain ⟨cs, hcs⟩ := (has a ha).perform settings p.session
    refine ⟨cs, .ran ha hcs .nil, ?_⟩
    rw [← hcs.eq_heap, hperform]
  | settle => exact ⟨[], .of_not_mem (by simp), rfl⟩

theorem BatchSteps.pushed (h : BatchSteps settings run stage b ms b') (hb : b.Within as)
    (has : ∀ a ∈ as, a.OnlyPushes) : ∃ cs, PushedBy settings as ms cs ∧
      b'.progress.session.undo = b.progress.session.undo.heap cs := by
  induction h with
  | refl => exact ⟨[], .nil, rfl⟩
  | snoc hsteps hstep ih =>
    obtain ⟨cs, hcs, hundo⟩ := ih
    obtain ⟨ds, hds, hundo'⟩ := hstep.pushed (hsteps.spans hb).1 has
    refine ⟨ds ++ cs, hcs.append hds, ?_⟩
    rw [hundo', hundo, UndoStack.heap_heap]

theorem BatchRuns.pushed {bs : List (List Action)} (h : BatchRuns settings run stage bs p ms p')
    (hbs : ∀ batch ∈ bs, ∀ a ∈ batch, a ∈ as) (has : ∀ a ∈ as, a.OnlyPushes) :
    ∃ cs, PushedBy settings as ms cs ∧ p'.session.undo = p.session.undo.heap cs := by
  induction h with
  | nil => exact ⟨[], .nil, rfl⟩
  | @cons batch _ p _ _ _ _ hrun _ ih =>
    obtain ⟨cs, hcs, hundo⟩ :=
      BatchSteps.pushed hrun (.begin p (hbs batch List.mem_cons_self)) has
    obtain ⟨ds, hds, hundo'⟩ := ih fun batch hmem => hbs batch (List.mem_cons_of_mem _ hmem)
    refine ⟨ds ++ cs, hcs.append hds, ?_⟩
    rw [hundo', hundo, UndoStack.heap_heap]

end

namespace Runner

variable {r : Runner} {run : String} {p p' : Progress} {ms : List Moment}

theorem StageRuns.ran_mem {stages : List (Stage × StagePlan)} (h : r.StageRuns run stages p ms p')
    {a : Action} {s : Session} (ha : .ran a s ∈ ms) : a ∈ stages.flatMap (·.1.actions) := by
  have has : ∀ stage ∈ stages, ∀ b ∈ stage.1.actions, b ∈ stages.flatMap (·.1.actions) :=
    fun stage hstage b hb => List.mem_flatMap.mpr ⟨stage, hstage, hb⟩
  have hnone : ∀ b t, .ran b t ∈ ([] : List Moment) → b ∈ stages.flatMap (·.1.actions) :=
    fun _ _ hnil => absurd hnil List.not_mem_nil
  exact h.lasting (.of_ran r.settings _) has hnone a s ha

/-- Every stage leaves a phase on the stack with what its own actions have pushed. What came before
is with other actions. -/
theorem StageRuns.pushed {stages : List (Stage × StagePlan)} (h : r.StageRuns run stages p ms p')
    (has : ∀ stage ∈ stages, ∀ a ∈ stage.1.actions, a.OnlyPushes)
    (hn : (stages.flatMap (·.1.actions)).Nodup) {before : List Moment}
    (hbefore : ∀ a s, .ran a s ∈ before → a ∉ stages.flatMap (·.1.actions)) :
    ∃ css, List.Forall₂ (fun stage cs =>
        PushedBy r.settings stage.1.actions (before ++ ms) cs) stages css ∧
      p'.session.undo = p.session.undo.heapPhases css.reverse := by
  induction h generalizing before with
  | nil => exact ⟨[], .nil, rfl⟩
  | @raise stages p _ ms _ ih =>
    have hraised : ∀ a s, .ran a s ∈ before ++ [.raised] →
        a ∉ stages.flatMap (·.1.actions) := by
      intro a s ha
      rcases List.mem_append.mp ha with ha | ha
      · exact hbefore a s ha
      · simp at ha
    obtain ⟨css, hcss, hundo⟩ := ih has hn hraised
    rw [List.append_assoc] at hcss
    exact ⟨css, hcss, hundo⟩
  | @cons stage stages p p₁ p' ms ns hb hrest ih =>
    rw [List.flatMap_cons] at hn hbefore
    have hapart := List.disjoint_of_nodup_append hn
    have hstage : ∀ batch ∈ r.batchesOf stage, ∀ a ∈ batch, a ∈ stage.1.actions :=
      fun batch hbatch a ha => mem_of_mem_batchesOf hbatch ha
    have hran : ∀ a s, .ran a s ∈ [] ++ ms → a ∈ stage.1.actions :=
      Lasting.batches (.of_ran r.settings _) hstage hb fun _ _ hnil => absurd hnil List.not_mem_nil
    -- nothing of this stage is run outside its own batches
    have hearlier : PushedBy r.settings stage.1.actions before [] :=
      .of_not_mem fun a s ha hmem => hbefore a s ha (List.mem_append_left _ hmem)
    have hlater : PushedBy r.settings stage.1.actions ns [] :=
      .of_not_mem fun a s ha hmem => hapart hmem (hrest.ran_mem ha)
    obtain ⟨cs, hcs, hundo⟩ := hb.pushed hstage (has stage List.mem_cons_self)
    have hfirst := hearlier.append (hcs.append hlater)
    rw [List.nil_append, List.append_nil] at hfirst
    have hothers : ∀ a s, .ran a s ∈ before ++ ms → a ∉ stages.flatMap (·.1.actions) := by
      intro a s ha hmem
      rcases List.mem_append.mp ha with ha | ha
      · exact hbefore a s ha (List.mem_append_right _ hmem)
      · exact hapart (hran a s ha) hmem
    obtain ⟨css, hcss, hundo'⟩ :=
      ih (fun stage hmem => has stage (List.mem_cons_of_mem _ hmem)) hn.of_append_right hothers
    rw [List.append_assoc] at hcss
    refine ⟨cs :: css, .cons hfirst hcss, ?_⟩
    rw [hundo', hundo, List.reverse_cons, UndoStack.heapPhases_append]
    rfl

end Runner

/-- After a run the stages are undone in turn, the last one first. The pop for a stage gives back
what runs of its actions have pushed, in the reverse order, and in the end the stack is what it was
before the run. -/
theorem Runner.stages_undone_in_turn (settings : Settings) (stamp : Stamp) (prior : Levels)
    (stages : List Stage) (s : Session) {plans : List StagePlan}
    (h : plan (stages.map Stage.jobs) (prior.map (·.1)) = .ok plans)
    (hpushes : ∀ stage ∈ stages, ∀ a ∈ stage.actions, a.OnlyPushes) :
    (∃ ms, (ofSettings settings).Runs stamp prior (stages.zip plans) s ms
      ((ofSettings settings).run stamp prior stages s)) ∧
    ∀ ms e, (ofSettings settings).Runs stamp prior (stages.zip plans) s ms e →
      (∃ report, e.report = .ok report) ∧
      ∃ css, List.Forall₂ (fun stage cs => PushedBy settings stage.actions ms cs) stages css ∧
        ∀ host, UndoStack.popPhases stages.length e.session.undo host =
          ((UndoStack.restoreGroups css.reverse host).1,
            ⟨s.undo.entries,
              s.undo.failures ++ (UndoStack.restoreGroups css.reverse host).2.1⟩,
            (UndoStack.restoreGroups css.reverse host).2.2) := by
  refine ⟨(ofSettings settings).exists_runs stamp prior s h, ?_⟩
  rintro ms e ⟨p, hruns, rfl⟩
  obtain ⟨hdistinct, -, hplanned⟩ := plan_ok h
  have hzip : (stages.zip plans).map (·.1) = stages := by
    apply List.map_fst_zip
    have hlength := hplanned.length_eq
    rw [List.length_map] at hlength
    exact hlength.le
  have hn : ((stages.zip plans).flatMap (·.1.actions)).Nodup := by
    have hflat : (stages.zip plans).flatMap (·.1.actions) = stages.flatMap (·.actions) := by
      rw [← List.flatMap_map, hzip]
    have hids : (stages.flatMap (·.actions)).map (·.id) =
        (stages.map Stage.jobs).flatMap JobStage.ids := by
      simp [List.map_flatMap, List.flatMap_map]
    rw [hflat]
    apply List.Nodup.of_map (·.id)
    rw [hids]
    exact hdistinct
  have hactions : ∀ stage ∈ stages.zip plans, ∀ a ∈ stage.1.actions, a.OnlyPushes :=
    fun stage hstage => hpushes stage.1 (List.of_mem_zip hstage).1
  have hnone : ∀ a s, .ran a s ∈ ([] : List Moment) →
      a ∉ (stages.zip plans).flatMap (·.1.actions) :=
    fun _ _ hnil => absurd hnil List.not_mem_nil
  obtain ⟨css, hcss, hundo⟩ := hruns.pushed hactions hn hnone
  refine ⟨⟨_, rfl⟩, css, ?_, ?_⟩
  · rw [← hzip, List.forall₂_map_left_iff]
    exact hcss
  · intro host
    have hlength : stages.length = css.reverse.length := by
      rw [← hzip, List.length_map, List.length_reverse]
      exact hcss.length_eq
    have hsession : ((ofSettings settings).close stamp p).session.undo =
        s.undo.heapPhases css.reverse := hundo
    rw [hlength, hsession]
    exact UndoStack.popPhases_heapPhases s.undo css.reverse host

/-- A change is refused in the first stage, which holds back the second one, and in the third one a
change panics. -/
def brokenStages : List Stage := [
  ⟨"first", [rehearsedAction "edit" [] [] [.push (.rehearsed { name := "kept" }),
    .push (.rehearsed { name := "refused", onEnable := some (.failed ⟨"refused", []⟩) })]]⟩,
  ⟨"second", [rehearsedAction "follow" ["edit"] [] [.push (.rehearsed { name := "late" })]]⟩,
  ⟨"third", [rehearsedAction "try" [] [] [.push (.rehearsed { name := "draft" }),
    .push (.rehearsed { name := "copy" }),
    .push (.rehearsed { name := "broken", onEnable := some (.panicked none) })]]⟩]

def olderSession : Session where
  undo := { entries := [.change (.rehearsed { name := "old", enabled := true }), .marker] }

theorem brokenStages_onlyPush : ∀ stage ∈ brokenStages, ∀ a ∈ stage.actions, a.OnlyPushes := by
  intro stage hstage a ha
  simp only [brokenStages, List.mem_cons, List.not_mem_nil, or_false] at hstage
  rcases hstage with rfl | rfl | rfl
  all_goals
    rw [List.mem_singleton] at ha
    subst ha
    apply rehearsedAction_onlyPushes
    simp [Step.OnlyPushes]

/-- Three pops take back what was enabled, and the older change is on top again. -/
theorem Runner.stages_undone_in_turn_broken : ∃ ms css,
    (ofSettings ⟨false, false⟩).Runs { run := "r" } [] (brokenStages.zip
      [⟨"first", [0], [0]⟩, ⟨"second", [0], [0]⟩, ⟨"third", [0], [0]⟩]) olderSession ms
      ((ofSettings ⟨false, false⟩).run { run := "r" } [] brokenStages olderSession) ∧
    List.Forall₂ (fun stage cs => PushedBy ⟨false, false⟩ stage.actions ms cs) brokenStages css ∧
    (UndoStack.restoreGroups css.reverse {}).1.map (·.map Change.describe) =
      [["copy", "draft"], [], ["kept"]] ∧
    (UndoStack.popPhases 3 ((ofSettings ⟨false, false⟩).run { run := "r" } [] brokenStages
      olderSession).session.undo {}).2.1.entries = olderSession.undo.entries := by
  have hplan : plan (brokenStages.map Stage.jobs) [] =
    .ok [⟨"first", [0], [0]⟩, ⟨"second", [0], [0]⟩, ⟨"third", [0], [0]⟩] := rfl
  obtain ⟨⟨ms, hruns⟩, hall⟩ := stages_undone_in_turn ⟨false, false⟩ { run := "r" } [] brokenStages
    olderSession hplan brokenStages_onlyPush
  obtain ⟨-, css, hcss, hpops⟩ := hall ms _ hruns
  have hend := hpops {}
  refine ⟨ms, css, hruns, hcss, ?_, ?_⟩
  · rw [← congrArg Prod.fst hend]
    rfl
  · exact congrArg (·.2.1.entries) hend

end Changeover
