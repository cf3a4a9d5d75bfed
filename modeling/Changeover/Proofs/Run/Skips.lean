import Changeover.Proofs.Run.Conclusions
import Mathlib.Logic.Relation

/-!
# What is skipped

An action looks at its own dependencies only, and yet the skipped actions of a run without an
interrupt are exactly those from which a chain of dependencies leads to an obstacle: to an action
that ended at a blocking level, or to one that had been skipped before the run. The statement goes
by induction along dependencies, which a plan makes well-founded.
-/

namespace Changeover

def DependsOn (stages : List Stage) (x d : String) : Prop :=
  ∃ w ∈ workIn stages, w.2.id = x ∧ d ∈ w.2.dependencies

/-- Where a chain of skipped actions may begin. -/
inductive Obstacle (allow : Bool) (prior : Levels) (es : List ReportEntry) (d : String) : Prop
  | blocking {l : Level} : EndedAt prior es d l → l.isBlocking allow = true →
    Obstacle allow prior es d
  | skippedBefore : prior.level? d = some .skip → Obstacle allow prior es d

/-- None of the levels blocks dependents. -/
def Levels.Free (allow : Bool) (ls : Levels) : Prop :=
  ∀ d l, ls.level? d = some l → l.blocksDependents allow = false

theorem Levels.free_nil (allow : Bool) : Levels.Free allow [] := by
  rintro d l ⟨⟩

/-- The action was run once, and its entry is what came of that. -/
def RanOnce (settings : Settings) (ms : List Moment) (es : List ReportEntry)
    (w : String × Action) : Prop :=
  ∃ t, runsOf w.2.id ms = [t] ∧ ∃ d, Called settings w.2 t d ∧
    ∃ entry ∈ es, entry.name = (w.1, w.2.id) ∧ Ended d entry.result

/-! ### Induction along dependencies -/

theorem DependsOn.mem {stages : List Stage} (hn : ((workIn stages).map (·.2.id)).Nodup)
    {w : String × Action} (hw : w ∈ workIn stages) {d : String}
    (h : DependsOn stages w.2.id d) : d ∈ w.2.dependencies := by
  obtain ⟨w', hw', hid, hd⟩ := h
  have heq := List.inj_on_of_nodup_map hn hw' hw hid
  exact heq ▸ hd

theorem workOf_snd (batches : List (String × List Action)) :
    (workOf batches).map (·.2) = (batches.map (·.2)).flatten := by
  simp [workOf, Function.comp_def, List.flatMap_def]

theorem Runner.schedule_perm {settings : Settings} {known : List String} {stages : List Stage}
    {plans : List StagePlan} (h : Planned known (stages.map Stage.jobs) plans) :
    (((ofSettings settings).schedule (stages.zip plans)).map (·.2)).flatten.Perm
      ((workIn stages).map (·.2)) := by
  rw [← workOf_snd]
  exact (work_schedule_perm h).map (·.2)

/-- What holds of the ids that are done, and of each id if it holds of all that it depends on, holds
of every action. -/
theorem forall_of_plan {stages : List Stage} {done : List String} {plans : List StagePlan}
    (h : plan (stages.map Stage.jobs) done = .ok plans) {P : String → Prop}
    (hdone : ∀ d ∈ done, P d) (hstep : ∀ x, (∀ d, DependsOn stages x d → P d) → P x) :
    ∀ w ∈ workIn stages, P w.2.id := by
  obtain ⟨hdistinct, -, hplanned⟩ := plan_ok h
  rw [← workIn_ids] at hdistinct
  have horder : InOrder Action.dependencies Action.id done
      (((Runner.ofSettings {}).schedule (stages.zip plans)).map (·.2)) :=
    Runner.schedule_inOrder hplanned
  intro w hw
  refine horder.forall_names hdone ?_ w.2 ?_
  · intro a ha hneeds
    obtain ⟨w', hw', rfl⟩ := List.mem_map.mp ((Runner.schedule_perm hplanned).mem_iff.mp ha)
    apply hstep
    intro d hd
    exact hneeds d (hd.mem hdistinct hw')
  · exact (Runner.schedule_perm hplanned).mem_iff.mpr (List.mem_map_of_mem hw)

theorem TurnIn.calm {settings : Settings} {levels : Levels} {raised : Bool} {a : Action}
    {ms before after : List Moment} (ht : TurnIn levels a ms before after)
    (h : raisedBy settings raised ms = false) : raisedBy settings raised before = false := by
  rw [ht.split, raisedBy_append] at h
  exact (Bool.or_eq_false_iff.mp h).1

/-! ### From one action to the next -/

namespace Concluded

variable {settings : Settings} {prior : Levels} {raised : Bool} {stages : List Stage}
  {plans : List StagePlan} {ms : List Moment} {e : RunEnd} {report : Report}
  {entry : ReportEntry} {x d : String} {l : Level}

theorem distinct_work (h : Concluded settings prior raised stages ms e report) :
    ((workIn stages).map (·.2.id)).Nodup := by
  exact (ids_perm_of_names h.names).nodup_iff.mp h.distinct

theorem exists_blocker (h : Concluded settings prior raised stages ms e report)
    (he : entry ∈ report.entries) (hskip : entry.result.level = .skip) :
    ∃ d l, DependsOn stages entry.action d ∧ EndedAt prior report.entries d l ∧
      l.blocksDependents settings.allowOverridable = true := by
  obtain ⟨w, hw, hhandled⟩ := h.entry_handled he
  have hid := hhandled.action_eq
  cases hhandled with
  | interrupted _ _ _ heq =>
    rw [heq] at hskip
    cases hskip
  | @skipped before after _ ds ht _ hds hne _ _ _ =>
    obtain ⟨d, hd⟩ := List.exists_mem_of_ne_nil ds hne
    rw [hds, h.mem_blockers ht] at hd
    obtain ⟨hdep, l, hl, hb⟩ := hd
    exact ⟨d, l, ⟨w, hw, hid.symm, hdep⟩, hl, hb⟩
  | ran _ _ _ _ _ hend heq _ =>
    rw [heq] at hskip
    exact absurd hskip hend.level_ne_skip

theorem skip_of_blocker (h : Concluded settings prior raised stages ms e report)
    (hcalm : raisedBy settings raised ms = false) (he : entry ∈ report.entries)
    (hdep : DependsOn stages entry.action d) (hl : EndedAt prior report.entries d l)
    (hb : l.blocksDependents settings.allowOverridable = true) : entry.result.level = .skip := by
  obtain ⟨w, hw, hhandled⟩ := h.entry_handled he
  have hd : d ∈ w.2.dependencies := by
    rw [hhandled.action_eq] at hdep
    exact hdep.mem h.distinct_work hw
  cases hhandled with
  | interrupted ht hraised _ _ _ =>
    rw [ht.calm hcalm] at hraised
    cases hraised
  | skipped _ _ _ _ _ heq _ => rw [heq]; rfl
  | ran ht _ hnone _ _ _ _ _ =>
    have hblocker := (h.mem_blockers ht).mpr ⟨hd, l, hl, hb⟩
    rw [hnone] at hblocker
    cases hblocker

/-! ### Chains -/

theorem obstacle_of_prior {allow : Bool} {es : List ReportEntry}
    (hl : prior.level? d = some l) (hb : l.blocksDependents allow = true) :
    Obstacle allow prior es d := by
  rw [Level.blocksDependents, Bool.or_eq_true, beq_iff_eq] at hb
  rcases hb with rfl | hb
  · exact .skippedBefore hl
  · exact .blocking (.before hl) hb

theorem exists_obstacle (h : Concluded settings prior raised stages ms e report)
    (hplan : plan (stages.map Stage.jobs) (prior.map (·.1)) = .ok plans)
    (hl : EndedAt prior report.entries d l)
    (hb : l.blocksDependents settings.allowOverridable = true) :
    ∃ c, Relation.ReflTransGen (DependsOn stages) d c ∧
      Obstacle settings.allowOverridable prior report.entries c := by
  have hall := forall_of_plan hplan (P := fun d => ∀ l, EndedAt prior report.entries d l →
    l.blocksDependents settings.allowOverridable = true →
    ∃ c, Relation.ReflTransGen (DependsOn stages) d c ∧
      Obstacle settings.allowOverridable prior report.entries c) ?_ ?_
  · cases hl with
    | here he hd =>
      obtain ⟨w, hw, hhandled⟩ := h.entry_handled he
      rw [hhandled.action_eq] at hd
      exact hd ▸ hall w hw _ (.here he hhandled.action_eq) hb
    | before hp => exact ⟨d, .refl, obstacle_of_prior hp hb⟩
  · intro d hd l hl hb
    cases hl with
    | here he hid => exact absurd (hid ▸ hd) (h.fresh _ he)
    | before hp => exact ⟨d, .refl, obstacle_of_prior hp hb⟩
  · intro x ih l hl hb
    cases hl with
    | before hp => exact ⟨x, .refl, obstacle_of_prior hp hb⟩
    | @here entry he hx =>
      by_cases hblock : entry.result.level.isBlocking settings.allowOverridable = true
      · exact ⟨x, .refl, .blocking (.here he hx) hblock⟩
      · -- a skipped action passes on what held it back
        have hskip : entry.result.level = .skip := by
          rw [Level.blocksDependents, Bool.or_eq_true, beq_iff_eq] at hb
          exact hb.resolve_right hblock
        obtain ⟨d, l, hdep, hl, hb⟩ := h.exists_blocker he hskip
        rw [hx] at hdep
        obtain ⟨c, hchain, hc⟩ := ih d hdep l hl hb
        exact ⟨c, hchain.head hdep, hc⟩

theorem exists_obstacle_of_skip (h : Concluded settings prior raised stages ms e report)
    (hplan : plan (stages.map Stage.jobs) (prior.map (·.1)) = .ok plans)
    (he : entry ∈ report.entries) (hskip : entry.result.level = .skip) :
    ∃ c, Relation.TransGen (DependsOn stages) entry.action c ∧
      Obstacle settings.allowOverridable prior report.entries c := by
  obtain ⟨d, l, hdep, hl, hb⟩ := h.exists_blocker he hskip
  obtain ⟨c, hchain, hc⟩ := h.exists_obstacle hplan hl hb
  exact ⟨c, .head' hdep hchain, hc⟩

theorem blocks_of_obstacle {allow : Bool} {es : List ReportEntry} {c : String}
    (hc : Obstacle allow prior es c) :
    ∃ l, EndedAt prior es c l ∧ l.blocksDependents allow = true := by
  cases hc with
  | @blocking l hl hb =>
    refine ⟨l, hl, ?_⟩
    rw [Level.blocksDependents, hb, Bool.or_true]
  | skippedBefore hp => exact ⟨.skip, .before hp, rfl⟩

theorem skip_of_obstacle (h : Concluded settings prior raised stages ms e report)
    (hcalm : raisedBy settings raised ms = false) {c : String}
    (hc : Obstacle settings.allowOverridable prior report.entries c)
    (hchain : Relation.TransGen (DependsOn stages) x c) :
    ∀ entry ∈ report.entries, entry.action = x → entry.result.level = .skip := by
  induction hchain using Relation.TransGen.head_induction_on with
  | single hdep =>
    rintro entry he rfl
    obtain ⟨l, hl, hb⟩ := blocks_of_obstacle hc
    exact h.skip_of_blocker hcalm he hdep hl hb
  | @head x d hdep hrest ih =>
    rintro entry he rfl
    -- what the chain goes on from has an entry of its own
    obtain ⟨_, ⟨w, hw, hid, -⟩, -⟩ := Relation.TransGen.head'_iff.mp hrest
    obtain ⟨next, hnext, hhandled⟩ := h.handled w hw
    have hd := hhandled.action_eq.trans hid
    refine h.skip_of_blocker hcalm he hdep (.here hnext hd) ?_
    rw [ih next hnext hd]
    rfl

theorem skip_iff (h : Concluded settings prior raised stages ms e report)
    (hplan : plan (stages.map Stage.jobs) (prior.map (·.1)) = .ok plans)
    (hcalm : raisedBy settings raised ms = false) (he : entry ∈ report.entries) :
    entry.result.level = .skip ↔ ∃ c, Relation.TransGen (DependsOn stages) entry.action c ∧
      Obstacle settings.allowOverridable prior report.entries c := by
  constructor
  · exact h.exists_obstacle_of_skip hplan he
  · rintro ⟨c, hchain, hc⟩
    exact h.skip_of_obstacle hcalm hc hchain entry he rfl

/-- Where no level from before blocks, what is skipped goes back to an entry that blocks. -/
theorem isBlocking_of_skip (h : Concluded settings prior raised stages ms e report)
    (hplan : plan (stages.map Stage.jobs) (prior.map (·.1)) = .ok plans)
    (hprior : prior.Free settings.allowOverridable)
    (he : entry ∈ report.entries) (hskip : entry.result.level = .skip) :
    report.isBlocking = true := by
  obtain ⟨c, -, hc⟩ := h.exists_obstacle_of_skip hplan he hskip
  cases hc with
  | skippedBefore hp => exact absurd (hprior c _ hp) Bool.noConfusion
  | blocking hl hb =>
    cases hl with
    | here hc _ =>
      rw [Report.isBlocking, List.any_eq_true, h.allow]
      exact ⟨_, hc, hb⟩
    | before hp =>
      have hfree := hprior c _ hp
      rw [Level.blocksDependents, hb, Bool.or_true] at hfree
      cases hfree

theorem level_free (h : Concluded settings prior raised stages ms e report)
    (hplan : plan (stages.map Stage.jobs) (prior.map (·.1)) = .ok plans)
    (hprior : prior.Free settings.allowOverridable)
    (hclear : report.isBlocking = false) (he : entry ∈ report.entries) :
    entry.result.level.blocksDependents settings.allowOverridable = false := by
  rw [Level.blocksDependents, Bool.or_eq_false_iff, beq_eq_false_iff_ne]
  constructor
  · intro hskip
    rw [h.isBlocking_of_skip hplan hprior he hskip] at hclear
    cases hclear
  · rw [Report.isBlocking, List.any_eq_false, h.allow] at hclear
    exact eq_false_of_ne_true (hclear entry he)

theorem all_ran (h : Concluded settings prior raised stages ms e report)
    (hplan : plan (stages.map Stage.jobs) (prior.map (·.1)) = .ok plans)
    (hprior : prior.Free settings.allowOverridable)
    (hcalm : raisedBy settings raised ms = false) (hclear : report.isBlocking = false) :
    ∀ w ∈ workIn stages, RanOnce settings ms report.entries w := by
  intro w hw
  obtain ⟨entry, he, hhandled⟩ := h.handled w hw
  have hname : entry.name = (w.1, w.2.id) :=
    Prod.ext hhandled.stage_eq hhandled.action_eq
  cases hhandled with
  | interrupted ht hraised _ _ _ =>
    rw [ht.calm hcalm] at hraised
    cases hraised
  | skipped _ _ _ _ _ heq _ =>
    have hskip : entry.result.level = .skip := by
      rw [heq]
      rfl
    rw [h.isBlocking_of_skip hplan hprior he hskip] at hclear
    cases hclear
  | @ran _ _ _ t d _ _ _ _ _ hruns hcall hend heq _ =>
    refine ⟨t, hruns, d, hcall, entry, he, hname, ?_⟩
    rw [heq]
    exact hend

end Concluded

/-- Without an interrupt the skipped actions are those linked to an obstacle; and a run on its own
that skips an action is blocking. -/
theorem Runner.skip_iff_linked_to_obstacle (settings : Settings) (stamp : Stamp) (prior : Levels)
    (stages : List Stage) (s : Session) {plans : List StagePlan}
    (h : plan (stages.map Stage.jobs) (prior.map (·.1)) = .ok plans) :
    (∃ ms, (ofSettings settings).Runs stamp prior (stages.zip plans) s ms
      ((ofSettings settings).run stamp prior stages s)) ∧
    ∀ ms e, (ofSettings settings).Runs stamp prior (stages.zip plans) s ms e →
      ∃ report, e.report = .ok report ∧
        (report.entries.map ReportEntry.name).Perm (namesOf (workIn stages)) ∧
        (raisedBy settings s.host.interrupted ms = false → ∀ entry ∈ report.entries,
          (entry.result.level = .skip ↔
            ∃ c, Relation.TransGen (DependsOn stages) entry.action c ∧
              Obstacle settings.allowOverridable prior report.entries c)) ∧
        (prior = [] → (∃ entry ∈ report.entries, entry.result.level = .skip) →
          report.isBlocking = true) := by
  refine ⟨(ofSettings settings).exists_runs stamp prior s h, ?_⟩
  intro ms e hruns
  obtain ⟨report, hc⟩ := hruns.concluded h
  refine ⟨report, hc.ended, hc.names, ?_, ?_⟩
  · intro hcalm entry he
    exact hc.skip_iff h hcalm he
  · rintro rfl ⟨entry, he, hskip⟩
    exact hc.isBlocking_of_skip h (Levels.free_nil _) he hskip

/-- A check that panics, an action that depends on it, and one of a later stage that depends on
that: the last is skipped because of the first. -/
theorem skip_iff_linked_to_obstacle_chain :
    let check : Action := { id := "check", run := fun _ => .panic none }
    let change : Action := { id := "change", dependencies := ["check"], run := fun _ => pure () }
    let tidy : Action := { id := "tidy", dependencies := ["change"], run := fun _ => pure () }
    let stages : List Stage := [⟨"first", [change, check]⟩, ⟨"second", [tidy]⟩]
    let plans : List StagePlan := [⟨"first", [1, 0], [1, 0]⟩, ⟨"second", [0], [0]⟩]
    plan (stages.map Stage.jobs) [] = .ok plans ∧
      ∃ report, ((Runner.ofSettings {}).run { run := "r" } [] stages {}).report = .ok report ∧
        (∀ entry ∈ report.entries, entry.action = "tidy" → entry.result.level = .skip) ∧
        report.isBlocking = true := by
  intro check change tidy stages plans
  have hplan : plan (stages.map Stage.jobs) [] = .ok plans := rfl
  obtain ⟨⟨ms, hruns⟩, hall⟩ :=
    Runner.skip_iff_linked_to_obstacle {} { run := "r" } [] stages {} hplan
  obtain ⟨report, hreport, -, hskip, hblock⟩ := hall ms _ hruns
  obtain ⟨_, hc⟩ := hruns.concluded hplan
  have hcalm : raisedBy {} false ms = false := hc.interrupted.symm
  have hentries : report.entries.map (fun e => (e.action, e.result.level)) =
      [("check", .error), ("change", .skip), ("tidy", .skip)] := by
    cases hreport
    rfl
  have hends {x : String} {l : Level} (h : (x, l) ∈ [("check", Level.error), ("change", .skip),
      ("tidy", .skip)]) : ∃ e ∈ report.entries, e.action = x ∧ e.result.level = l := by
    rw [← hentries] at h
    obtain ⟨e, he, heq⟩ := List.mem_map.mp h
    exact ⟨e, he, Prod.mk.inj heq⟩
  refine ⟨hplan, report, hreport, ?_, ?_⟩
  · rintro entry he htidy
    rw [hskip hcalm entry he, htidy]
    refine ⟨"check", .head (b := "change") ?_ (.single ?_), ?_⟩
    · exact ⟨("second", tidy), by simp [workIn, stages], rfl, List.mem_singleton_self _⟩
    · exact ⟨("first", change), by simp [workIn, stages], rfl, List.mem_singleton_self _⟩
    · obtain ⟨e, he, hcheck, hlevel⟩ := hends (x := "check") List.mem_cons_self
      refine .blocking (.here he hcheck) ?_
      rw [hlevel]
      rfl
  · obtain ⟨e, he, -, hlevel⟩ := hends (x := "tidy") (l := .skip) (by simp)
    exact hblock rfl ⟨e, he, hlevel⟩

end Changeover
