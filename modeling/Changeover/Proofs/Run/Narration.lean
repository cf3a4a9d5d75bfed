import Changeover.Proofs.Run.Events

/-!
# What a run makes known

The events of a run tell the same as its moments. What is made known about one action fits how it
came to its entry, stages follow each other, and no action is said to start before all that it
depends on is said to have finished.
-/

namespace Changeover

/-! ### Batches in a row -/

theorem Worked.action_mem {settings : Settings} {bs : List (String × List Action)}
    {p p' : Progress} {ms : List Moment} {e : ReportEntry} (h : Worked settings bs p ms p')
    (he : e ∈ recordedIn ms) : e.action ∈ (workOf bs).map (·.2.id) := by
  rw [← (ids_perm_of_names h.names).mem_iff]
  exact List.mem_map_of_mem he

/-- What is made known in a stretch of a run. -/
structure Told (settings : Settings) (run : String) (batches : List (String × List Action))
    (p : Progress) (ms : List Moment) (p' : Progress) (evs : List Event) : Prop where
  events : p'.events = p.events ++ evs
  named : ∀ v ∈ evs, ∀ id, v.action? = some id → id ∈ (workOf batches).map (·.2.id)
  settled : ∀ e ∈ recordedIn ms, Traced run ms e (eventsAbout e.action evs)
  order : StartsInOrder settings run p.levels ((workOf batches).map (·.2)) evs
  skipped : ∀ id ds, .actionSkipped run id ds ∈ evs →
    HeldBack settings p.levels ((workOf batches).map (·.2)) ms id ds

namespace Told

variable {settings : Settings} {run : String} {bs cs : List (String × List Action)}
  {p p' p'' : Progress} {ms ns : List Moment} {evs vs : List Event}

theorem nil (settings : Settings) (run : String) (p : Progress) :
    Told settings run [] p [] p [] where
  events := (List.append_nil _).symm
  named _ h := nomatch h
  settled _ h := nomatch h
  order := .nil
  skipped _ _ h := nomatch h

theorem raise (h : Told settings run bs p.raise ms p' evs) :
    Told settings run bs p (.raised :: ms) p' evs where
  events := h.events
  named := h.named
  settled e he := (h.settled e he).congr rfl rfl
  order := h.order
  skipped id ds hds := .prepend [.raised] (h.skipped id ds hds)

theorem enter {s : Stage} (h : Told settings run bs (p.enter run s) ms p' evs) :
    Told settings run bs p ms p' (.stageStarted run s.name s.actions.length :: evs) where
  events := by
    rw [h.events]
    simp [Progress.enter, Progress.emit]
  named v hv id hid := by
    rcases List.mem_cons.mp hv with rfl | hv
    · cases hid
    · exact h.named v hv id hid
  settled e he := h.settled e he
  order := h.order.cons fun _ hv => nomatch hv
  skipped id ds hds := h.skipped id ds (List.mem_of_ne_of_mem (by simp) hds)

theorem quiet (h : Told settings run bs p ms p' evs) {id : String}
    (hid : id ∉ (workOf bs).map (·.2.id)) : eventsAbout id evs = [] := by
  apply eventsAbout_eq_nil
  intro v hv hv'
  exact hid (h.named v hv id hv')

theorem append (h : Told settings run bs p ms p' evs) (h' : Told settings run cs p' ns p'' vs)
    (hw : Worked settings bs p ms p') (hw' : Worked settings cs p' ns p'')
    (hn : ((workOf (bs ++ cs)).map (·.2.id)).Nodup) :
    Told settings run (bs ++ cs) p (ms ++ ns) p'' (evs ++ vs) := by
  rw [workOf_append, List.map_append] at hn
  have hapart := List.disjoint_of_nodup_append hn
  refine ⟨?_, ?_, ?_, ?_, ?_⟩
  · rw [h'.events, h.events, List.append_assoc]
  · intro v hv id hid
    rw [workOf_append, List.map_append]
    rcases List.mem_append.mp hv with hv | hv
    · exact List.mem_append_left _ (h.named v hv id hid)
    · exact List.mem_append_right _ (h'.named v hv id hid)
  · intro e he
    rw [recordedIn_append] at he
    rcases List.mem_append.mp he with he | he
    · have hout : e.action ∉ (workOf cs).map (·.2.id) := hapart (hw.action_mem he)
      refine (h.settled e he).congr ?_ ?_
      · rw [runsOf_append, hw'.strangers _ hout, List.append_nil]
      · rw [eventsAbout_append, h'.quiet hout, List.append_nil]
    · have hout : e.action ∉ (workOf bs).map (·.2.id) := fun hin => hapart hin (hw'.action_mem he)
      refine (h'.settled e he).congr ?_ ?_
      · rw [runsOf_append, hw.strangers _ hout, List.nil_append]
      · rw [eventsAbout_append, h.quiet hout, List.nil_append]
  · rw [workOf_append, List.map_append]
    refine h.order.append (List.subset_append_left _ _) ?_
    intro before after id hsplit
    obtain ⟨a, ha, hid, hmet⟩ := h'.order before after id hsplit
    refine ⟨a, List.mem_append_right _ ha, hid, ?_⟩
    intro d hd
    obtain ⟨l, hl, hfinished | hbefore⟩ := hmet d hd
    · exact ⟨l, hl, .inl (List.mem_append_right _ hfinished)⟩
    · -- a level there before the second stretch may be one that the first has recorded
      rw [hw.levels] at hbefore
      refine ⟨l, hl, (finished_or_level? h.settled hbefore hl).imp_left ?_⟩
      exact List.mem_append_left _
  · rw [workOf_append, List.map_append]
    intro id ds hds
    rcases List.mem_append.mp hds with hds | hds
    · exact ((h.skipped id ds hds).append ns).mono (List.subset_append_left _ _)
    · have hlater := h'.skipped id ds hds
      rw [hw.levels] at hlater
      exact (hlater.prepend ms).mono (List.subset_append_right _ _)

end Told

/-- Each stage is made known before anything about its actions, and nothing about them later. -/
inductive StagesTold (run : String) : List Stage → List Event → Prop
  | nil : StagesTold run [] []
  | cons {s : Stage} {stages : List Stage} {body rest : List Event} :
    (∀ v ∈ body, ∃ a ∈ s.actions, v.Concerns run a.id) → StagesTold run stages rest →
    StagesTold run (s :: stages)
      (.stageStarted run s.name s.actions.length :: (body ++ rest))

section

variable {settings : Settings} {run stage : String} {p p' : Progress} {ms : List Moment}

theorem BatchRun.told {batch : List Action} (h : BatchRun settings run stage batch p ms p')
    (hf : Fit batch p.levels) :
    ∃ evs, Told settings run [(stage, batch)] p ms p' evs ∧
      ∀ v ∈ evs, ∃ a ∈ batch, v.Concerns run a.id := by
  obtain ⟨-, -, evs, ht⟩ := Underway.Told.steps h (.begin batch p) (.begin batch p) hf
    (.begin p fun _ ha => ha)
  have hwork : (workOf [(stage, batch)]).map (·.2) = batch := by
    rw [workOf_singleton, List.map_map]
    exact List.map_id batch
  refine ⟨evs, ⟨ht.events, ?_, ht.settled, ?_, ?_⟩, ht.concerns⟩
  · intro v hv id hid
    obtain ⟨a, ha, hconcerns⟩ := ht.concerns v hv
    rw [hconcerns.action] at hid
    cases hid
    rw [workOf_singleton, List.map_map]
    exact List.mem_map_of_mem ha
  · rw [hwork]
    exact ht.order
  · rw [hwork]
    exact ht.skipped

theorem BatchRuns.told {bs : List (List Action)} {known : List String}
    (h : BatchRuns settings run stage bs p ms p') (hn : (bs.flatten.map (·.id)).Nodup)
    (ho : InOrder Action.dependencies Action.id known bs)
    (hk : ∀ d ∈ known, ∃ l, p.levels.level? d = some l) :
    ∃ evs, Told settings run (bs.map (stage, ·)) p ms p' evs ∧
      ∀ v ∈ evs, ∃ a ∈ bs.flatten, v.Concerns run a.id := by
  induction h generalizing known with
  | nil p => exact ⟨[], .nil settings run p, fun _ hv => nomatch hv⟩
  | @cons b bs p p' p'' ms ns hb hbs ih =>
    have hall := hn
    rw [List.flatten_cons, List.map_append] at hn
    obtain ⟨hnb, hnbs, -⟩ := List.nodup_append'.mp hn
    have hfit : Fit b p.levels := ⟨hnb, fun a ha d hd => hk d (ho.1 a ha hd)⟩
    have hw := hb.worked hfit
    have hknown := hw.known hk
    rw [workOf_singleton, List.map_map] at hknown
    obtain ⟨evs, hevs, hfirst⟩ := hb.told hfit
    obtain ⟨vs, hvs, hlater⟩ := ih hnbs ho.2 hknown
    have hjoin : workOf ([(stage, b)] ++ bs.map (stage, ·)) =
        (b :: bs).flatten.map (stage, ·) := workOf_map stage (b :: bs)
    refine ⟨evs ++ vs, hevs.append hvs hw (hbs.worked hnbs ho.2 hknown) ?_, ?_⟩
    · rw [hjoin, List.map_map]
      exact hall
    · intro v hv
      rw [List.flatten_cons]
      rcases List.mem_append.mp hv with hv | hv
      · obtain ⟨a, ha, hconcerns⟩ := hfirst v hv
        exact ⟨a, List.mem_append_left _ ha, hconcerns⟩
      · obtain ⟨a, ha, hconcerns⟩ := hlater v hv
        exact ⟨a, List.mem_append_right _ ha, hconcerns⟩

theorem Runner.StageRuns.told {r : Runner} {stages : List (Stage × StagePlan)}
    {known : List String} (h : r.StageRuns run stages p ms p')
    (hn : ((workOf (r.schedule stages)).map (·.2.id)).Nodup)
    (ho : InOrder Action.dependencies Action.id known ((r.schedule stages).map (·.2)))
    (hk : ∀ d ∈ known, ∃ l, p.levels.level? d = some l) :
    ∃ evs, Told r.settings run (r.schedule stages) p ms p' evs ∧
      StagesTold run (stages.map (·.1)) evs := by
  induction h generalizing known with
  | nil p => exact ⟨[], .nil _ run p, .nil⟩
  | @raise stages p p' ms _ ih =>
    obtain ⟨evs, hevs, hstages⟩ := ih hn ho hk
    exact ⟨evs, hevs.raise, hstages⟩
  | @cons stage stages p p' p'' ms ns hb hbs ih =>
    have hall := hn
    obtain ⟨s, pl⟩ := stage
    rw [schedule_cons, workOf_append, List.map_append] at hn
    obtain ⟨hnb, hnrest, -⟩ := List.nodup_append'.mp hn
    rw [schedule_cons, List.map_append, inOrder_append, List.map_map] at ho
    have hfst : ((·.2) ∘ (s.name, ·) : List Action → List Action) = id := rfl
    rw [hfst, List.map_id] at ho
    rw [workOf_map, List.map_map] at hnb
    have hw : Worked r.settings ((r.batchesOf (s, pl)).map (s.name, ·)) p ms p' :=
      (hb.worked hnb ho.1 hk).of_enter rfl rfl rfl
    have hknown := hw.known hk
    rw [workOf_map, List.map_map] at hknown
    obtain ⟨evs, hevs, hbody⟩ := hb.told hnb ho.1 hk
    obtain ⟨vs, hvs, hrest⟩ := ih hnrest ho.2 hknown
    refine ⟨_, hevs.enter.append hvs hw (hbs.worked hnrest ho.2 hknown) hall, .cons ?_ hrest⟩
    intro v hv
    obtain ⟨a, ha, hconcerns⟩ := hbody v hv
    obtain ⟨batch, hbatch, hin⟩ := List.mem_flatten.mp ha
    exact ⟨a, mem_of_mem_batchesOf hbatch hin, hconcerns⟩

end

/-! ### Whole runs -/

/-- What the events of a run with a plan say. -/
structure Narrated (settings : Settings) (run : String) (stages : List Stage) (ms : List Moment)
    (report : Report) (events : List Event) : Prop where
  shape : ∃ body, events = .started run :: (body ++ [.completed run report.isBlocking]) ∧
    StagesTold run stages body
  complete : (report.entries.map ReportEntry.name).Perm (namesOf (workIn stages))
  distinct : (report.entries.map (·.action)).Nodup
  traced : ∀ entry ∈ report.entries,
    Traced run ms entry (eventsAbout entry.action events)
  order : ∀ w ∈ workIn stages, ∀ before after,
    events = before ++ .actionStarted run w.2.id :: after →
    ∀ d ∈ w.2.dependencies, d ∈ (workIn stages).map (·.2.id) →
      ∃ l, l.blocksDependents settings.allowOverridable = false ∧
        .actionFinished run d l ∈ before

section

variable {settings : Settings} {stamp : Stamp} {prior : Levels} {stages : List Stage}
  {plans : List StagePlan} {s : Session} {ms : List Moment} {e : RunEnd}

theorem Runner.Runs.told (hplan : plan (stages.map Stage.jobs) (prior.map (·.1)) = .ok plans)
    (h : (ofSettings settings).Runs stamp prior (stages.zip plans) s ms e) :
    ∃ p evs, e = (ofSettings settings).close stamp p ∧ StagesTold stamp.run stages evs ∧
      Told settings stamp.run ((ofSettings settings).schedule (stages.zip plans))
        (.start stamp.run prior s) ms p evs := by
  obtain ⟨p, hruns, rfl⟩ := h
  obtain ⟨-, -, hplanned⟩ := plan_ok hplan
  obtain ⟨evs, htold, hstages⟩ := hruns.told (schedule_distinct hplan)
    (schedule_inOrder hplanned) fun d hd => Levels.exists_level?_iff.mpr hd
  rw [zip_plans_fst hplanned] at hstages
  exact ⟨p, evs, rfl, hstages, htold⟩

theorem Runner.Runs.narrated (hplan : plan (stages.map Stage.jobs) (prior.map (·.1)) = .ok plans)
    (h : (ofSettings settings).Runs stamp prior (stages.zip plans) s ms e) :
    ∃ report, e.report = .ok report ∧ Narrated settings stamp.run stages ms report e.events := by
  obtain ⟨report, hc⟩ := h.concluded hplan
  obtain ⟨p, evs, rfl, hstages, htold⟩ := h.told hplan
  obtain ⟨-, hfresh, hplanned⟩ := plan_ok hplan
  rw [← workIn_ids] at hfresh
  have hwork : ((workOf ((ofSettings settings).schedule (stages.zip plans))).map (·.2)).Perm
      ((workIn stages).map (·.2)) := (work_schedule_perm hplanned).map _
  have hevents : ((ofSettings settings).close stamp p).events =
      .started stamp.run :: (evs ++ [.completed stamp.run report.isBlocking]) := by
    obtain rfl := Except.ok.inj hc.ended
    have hp : p.events = .started stamp.run :: evs := htold.events
    rw [close, hp]
    rfl
  refine ⟨report, hc.ended, ⟨evs, hevents, hstages⟩, hc.names, hc.distinct, ?_, ?_⟩
  · intro entry he
    rw [hc.entries] at he
    refine (htold.settled entry he).congr rfl ?_
    have hstarted : eventsAbout entry.action [.started stamp.run] = [] :=
      eventsAbout_eq_nil (by simp [Event.action?])
    have hcompleted :
        eventsAbout entry.action [.completed stamp.run report.isBlocking] = [] :=
      eventsAbout_eq_nil (by simp [Event.action?])
    rw [hevents, ← List.singleton_append, eventsAbout_append, eventsAbout_append, hstarted,
      hcompleted, List.append_nil, List.nil_append]
  · intro w hw before after hsplit d hd hin
    have horder := (htold.order.snoc (v := .completed stamp.run report.isBlocking)
      fun _ hv => nomatch hv).cons (v := .started stamp.run) fun _ hv => nomatch hv
    obtain ⟨a, ha, hid, hmet⟩ := horder before after w.2.id (hevents ▸ hsplit)
    obtain ⟨w', hw', rfl⟩ := List.mem_map.mp (hwork.mem_iff.mp ha)
    obtain rfl := List.inj_on_of_nodup_map hc.distinct_work hw' hw hid
    obtain ⟨l, hl, hfinished | hbefore⟩ := hmet d hd
    · exact ⟨l, hl, hfinished⟩
    · exact absurd (Levels.exists_level?_iff.mp ⟨l, hbefore⟩) (hfresh d hin)

end

/-- The events of a run, in whatever order its actions go: one that says why, if there is no plan,
and else the story of the run. -/
theorem Runner.run_narrated (settings : Settings) (stamp : Stamp) (prior : Levels)
    (stages : List Stage) (s : Session) :
    (∃ ms, (ofSettings settings).Goes stamp prior stages s ms
      ((ofSettings settings).run stamp prior stages s)) ∧
    ∀ ms e, (ofSettings settings).Goes stamp prior stages s ms e →
      (∀ err, plan (stages.map Stage.jobs) (prior.map (·.1)) = .error err →
        ms = [] ∧ e = ⟨.error err, [.failed stamp.run err.message], s⟩) ∧
      ∀ plans, plan (stages.map Stage.jobs) (prior.map (·.1)) = .ok plans →
        ∃ report, e.report = .ok report ∧
          Narrated settings stamp.run stages ms report e.events := by
  refine ⟨(ofSettings settings).exists_goes stamp prior stages s, ?_⟩
  intro ms e h
  constructor
  · intro err hplan
    exact h.of_plan_error hplan
  · intro plans hplan
    exact ((goes_of_plan hplan).mp h).narrated hplan

def heldBackStages : List Stage :=
  [⟨"checks", [{ id := "check", run := fun _ => .panic none }]⟩,
    ⟨"changes", [{ id := "change", dependencies := ["check"], run := fun _ => pure () },
      { id := "clean", run := fun _ => pure () }]⟩]

def heldBackEnd : RunEnd := (Runner.ofSettings {}).run { run := "r" } [] heldBackStages {}

theorem Runner.run_narrated_heldBack :
    heldBackEnd.events = [.started "r", .stageStarted "r" "checks" 1,
      .actionStarted "r" "check", .actionFinished "r" "check" .error,
      .stageStarted "r" "changes" 2, .actionSkipped "r" "change" ["check"],
      .actionStarted "r" "clean", .actionFinished "r" "clean" .success,
      .completed "r" true] ∧
    ∃ ms report, (Runner.ofSettings {}).Goes { run := "r" } [] heldBackStages {} ms heldBackEnd ∧
      heldBackEnd.report = .ok report ∧
      Narrated {} "r" heldBackStages ms report heldBackEnd.events := by
  obtain ⟨⟨ms, hms⟩, hall⟩ := Runner.run_narrated {} { run := "r" } [] heldBackStages {}
  obtain ⟨report, hreport, hnarrated⟩ :=
    (hall ms heldBackEnd hms).2 [⟨"checks", [0], [0]⟩, ⟨"changes", [0, 1], [0, 0]⟩] rfl
  exact ⟨rfl, ms, report, hms, hreport, hnarrated⟩

end Changeover
