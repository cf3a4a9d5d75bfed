import Changeover.Proofs.Run.Account

/-!
# Reports are complete

Over planned stages, every run in every order leaves one entry for each action, and each action
came to its entry in one of three ways: an interrupt stood at its turn, something it depends on held
it back, or it was run, once. One at a time, entries are in plan order.
-/

namespace Changeover

def namesOf (work : List (String × Action)) : List (String × String) :=
  work.map fun w => (w.1, w.2.id)

theorem namesOf_snd (work : List (String × Action)) :
    (namesOf work).map (·.2) = work.map (·.2.id) := by
  simp [namesOf, Function.comp_def]

theorem name_snd (es : List ReportEntry) :
    (es.map ReportEntry.name).map (·.2) = es.map (·.action) := by
  simp [ReportEntry.name, Function.comp_def]

theorem ids_perm_of_names {es : List ReportEntry} {work : List (String × Action)}
    (h : (es.map ReportEntry.name).Perm (namesOf work)) :
    (es.map (·.action)).Perm (work.map (·.2.id)) := by
  rw [← name_snd, ← namesOf_snd]
  exact h.map _

/-- The books of a stretch of a run. -/
structure Worked (settings : Settings) (batches : List (String × List Action)) (p : Progress)
    (ms : List Moment) (p' : Progress) : Prop where
  entries : p'.entries = p.entries ++ recordedIn ms
  levels : p'.levels = levelsAfter p.levels ms
  raised : p'.session.host.interrupted = raisedBy settings p.session.host.interrupted ms
  names : ((recordedIn ms).map ReportEntry.name).Perm (namesOf (workOf batches))
  single : (∀ b ∈ batches, b.2.length ≤ 1) →
    (recordedIn ms).map ReportEntry.name = namesOf (workOf batches)
  strangers : ∀ id ∉ (workOf batches).map (·.2.id), runsOf id ms = []
  handled : ∀ w ∈ workOf batches,
    ∃ e, Handled settings p.levels p.session.host.interrupted w.1 w.2 ms e

namespace Worked

variable {settings : Settings} {bs cs : List (String × List Action)} {p p' p'' : Progress}
  {ms ns : List Moment}

theorem nil (settings : Settings) (p : Progress) : Worked settings [] p [] p where
  entries := (List.append_nil _).symm
  levels := rfl
  raised := (Bool.or_false _).symm
  names := List.Perm.refl _
  single _ := rfl
  strangers _ _ := rfl
  handled _ h := nomatch h

theorem raise (settings : Settings) (p : Progress) : Worked settings [] p [.raised] p.raise where
  entries := (List.append_nil _).symm
  levels := rfl
  raised := by simp [Progress.raise, raisedBy, Moment.raises]
  names := List.Perm.refl _
  single _ := rfl
  strangers _ _ := rfl
  handled _ h := nomatch h

/-- Only levels, entries and the interrupt at the start of a stretch count. -/
theorem of_enter {q : Progress} (h : Worked settings bs q ms p') (he : q.entries = p.entries)
    (hl : q.levels = p.levels)
    (hr : q.session.host.interrupted = p.session.host.interrupted) :
    Worked settings bs p ms p' where
  entries := he ▸ h.entries
  levels := hl ▸ h.levels
  raised := hr ▸ h.raised
  names := h.names
  single := h.single
  strangers := h.strangers
  handled := by
    rw [← hl, ← hr]
    exact h.handled

theorem append (h : Worked settings bs p ms p') (h' : Worked settings cs p' ns p'')
    (hn : ((workOf (bs ++ cs)).map (·.2.id)).Nodup) :
    Worked settings (bs ++ cs) p (ms ++ ns) p'' := by
  rw [workOf_append, List.map_append] at hn
  have hapart := List.disjoint_of_nodup_append hn
  refine ⟨?_, ?_, ?_, ?_, ?_, ?_, ?_⟩
  · rw [h'.entries, h.entries, recordedIn_append, List.append_assoc]
  · rw [h'.levels, h.levels, levelsAfter_append]
  · rw [h'.raised, h.raised, raisedBy_append]
  · rw [recordedIn_append, List.map_append, workOf_append, namesOf, List.map_append]
    exact h.names.append h'.names
  · intro hs
    have hfirst := h.single fun b hb => hs b (List.mem_append_left _ hb)
    have hsecond := h'.single fun b hb => hs b (List.mem_append_right _ hb)
    rw [recordedIn_append, List.map_append, workOf_append, namesOf, List.map_append, hfirst,
      hsecond]
    rfl
  · intro id hid
    rw [workOf_append, List.map_append, List.mem_append, not_or] at hid
    rw [runsOf_append, h.strangers id hid.1, h'.strangers id hid.2, List.nil_append]
  · intro w hw
    rw [workOf_append] at hw
    rcases List.mem_append.mp hw with hw | hw
    · obtain ⟨e, he⟩ := h.handled w hw
      refine ⟨e, he.append (h'.strangers _ ?_)⟩
      intro hin
      exact hapart (List.mem_map_of_mem (f := fun w => w.2.id) hw) hin
    · obtain ⟨e, he⟩ := h'.handled w hw
      rw [h.levels, h.raised] at he
      refine ⟨e, he.prepend (h.strangers _ ?_)⟩
      intro hin
      exact hapart hin (List.mem_map_of_mem (f := fun w => w.2.id) hw)

theorem known (h : Worked settings bs p ms p') {ids : List String}
    (hk : ∀ d ∈ ids, ∃ l, p.levels.level? d = some l) :
    ∀ d ∈ ids ++ (workOf bs).map (·.2.id), ∃ l, p'.levels.level? d = some l := by
  intro d hd
  rw [h.levels]
  rcases List.mem_append.mp hd with hd | hd
  · exact exists_level_after (hk d hd) ms
  · rw [Levels.exists_level?_iff, levelsAfter_keys]
    apply List.mem_append_left
    rw [List.mem_reverse, (ids_perm_of_names h.names).mem_iff]
    exact hd

end Worked

section

variable {settings : Settings} {run stage : String} {p p' : Progress} {ms : List Moment}

theorem workOf_singleton (stage : String) (batch : List Action) :
    workOf [(stage, batch)] = batch.map (stage, ·) := by
  simp [workOf]

theorem BatchRun.worked {batch : List Action} (h : BatchRun settings run stage batch p ms p')
    (hf : Fit batch p.levels) : Worked settings [(stage, batch)] p ms p' := by
  obtain ⟨hs, -⟩ := Underway.Sound.steps h (.begin batch p) hf (List.Subset.refl _)
  have hnames : ((recordedIn ms).map ReportEntry.name).Perm
      (namesOf (workOf [(stage, batch)])) := by
    have hn := hs.names
    simp only [List.map_nil, List.append_nil] at hn
    rw [workOf_singleton, namesOf, List.map_map]
    exact hn
  refine ⟨hs.entries, hs.levels, hs.raised, hnames, ?_, ?_, ?_⟩
  · intro hsingle
    have hlen := hsingle (stage, batch) List.mem_cons_self
    match batch, hlen with
    | [], _ => exact List.perm_nil.mp hnames
    | [a], _ => exact List.perm_singleton.mp hnames
  · intro id hid
    apply hs.strangers
    simpa [workOf_singleton, Function.comp_def] using hid
  · intro w hw
    rw [workOf_singleton] at hw
    obtain ⟨a, ha, rfl⟩ := List.mem_map.mp hw
    rcases hs.cover a ha with hp | hq | he
    · cases hp
    · cases hq
    · exact he

theorem BatchRuns.worked {bs : List (List Action)} {known : List String}
    (h : BatchRuns settings run stage bs p ms p') (hn : (bs.flatten.map (·.id)).Nodup)
    (ho : InOrder Action.dependencies Action.id known bs)
    (hk : ∀ d ∈ known, ∃ l, p.levels.level? d = some l) :
    Worked settings (bs.map (stage, ·)) p ms p' := by
  induction h generalizing known with
  | nil p => exact Worked.nil settings p
  | @cons b bs p p' p'' ms ns hb _ ih =>
    have hall := hn
    rw [List.flatten_cons, List.map_append] at hn
    obtain ⟨hnb, hnbs, -⟩ := List.nodup_append'.mp hn
    have hfit : Fit b p.levels := ⟨hnb, fun a ha d hd => hk d (ho.1 a ha hd)⟩
    have hw := hb.worked hfit
    have hknown := hw.known hk
    rw [workOf_singleton, List.map_map] at hknown
    refine (hw.append (ih hnbs ho.2 hknown) ?_)
    have hjoin : workOf ([(stage, b)] ++ bs.map (stage, ·)) =
        (b :: bs).flatten.map (stage, ·) := workOf_map stage (b :: bs)
    rw [hjoin, List.map_map]
    exact hall

theorem Runner.StageRuns.worked {r : Runner} {stages : List (Stage × StagePlan)}
    {known : List String} (h : r.StageRuns run stages p ms p')
    (hn : ((workOf (r.schedule stages)).map (·.2.id)).Nodup)
    (ho : InOrder Action.dependencies Action.id known ((r.schedule stages).map (·.2)))
    (hk : ∀ d ∈ known, ∃ l, p.levels.level? d = some l) :
    Worked r.settings (r.schedule stages) p ms p' := by
  induction h generalizing known with
  | nil p => exact Worked.nil _ p
  | @raise stages p p' ms _ ih => exact (Worked.raise _ p).append (ih hn ho hk) hn
  | @cons stage stages p p' p'' ms ns hb _ ih =>
    have hall := hn
    obtain ⟨s, pl⟩ := stage
    rw [schedule_cons, workOf_append, List.map_append] at hn
    obtain ⟨hnb, hnrest, -⟩ := List.nodup_append'.mp hn
    rw [schedule_cons, List.map_append, inOrder_append, List.map_map] at ho
    have hfst : ((·.2) ∘ (s.name, ·) : List Action → List Action) = id := rfl
    rw [hfst, List.map_id] at ho
    rw [workOf_map, List.map_map] at hnb
    have hw : Worked r.settings ((r.batchesOf (s, pl)).map (s.name, ·)) p ms p' :=
      (hb.worked hnb ho.1 hk).of_enter rfl rfl rfl
    have hknown := hw.known hk
    rw [workOf_map, List.map_map] at hknown
    exact hw.append (ih hnrest ho.2 hknown) hall

end

/-! ### Whole runs -/

theorem Levels.level?_append_of_not_mem {ls ls' : Levels} {d : String}
    (h : d ∉ ls.map (·.1)) : level? (ls ++ ls') d = level? ls' d := by
  have hnone : ls.find? (·.1 == d) = none := by
    rw [List.find?_eq_none]
    intro e he heq
    rw [beq_iff_eq] at heq
    exact h (heq ▸ List.mem_map_of_mem he)
  simp [level?, List.find?_append, hnone]

/-- What a report owes to the stages it is about. -/
structure Accounted (settings : Settings) (prior : Levels) (raised : Bool) (stages : List Stage)
    (ms : List Moment) (report : Report) : Prop where
  entries : report.entries = recordedIn ms
  /-- One entry for each action, under its own stage and id, and no others. -/
  complete : (report.entries.map ReportEntry.name).Perm (namesOf (workIn stages))
  distinct : (report.entries.map (·.action)).Nodup
  handled : ∀ w ∈ workIn stages,
    ∃ e ∈ report.entries, Handled settings prior raised w.1 w.2 ms e
  strangers : ∀ id ∉ (workIn stages).map (·.2.id), runsOf id ms = []
  /-- A level that is there at any moment is there in the end. -/
  final : ∀ before after d l, ms = before ++ after →
    (levelsAfter prior before).level? d = some l → (levelsAfter prior ms).level? d = some l

theorem workIn_ids (stages : List Stage) :
    (workIn stages).map (·.2.id) = (stages.map Stage.jobs).flatMap JobStage.ids := by
  simp [workIn, List.map_flatMap, List.flatMap_map, Function.comp_def]

/-- The report of a run is complete, whatever the order of the run, and in plan order where
actions run one at a time. -/
theorem Runner.runs_accounted (settings : Settings) (stamp : Stamp) (prior : Levels)
    (stages : List Stage) (s : Session) {plans : List StagePlan}
    (h : plan (stages.map Stage.jobs) (prior.map (·.1)) = .ok plans) :
    (∃ ms, (ofSettings settings).Runs stamp prior (stages.zip plans) s ms
      ((ofSettings settings).run stamp prior stages s)) ∧
    ∀ ms e, (ofSettings settings).Runs stamp prior (stages.zip plans) s ms e →
      ∃ report, e.report = .ok report ∧
        Accounted settings prior s.host.interrupted stages ms report ∧
        (settings.parallel = false →
          report.entries.map ReportEntry.name = namesOf (plannedWork (stages.zip plans))) := by
  refine ⟨(ofSettings settings).exists_runs stamp prior s h, ?_⟩
  rintro ms e ⟨p, hruns, rfl⟩
  obtain ⟨hdistinct, hnew, hplanned⟩ := plan_ok h
  rw [← workIn_ids] at hdistinct hnew
  have hperm : (workOf ((ofSettings settings).schedule (stages.zip plans))).Perm
      (workIn stages) := work_schedule_perm hplanned
  have hwork : Worked settings ((ofSettings settings).schedule (stages.zip plans)) _ ms p :=
    hruns.worked ((hperm.map (·.2.id)).nodup_iff.mpr hdistinct) (schedule_inOrder hplanned)
      fun d hd => Levels.exists_level?_iff.mpr hd
  have hnames : ((recordedIn ms).map ReportEntry.name).Perm (namesOf (workIn stages)) :=
    hwork.names.trans (hperm.map _)
  have hids : ((recordedIn ms).map (·.action)).Perm ((workIn stages).map (·.2.id)) := by
    rw [← name_snd, ← namesOf_snd]
    exact hnames.map (·.2)
  have hentries : p.entries = recordedIn ms := hwork.entries
  refine ⟨_, rfl, ⟨hentries, ?_, ?_, ?_, ?_, ?_⟩, ?_⟩
  · rw [← hentries] at hnames
    exact hnames
  · rw [← hentries] at hids
    exact hids.nodup_iff.mpr hdistinct
  · intro w hw
    obtain ⟨e, he⟩ := hwork.handled w (hperm.mem_iff.mpr hw)
    refine ⟨e, ?_, he⟩
    rw [show e ∈ _ ↔ e ∈ recordedIn ms from hentries ▸ Iff.rfl]
    exact he.mem_recorded
  · intro id hid
    apply hwork.strangers
    rw [(hperm.map (·.2.id)).mem_iff]
    exact hid
  · intro before after d l hsplit hl
    have hd := Levels.exists_level?_iff.mp ⟨l, hl⟩
    rw [levelsAfter_keys, List.mem_append, List.mem_reverse] at hd
    have hlater : d ∉ (recordedIn after).map (·.action) := by
      intro hin
      rcases hd with hd | hd
      · have hn := hids.nodup_iff.mpr hdistinct
        rw [hsplit, recordedIn_append, List.map_append] at hn
        exact List.disjoint_of_nodup_append hn hd hin
      · refine hnew d (hids.mem_iff.mp ?_) hd
        rw [hsplit, recordedIn_append, List.map_append]
        exact List.mem_append_right _ hin
    rw [hsplit, levelsAfter_append, levelsAfter, Levels.level?_append_of_not_mem]
    · exact hl
    · simpa using hlater
  · intro hp
    have hsingle := hwork.single fun b hb => length_le_of_mem_schedule hp hb
    rw [work_schedule_single hp, ← hentries] at hsingle
    exact hsingle

/-- A check that panics, and an action that depends on it from a later stage: the check was run and
the panic is its result, and the action is skipped because of it and was never run. -/
theorem runs_accounted_across_stages :
    let check : Action := { id := "check", run := fun _ => .panic none }
    let change : Action := { id := "change", dependencies := ["check"], run := fun _ => pure () }
    let stages : List Stage := [⟨"first", [check]⟩, ⟨"second", [change]⟩]
    let plans : List StagePlan := [⟨"first", [0], [0]⟩, ⟨"second", [0], [0]⟩]
    let e := (Runner.ofSettings {}).run { run := "r" } [] stages {}
    plan (stages.map Stage.jobs) [] = .ok plans ∧
      ∃ ms report, (Runner.ofSettings {}).Runs { run := "r" } [] (stages.zip plans) {} ms e ∧
        e.report = .ok report ∧
        report.entries =
          [{ action := "check", stage := "first",
             result := unexpectedError "unknown panic payload" },
           { action := "change", stage := "second", result := skippedResult ["check"] }] ∧
        (∃ t, runsOf "check" ms = [t]) ∧ runsOf "change" ms = [] := by
  intro check change stages plans e
  have hplan : plan (stages.map Stage.jobs) [] = .ok plans := rfl
  obtain ⟨⟨ms, hruns⟩, hall⟩ := Runner.runs_accounted {} { run := "r" } [] stages {} hplan
  obtain ⟨report, hr, haccount, -⟩ := hall ms e hruns
  have hentries : report.entries =
      [{ action := "check", stage := "first",
         result := unexpectedError "unknown panic payload" },
       { action := "change", stage := "second", result := skippedResult ["check"] }] := by
    cases hr
    rfl
  refine ⟨hplan, ms, report, hruns, hr, hentries, ?_, ?_⟩
  · obtain ⟨entry, he, hhandled⟩ := haccount.handled ("first", check) List.mem_cons_self
    have hresult : entry.result ≠ interruptedResult := by
      rw [hentries] at he
      rcases List.mem_pair.mp he with rfl | rfl <;> decide
    cases hhandled with
    | interrupted _ _ _ heq _ => exact absurd (congrArg ReportEntry.result heq) hresult
    | skipped _ _ hds hne _ _ _ => exact absurd hds hne
    | ran _ _ _ hran _ _ _ _ => exact ⟨_, hran⟩
  · obtain ⟨entry, he, hhandled⟩ := haccount.handled ("second", change)
      (List.mem_cons_of_mem _ List.mem_cons_self)
    have hskip : entry.result.level = .skip := by
      rw [hentries] at he
      rcases List.mem_pair.mp he with rfl | rfl
      · exact absurd hhandled.action_eq (by decide)
      · rfl
    cases hhandled with
    | interrupted _ _ hnone _ _ => exact hnone
    | skipped _ _ _ _ hnone _ _ => exact hnone
    | ran _ _ _ _ _ hend heq _ =>
      rw [heq] at hskip
      exact absurd hskip hend.level_ne_skip

end Changeover
