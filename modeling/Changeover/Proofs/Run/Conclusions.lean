import Changeover.Proofs.Run.Complete

/-!
# What a finished run has recorded

The books of a whole run over planned stages. Levels are looked up while the run goes on, each at
the turn of an action; they say the same as the entries at the end, so that who was held back, and
by whom, can be read off the report.
-/

namespace Changeover

/-- The level at which an action ended, in this run or before it. -/
inductive EndedAt (prior : Levels) (es : List ReportEntry) (d : String) : Level → Prop
  | here {e : ReportEntry} : e ∈ es → e.action = d → EndedAt prior es d e.result.level
  | before {l : Level} : prior.level? d = some l → EndedAt prior es d l

structure Concluded (settings : Settings) (prior : Levels) (raised : Bool) (stages : List Stage)
    (ms : List Moment) (e : RunEnd) (report : Report) : Prop where
  ended : e.report = .ok report
  allow : report.allowOverridable = settings.allowOverridable
  entries : report.entries = recordedIn ms
  names : (report.entries.map ReportEntry.name).Perm (namesOf (workIn stages))
  distinct : (report.entries.map (·.action)).Nodup
  fresh : ∀ entry ∈ report.entries, entry.action ∉ prior.map (·.1)
  interrupted : e.session.host.interrupted = raisedBy settings raised ms
  handled : ∀ w ∈ workIn stages,
    ∃ entry ∈ report.entries, Handled settings prior raised w.1 w.2 ms entry
  strangers : ∀ id ∉ (workIn stages).map (·.2.id), runsOf id ms = []

theorem Runner.schedule_distinct {settings : Settings} {stages : List Stage} {done : List String}
    {plans : List StagePlan} (h : plan (stages.map Stage.jobs) done = .ok plans) :
    ((workOf ((ofSettings settings).schedule (stages.zip plans))).map (·.2.id)).Nodup := by
  obtain ⟨hdistinct, -, hplanned⟩ := plan_ok h
  rw [← workIn_ids] at hdistinct
  exact ((work_schedule_perm hplanned).map (·.2.id)).nodup_iff.mpr hdistinct

theorem Runner.Runs.worked {settings : Settings} {stamp : Stamp} {prior : Levels}
    {stages : List Stage} {plans : List StagePlan} {s : Session} {ms : List Moment} {e : RunEnd}
    (hplan : plan (stages.map Stage.jobs) (prior.map (·.1)) = .ok plans)
    (h : (ofSettings settings).Runs stamp prior (stages.zip plans) s ms e) :
    ∃ p, e = (ofSettings settings).close stamp p ∧
      Worked settings ((ofSettings settings).schedule (stages.zip plans))
        (.start stamp.run prior s) ms p := by
  obtain ⟨p, hruns, rfl⟩ := h
  obtain ⟨-, -, hplanned⟩ := plan_ok hplan
  exact ⟨p, rfl, hruns.worked (schedule_distinct hplan) (schedule_inOrder hplanned)
    fun d hd => Levels.exists_level?_iff.mpr hd⟩

theorem Runner.Runs.names_eq {settings : Settings} {stamp : Stamp} {prior : Levels}
    {stages : List Stage} {plans : List StagePlan} {s : Session} {ms : List Moment} {e : RunEnd}
    {report : Report} (hplan : plan (stages.map Stage.jobs) (prior.map (·.1)) = .ok plans)
    (h : (ofSettings settings).Runs stamp prior (stages.zip plans) s ms e)
    (hr : e.report = .ok report) (hp : settings.parallel = false) :
    report.entries.map ReportEntry.name = namesOf (plannedWork (stages.zip plans)) := by
  obtain ⟨p, rfl, hworked⟩ := h.worked hplan
  cases hr
  have hentries : p.entries = recordedIn ms := hworked.entries
  have hsingle := hworked.single fun b hb => length_le_of_mem_schedule hp hb
  rw [work_schedule_single hp, ← hentries] at hsingle
  exact hsingle

theorem Runner.Runs.concluded {settings : Settings} {stamp : Stamp} {prior : Levels}
    {stages : List Stage} {plans : List StagePlan} {s : Session} {ms : List Moment} {e : RunEnd}
    (hplan : plan (stages.map Stage.jobs) (prior.map (·.1)) = .ok plans)
    (h : (ofSettings settings).Runs stamp prior (stages.zip plans) s ms e) :
    ∃ report, Concluded settings prior s.host.interrupted stages ms e report := by
  obtain ⟨p, rfl, hworked⟩ := h.worked hplan
  obtain ⟨hdistinct, hnew, hplanned⟩ := plan_ok hplan
  rw [← workIn_ids] at hdistinct hnew
  have hperm : (workOf ((ofSettings settings).schedule (stages.zip plans))).Perm
      (workIn stages) := work_schedule_perm hplanned
  have hentries : p.entries = recordedIn ms := hworked.entries
  have hnames : ((recordedIn ms).map ReportEntry.name).Perm (namesOf (workIn stages)) :=
    hworked.names.trans (hperm.map _)
  have hactions := ids_perm_of_names hnames
  refine ⟨_, rfl, rfl, hentries, hentries ▸ hnames, ?_, ?_, hworked.raised, ?_, ?_⟩
  · exact hentries ▸ hactions.nodup_iff.mpr hdistinct
  · intro entry he
    apply hnew
    rw [← hactions.mem_iff, ← hentries]
    exact List.mem_map_of_mem he
  · intro w hw
    obtain ⟨entry, he⟩ := hworked.handled w (hperm.mem_iff.mpr hw)
    exact ⟨entry, hentries ▸ he.mem_recorded, he⟩
  · intro id hid
    apply hworked.strangers
    rw [(hperm.map (·.2.id)).mem_iff]
    exact hid

theorem Levels.level?_append (ls ls' : Levels) (d : String) :
    level? (ls ++ ls') d = (level? ls d).or (level? ls' d) := by
  unfold level?
  rw [List.find?_append, Option.map_or]

theorem Levels.mem_of_level? {ls : Levels} {d : String} {l : Level} (h : ls.level? d = some l) :
    (d, l) ∈ ls := by
  obtain ⟨e, he, rfl⟩ := Option.map_eq_some_iff.mp h
  have hd := List.find?_some he
  rw [beq_iff_eq] at hd
  exact hd ▸ List.mem_of_find?_eq_some he

namespace Concluded

variable {settings : Settings} {prior : Levels} {raised : Bool} {stages : List Stage}
  {ms before after : List Moment} {e : RunEnd} {report : Report} {entry : ReportEntry}
  {a : Action} {d : String} {l l' : Level}

theorem entry_handled (h : Concluded settings prior raised stages ms e report)
    (he : entry ∈ report.entries) :
    ∃ w ∈ workIn stages, Handled settings prior raised w.1 w.2 ms entry := by
  have hname := h.names.mem_iff.mp (List.mem_map_of_mem he)
  obtain ⟨w, hw, hweq⟩ := List.mem_map.mp hname
  obtain ⟨entry', he', hhandled⟩ := h.handled w hw
  have hsame : entry'.action = entry.action := hhandled.action_eq.trans (Prod.mk.inj hweq).2
  have heq := List.inj_on_of_nodup_map h.distinct he' he hsame
  exact ⟨w, hw, heq ▸ hhandled⟩

theorem endedAt_unique (h : Concluded settings prior raised stages ms e report)
    (hl : EndedAt prior report.entries d l) (hl' : EndedAt prior report.entries d l') :
    l = l' := by
  have hfresh {e' : ReportEntry} {k : Level} (he' : e' ∈ report.entries) :
      prior.level? e'.action ≠ some k := by
    intro hk
    exact h.fresh e' he' (Levels.exists_level?_iff.mp ⟨k, hk⟩)
  cases hl with
  | here he hd =>
    cases hl' with
    | here he' hd' =>
      rw [List.inj_on_of_nodup_map h.distinct he he' (hd.trans hd'.symm)]
    | before hp => exact absurd (hd ▸ hp) (hfresh he)
  | before hp =>
    cases hl' with
    | here he' hd' => exact absurd (hd' ▸ hp) (hfresh he')
    | before hp' => exact Option.some.inj (hp.symm.trans hp')

theorem endedAt_of_level? (h : Concluded settings prior raised stages ms e report)
    (hs : ms = before ++ after) (hl : (levelsAfter prior before).level? d = some l) :
    EndedAt prior report.entries d l := by
  rw [levelsAfter, Levels.level?_append, Option.or_eq_some_iff] at hl
  rcases hl with hl | ⟨-, hl⟩
  · have hm := Levels.mem_of_level? hl
    rw [List.mem_reverse] at hm
    obtain ⟨e', he', heq⟩ := List.mem_map.mp hm
    obtain ⟨hd, hlevel⟩ := Prod.mk.inj heq
    rw [← hlevel]
    refine .here ?_ hd
    rw [h.entries, hs, recordedIn_append]
    exact List.mem_append_left _ he'
  · exact .before hl

/-- At its turn an action is held back by those of its dependencies that end at a level which
blocks dependents. -/
theorem mem_blockers (h : Concluded settings prior raised stages ms e report)
    (ht : TurnIn prior a ms before after) :
    d ∈ blockers settings (levelsAfter prior before) a ↔ d ∈ a.dependencies ∧
      ∃ l, EndedAt prior report.entries d l ∧
        l.blocksDependents settings.allowOverridable = true := by
  rw [blockers, List.mem_filter, Option.any_eq_true]
  constructor
  · rintro ⟨hd, l, hl, hb⟩
    exact ⟨hd, l, h.endedAt_of_level? ht.split hl, hb⟩
  · rintro ⟨hd, l, hl, hb⟩
    obtain ⟨l', hl'⟩ := ht.known d hd
    have heq := h.endedAt_unique hl (h.endedAt_of_level? ht.split hl')
    exact ⟨hd, l', hl', heq ▸ hb⟩

end Concluded

end Changeover
