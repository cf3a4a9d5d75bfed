import Changeover.Proofs.Run.Narration
import Changeover.Proofs.Run.Skips

/-!
# The causes of a skip

An action is held back by those of its dependencies that block their dependents, and the event and
the diagnosis of its skip name them. Planning counts a dependency once, however often it is
declared, but a skip names a cause as often as the action does. So the causes are named once each
exactly if none of them is declared twice.
-/

namespace Changeover

/-! ### Lists in order of first occurrence -/

section

variable {α : Type} [BEq α] [LawfulBEq α] {l : List α}

theorem eraseDups_snoc (l : List α) (x : α) :
    (l ++ [x]).eraseDups = if x ∈ l then l.eraseDups else l.eraseDups ++ [x] := by
  rw [List.eraseDups_append]
  by_cases hx : x ∈ l
  · simp [List.removeAll, hx]
  · simp [List.removeAll, List.eraseDups_cons, hx]

theorem eraseDups_of_nodup (h : l.Nodup) : l.eraseDups = l := by
  induction l using List.reverseRecOn with
  | nil => rfl
  | append_singleton l x ih =>
    obtain ⟨hl, -, hx⟩ := List.nodup_append'.mp h
    rw [List.disjoint_singleton] at hx
    rw [eraseDups_snoc, if_neg hx, ih hl]

theorem eraseDups_filter_pairwise (p : α → Bool) (l : List α) :
    (l.filter p).eraseDups.Pairwise fun x y => l.idxOf x < l.idxOf y := by
  induction l using List.reverseRecOn with
  | nil => exact .nil
  | append_singleton l x ih =>
    have hold : (l.filter p).eraseDups.Pairwise
        fun y z => (l ++ [x]).idxOf y < (l ++ [x]).idxOf z := by
      refine ih.imp_of_mem ?_
      intro y z hy hz hlt
      have hin {w : α} (hw : w ∈ (l.filter p).eraseDups) : w ∈ l :=
        List.mem_of_mem_filter (List.mem_eraseDups.mp hw)
      rwa [List.idxOf_append_of_mem (hin hy), List.idxOf_append_of_mem (hin hz)]
    rw [List.filter_append]
    by_cases hp : p x = true
    · rw [List.filter_cons_of_pos hp, List.filter_nil, eraseDups_snoc]
      split
      · exact hold
      · -- a new element is first met behind all that are there
        rename_i hx
        have hnew : x ∉ l := fun hl => hx (List.mem_filter.mpr ⟨hl, hp⟩)
        refine List.pairwise_append.mpr ⟨hold, List.pairwise_singleton _ _, ?_⟩
        intro y hy z hz
        have hyl : y ∈ l := List.mem_of_mem_filter (List.mem_eraseDups.mp hy)
        rw [List.mem_singleton.mp hz, List.idxOf_append_of_mem hyl,
          List.idxOf_append_of_notMem hnew]
        have hlt := List.idxOf_lt_length_iff.mpr hyl
        omega
    · rw [List.filter_cons_of_neg hp, List.filter_nil, List.append_nil]
      exact hold

end

/-! ### Names in a sentence -/

/-- Names with commas between them, and `and` before the last. -/
inductive Sentence : List String → String → Prop
  | one (x : String) : Sentence [x] x
  | two (x y : String) : Sentence [x, y] (x ++ " and " ++ y)
  | more (x : String) {y z : String} {rest : List String} {text : String} :
    Sentence (y :: z :: rest) text → Sentence (x :: y :: z :: rest) (x ++ ", " ++ text)

theorem joinNames_cons (x y z : String) (rest : List String) :
    joinNames (x :: y :: z :: rest) = x ++ ", " ++ joinNames (y :: z :: rest) := by
  have hlast : (x :: y :: z :: rest).getLast? = (y :: z :: rest).getLast? := by
    rw [List.getLast?_cons_cons]
  obtain ⟨last, h⟩ : ∃ last, (y :: z :: rest).getLast? = some last :=
    ⟨_, List.getLast?_eq_some_getLast (List.cons_ne_nil _ _)⟩
  simp only [joinNames, hlast, h, List.length_cons, List.dropLast_cons_cons]
  simp [String.intercalate_cons_cons, String.append_assoc]

theorem sentence_joinNames : {names : List String} → names ≠ [] →
    Sentence names (joinNames names)
  | [], h => absurd rfl h
  | [x], _ => .one x
  | [x, y], _ => .two x y
  | x :: y :: z :: rest, _ => by
    rw [joinNames_cons]
    exact .more x (sentence_joinNames (List.cons_ne_nil _ _))

/-! ### The causes -/

/-- The dependencies that hold an action back: each once, none besides, and in the order in which
the action first declares them. -/
structure CausesOf (settings : Settings) (prior : Levels) (es : List ReportEntry) (a : Action)
    (causes : List String) : Prop where
  once : causes.Nodup
  exact : ∀ d, d ∈ causes ↔ d ∈ a.dependencies ∧
    ∃ l, EndedAt prior es d l ∧ l.blocksDependents settings.allowOverridable = true
  declared : causes.Pairwise fun d d' => a.dependencies.idxOf d < a.dependencies.idxOf d'

section

variable {settings : Settings} {stamp : Stamp} {prior : Levels} {raised : Bool}
  {stages : List Stage} {plans : List StagePlan} {s : Session} {ms before after : List Moment}
  {e : RunEnd} {report : Report} {entry : ReportEntry} {a : Action}

theorem Concluded.causesOf (h : Concluded settings prior raised stages ms e report)
    (ht : TurnIn prior a ms before after) :
    CausesOf settings prior report.entries a
      (blockers settings (levelsAfter prior before) a).eraseDups := by
  have hordered : (blockers settings (levelsAfter prior before) a).eraseDups.Pairwise
      fun d d' => a.dependencies.idxOf d < a.dependencies.idxOf d' :=
    eraseDups_filter_pairwise _ a.dependencies
  refine ⟨hordered.imp ?_, ?_, hordered⟩
  · intro d d' hlt heq
    rw [heq] at hlt
    exact lt_irrefl _ hlt
  · intro d
    rw [List.mem_eraseDups]
    exact h.mem_blockers ht

/-- What holds an action back is what is left of its dependencies without all that is no cause. -/
theorem blockers_eq_filter (settings : Settings) (levels : Levels) (a : Action) :
    blockers settings levels a =
      a.dependencies.filter (· ∈ (blockers settings levels a).eraseDups) := by
  unfold blockers
  apply List.filter_congr
  intro d hd
  simp only [List.mem_eraseDups, List.mem_filter, hd, true_and, Bool.decide_eq_true]

theorem blockers_eq_causes_iff (settings : Settings) (levels : Levels) (a : Action) :
    blockers settings levels a = (blockers settings levels a).eraseDups ↔
      ∀ d ∈ (blockers settings levels a).eraseDups, a.dependencies.count d = 1 := by
  have hcount : ∀ d ∈ blockers settings levels a,
      (blockers settings levels a).count d = a.dependencies.count d := by
    intro d hd
    exact List.count_filter (List.mem_filter.mp hd).2
  constructor
  · intro h d hd
    have hmem := List.mem_eraseDups.mp hd
    have hnodup : (blockers settings levels a).Nodup := by
      have hpairs : (blockers settings levels a).eraseDups.Pairwise
          fun d d' => a.dependencies.idxOf d < a.dependencies.idxOf d' :=
        eraseDups_filter_pairwise _ a.dependencies
      rw [← h] at hpairs
      exact hpairs.imp fun hlt heq => (heq ▸ hlt).false
    rw [← hcount d hmem]
    exact List.nodup_iff_count_eq_one.mp hnodup d hmem
  · intro h
    refine (eraseDups_of_nodup (List.nodup_iff_count_eq_one.mpr ?_)).symm
    intro d hd
    rw [hcount d hd]
    exact h d (List.mem_eraseDups.mpr hd)

theorem Runner.Runs.heldBack (hplan : plan (stages.map Stage.jobs) (prior.map (·.1)) = .ok plans)
    (h : (ofSettings settings).Runs stamp prior (stages.zip plans) s ms e) {w : String × Action}
    (hw : w ∈ workIn stages) {ds : List String}
    (hds : .actionSkipped stamp.run w.2.id ds ∈ e.events) :
    ∃ before after, TurnIn prior w.2 ms before after ∧
      ds = blockers settings (levelsAfter prior before) w.2 := by
  obtain ⟨report, hc⟩ := h.concluded hplan
  obtain ⟨p, evs, rfl, -, htold⟩ := h.told hplan
  obtain ⟨-, -, hplanned⟩ := plan_ok hplan
  have hp : p.events = .started stamp.run :: evs := htold.events
  have hin : .actionSkipped stamp.run w.2.id ds ∈ evs := by
    rw [close, hp] at hds
    simpa using hds
  obtain ⟨a, ha, hid, before, after, hturn, hblockers⟩ := htold.skipped w.2.id ds hin
  have hwork : ((workOf ((ofSettings settings).schedule (stages.zip plans))).map (·.2)).Perm
      ((workIn stages).map (·.2)) := (work_schedule_perm hplanned).map _
  obtain ⟨w', hw', rfl⟩ := List.mem_map.mp (hwork.mem_iff.mp ha)
  obtain rfl := List.inj_on_of_nodup_map hc.distinct_work hw' hw hid
  exact ⟨before, after, hturn, hblockers⟩

end

theorem exists_outcome {es : List ReportEntry} {outcomes : List (String × Result)}
    (h : es.map (fun entry => (entry.action, entry.result)) = outcomes) {x : String} {r : Result}
    (hx : (x, r) ∈ outcomes) : ∃ entry ∈ es, entry.action = x ∧ entry.result = r := by
  rw [← h] at hx
  obtain ⟨entry, he, heq⟩ := List.mem_map.mp hx
  exact ⟨entry, he, Prod.mk.inj heq⟩

/-- The event and the diagnosis of a skip name the causes as the action declares them, a repeated
one again; so they name each once exactly if none is repeated. -/
theorem Runner.skip_names_causes (settings : Settings) (stamp : Stamp) (prior : Levels)
    (stages : List Stage) (s : Session) {plans : List StagePlan}
    (h : plan (stages.map Stage.jobs) (prior.map (·.1)) = .ok plans) :
    (∃ ms, (ofSettings settings).Runs stamp prior (stages.zip plans) s ms
      ((ofSettings settings).run stamp prior stages s)) ∧
    ∀ ms e, (ofSettings settings).Runs stamp prior (stages.zip plans) s ms e →
      ∃ report, e.report = .ok report ∧
        (report.entries.map ReportEntry.name).Perm (namesOf (workIn stages)) ∧
        ∀ w ∈ workIn stages, ∀ entry ∈ report.entries, entry.action = w.2.id →
          entry.result.level = .skip →
          ∃ causes named text, CausesOf settings prior report.entries w.2 causes ∧
            causes ≠ [] ∧ named = w.2.dependencies.filter (· ∈ causes) ∧
            eventsAbout w.2.id e.events = [.actionSkipped stamp.run w.2.id named] ∧
            Sentence named text ∧
            entry.result.finding.diagnosis = "Skipped because " ++ text ++
              (if named.length = 1 then " was" else " were") ++ " not successful" ∧
            (named = causes ↔ ∀ d ∈ causes, w.2.dependencies.count d = 1) := by
  refine ⟨(ofSettings settings).exists_runs stamp prior s h, ?_⟩
  intro ms e hruns
  obtain ⟨report, hc⟩ := hruns.concluded h
  obtain ⟨report', hreport', hnarrated⟩ := hruns.narrated h
  obtain rfl : report' = report := Except.ok.inj (hreport'.symm.trans hc.ended)
  refine ⟨report', hc.ended, hc.names, ?_⟩
  intro w hw entry he hid hskip
  have htraced := hnarrated.traced entry he
  generalize hevs : eventsAbout entry.action e.events = evs at htraced
  cases htraced with
  | interrupted hr _ =>
    rw [hr] at hskip
    cases hskip
  | ran hne _ => exact absurd hskip hne
  | @skipped ds hr _ =>
    rw [hid] at hevs
    have hmem : .actionSkipped stamp.run w.2.id ds ∈ e.events :=
      mem_of_mem_eventsAbout (hevs ▸ List.mem_singleton_self _)
    obtain ⟨before, after, hturn, rfl⟩ := hruns.heldBack h hw hmem
    -- a skip has a cause, as the action would have started without one
    have hne : blockers settings (levelsAfter prior before) w.2 ≠ [] := by
      obtain ⟨d, l, hdep, hl, hb⟩ := hc.exists_blocker he hskip
      rw [hid] at hdep
      have hd := (hc.mem_blockers hturn).mpr ⟨hdep.mem hc.distinct_work hw, l, hl, hb⟩
      exact List.ne_nil_of_mem hd
    refine ⟨_, _, _, hc.causesOf hturn, ?_, blockers_eq_filter _ _ _, hevs,
      sentence_joinNames hne, ?_, blockers_eq_causes_iff _ _ _⟩
    · obtain ⟨d, hd⟩ := List.exists_mem_of_ne_nil _ hne
      exact List.ne_nil_of_mem (List.mem_eraseDups.mpr hd)
    · rw [hr]
      rfl

/-- A change that depends on an action skipped before the run, on one that ends well and on one that
fails: the first and the last are its causes. -/
theorem Runner.skip_names_causes_old :
    let check : Action := { id := "check", run := fun _ => .panic none }
    let fine : Action := { id := "fine", run := fun _ => pure () }
    let change : Action :=
      { id := "change", dependencies := ["old", "fine", "check"], run := fun _ => pure () }
    let stages : List Stage := [⟨"checks", [check, fine]⟩, ⟨"changes", [change]⟩]
    let e := (Runner.ofSettings {}).run { run := "r" } [("old", .skip)] stages {}
    plan (stages.map Stage.jobs) ["old"] =
        .ok [⟨"checks", [0, 1], [0, 0]⟩, ⟨"changes", [0], [0]⟩] ∧
      ∃ report, e.report = .ok report ∧
        CausesOf {} [("old", .skip)] report.entries change ["old", "check"] ∧
        eventsAbout "change" e.events = [.actionSkipped "r" "change" ["old", "check"]] ∧
        ∃ entry ∈ report.entries, entry.action = "change" ∧
          entry.result.finding.diagnosis =
            "Skipped because old and check were not successful" := by
  intro check fine change stages e
  have hplan : plan (stages.map Stage.jobs) ["old"] =
      .ok [⟨"checks", [0, 1], [0, 0]⟩, ⟨"changes", [0], [0]⟩] := rfl
  obtain ⟨⟨ms, hruns⟩, hall⟩ :=
    Runner.skip_names_causes {} { run := "r" } [("old", .skip)] stages {} hplan
  obtain ⟨report, hreport, -, hskips⟩ := hall ms e hruns
  have hentries : report.entries.map (fun entry => (entry.action, entry.result)) =
      [("check", unexpectedError "unknown panic payload"), ("fine", .success),
        ("change", skippedResult ["old", "check"])] := by
    cases hreport
    rfl
  obtain ⟨entry, he, hid, hresult⟩ := exists_outcome hentries (x := "change")
    (r := skippedResult ["old", "check"]) (by simp)
  have hskip : entry.result.level = .skip := by
    rw [hresult]
    rfl
  obtain ⟨causes, named, -, hcauses, -, -, hevents, -, -, honce⟩ :=
    hskips ("changes", change) (by simp [workIn, stages]) entry he hid hskip
  have htold : eventsAbout "change" e.events = [.actionSkipped "r" "change" ["old", "check"]] := by
    decide +kernel
  have hnamed : ["old", "check"] = named :=
    (Event.actionSkipped.inj (List.singleton_inj.mp (htold.symm.trans hevents))).2.2
  have hdistinct : change.dependencies.Nodup := by decide
  have hsame : named = causes := honce.mpr fun d hd =>
    List.nodup_iff_count_eq_one.mp hdistinct d ((hcauses.exact d).mp hd).1
  refine ⟨hplan, report, hreport, ?_, htold, entry, he, hid, ?_⟩
  · rw [hnamed, hsame]
    exact hcauses
  · rw [hresult]
    decide

/-- A change that declares the same failing check twice is held back by the check and the check. -/
theorem Runner.skip_repeats_cause :
    let check : Action := { id := "check", run := fun _ => .panic none }
    let change : Action :=
      { id := "change", dependencies := ["check", "check"], run := fun _ => pure () }
    let stages : List Stage := [⟨"checks", [check]⟩, ⟨"changes", [change]⟩]
    let e := (Runner.ofSettings {}).run { run := "r" } [] stages {}
    plan (stages.map Stage.jobs) [] = .ok [⟨"checks", [0], [0]⟩, ⟨"changes", [0], [0]⟩] ∧
      ∃ report entry, e.report = .ok report ∧ entry ∈ report.entries ∧
        entry.action = "change" ∧ entry.result.level = .skip ∧
        .actionSkipped "r" "change" ["check", "check"] ∈ e.events ∧
        ¬ ["check", "check"].Nodup ∧
        entry.result.finding.diagnosis =
          "Skipped because check and check were not successful" := by
  intro check change stages e
  obtain ⟨report, hreport⟩ : ∃ report, e.report = .ok report := ⟨_, rfl⟩
  have hentries : report.entries.map (fun entry => (entry.action, entry.result)) =
      [("check", unexpectedError "unknown panic payload"),
        ("change", skippedResult ["check", "check"])] := by
    cases hreport
    rfl
  obtain ⟨entry, he, hid, hresult⟩ := exists_outcome hentries (x := "change")
    (r := skippedResult ["check", "check"]) (by simp)
  refine ⟨rfl, report, entry, hreport, he, hid, ?_, by decide +kernel, by decide, ?_⟩
  · rw [hresult]
    rfl
  · rw [hresult]
    decide

end Changeover
