import Changeover.Proofs.Run.Conversions

/-!
# What a conversion leaves

What giving up says about the first run and the operator, and what a rollback and the writing of the
reports leave at the end, once for all ways in which a conversion can end.
-/

namespace Changeover

theorem Status.eq_failure_iff {status : Status} :
    status = .failure ↔ status ≠ .successful ∧ status ≠ .inhibitorsFound := by
  cases status with
  | successful => decide
  | failure => decide
  | inhibitorsFound => decide

namespace Conversion

variable {site : Site} {mode : Mode} {answer : Answer} {first : RunEnd} {report : Report}
  {clean : Status} {asked : Bool}

namespace GivesUp

variable (h : GivesUp mode answer first report clean asked)
include h

theorem asked_iff : asked = true ↔ mode = .convert ∧ first.Clear report := by
  cases h with
  | interrupted hi => simp [RunEnd.clear_iff, hi]
  | blocked _ hb => simp [RunEnd.clear_iff, hb]
  | analyzed _ hm => simp [hm]
  | declined hc hm _ => simp [hc, hm]

theorem declines (hasked : asked = true) : answer.accepts = false := by
  cases h with
  | interrupted _ => cases hasked
  | blocked _ _ => cases hasked
  | analyzed _ _ => cases hasked
  | declined _ _ ha => exact ha

theorem inhibitorsFound_iff : clean = .inhibitorsFound ↔
    first.session.host.interrupted = false ∧ report.isBlocking = true := by
  cases h with
  | interrupted hi => simp [hi]
  | blocked hi hb => simp [hi, hb]
  | analyzed hc _ => simp [hc.free]
  | declined hc _ _ => simp [hc.free]

theorem successful_iff : clean = .successful ↔ mode = .analyze ∧ first.Clear report := by
  cases h with
  | interrupted hi => simp [RunEnd.clear_iff, hi]
  | blocked _ hb => simp [RunEnd.clear_iff, hb]
  | analyzed hc hm => simp [hc, hm]
  | declined _ hm _ => simp [hm]

end GivesUp

/-! ### What is left at the end -/

/-- The entry about failed restores, if there are any. -/
def rollbackEntries (failures : List String) : List ReportEntry :=
  if failures = [] then [] else [rollbackEntry failures]

def undone (s : Session) : Session := ⟨(s.undo.popAll s.host).2.2, (s.undo.popAll s.host).2.1⟩

/-- The status after a rollback: `clean` unless a restore went wrong. -/
def statusAfter (clean : Status) (s : Session) : Status :=
  if s.undo.rollbackFailed then .failure else clean

/-- What a conversion leaves that has come to its reports with the session `s`. -/
structure Finished (site : Site) (reach : Reach) (report : Report) (s : Session)
    (s' : Session) (o : Outcome) : Prop where
  rolledBack : o.rolledBack = decide (reach = .before)
  committed : o.committed = decide (reach = .after)
  failures : o.rollbackFailures = s.undo.failures
  entries : o.report.entries = report.entries ++ rollbackEntries s.undo.failures
  undo : s'.undo = s.undo
  host : s'.host =
    { s.host with files := (writeAll (reportTexts site reach o.report) s.host.files).2 }

theorem finish_status (site : Site) (status : Status) (reach : Reach) (report : Report)
    (s : Session) : (finish site status reach report s).1.status = status := by
  simp only [finish]

theorem finish_finished (site : Site) (status : Status) (reach : Reach) (report : Report)
    (s : Session) : Finished site reach report s (finish site status reach report s).2
      (finish site status reach report s).1 := by
  -- under a name of its own, the report is not printed to see what was written
  obtain ⟨written, hwritten⟩ : ∃ r, r =
    if s.undo.failures.isEmpty then report else report.push (rollbackEntry s.undo.failures) :=
    ⟨_, rfl⟩
  have hentries : written.entries = report.entries ++ rollbackEntries s.undo.failures := by
    rw [hwritten, rollbackEntries]
    cases s.undo.failures with
    | nil => exact (List.append_nil _).symm
    | cons f fs => rfl
  simp only [finish]
  rw [← hwritten]
  exact ⟨rfl, rfl, rfl, hentries, rfl, by dsimp only⟩

theorem giveUp_eq (site : Site) (clean : Status) (asked : Bool) (events : List Event)
    (report : Report) (s : Session) : giveUp site clean asked events report s =
      ⟨.ok (finish site (statusAfter clean (undone s)) .before report (undone s)).1, asked,
        events ++ (rollback report.run s).1,
        (finish site (statusAfter clean (undone s)) .before report (undone s)).2⟩ := by
  simp only [giveUp, rollback, undone, statusAfter]
  rfl

theorem giveUp_finished {events : List Event} {s : Session}
    {e : ConversionEnd} {o : Outcome} (he : e = giveUp site clean asked events report s)
    (ho : e.outcome = .ok o) :
    e.asked = asked ∧ o.status = statusAfter clean (undone s) ∧
      Finished site .before report (undone s) e.session o := by
  rw [giveUp_eq] at he
  subst he
  have ho := Except.ok.inj ho
  subst ho
  dsimp only
  exact ⟨rfl, finish_status .., finish_finished ..⟩

theorem statusAfter_eq_iff {status : Status} (hstatus : status ≠ .failure) (s : Session) :
    statusAfter clean s = status ↔ clean = status ∧ s.undo.failures = [] := by
  unfold statusAfter UndoStack.rollbackFailed
  cases s.undo.failures with
  | nil => simp
  | cons f fs => simpa using hstatus.symm

theorem arrive_of_error {events : List Event} {last : RunEnd} {err : PlanError}
    (h : last.report = .error err) : arrive site events report last =
      ⟨.error err, true, events ++ last.events, last.session⟩ := by
  rw [arrive, h]

theorem arrive_of_ok {events : List Event} {last : RunEnd} {later : Report}
    (h : last.report = .ok later) : ∃ o, (arrive site events report last).outcome = .ok o := by
  unfold arrive
  simp only [h]
  exact ⟨_, rfl⟩

theorem arrive_finished {events : List Event} {last : RunEnd} {later : Report}
    {e : ConversionEnd} {o : Outcome} (hlast : last.report = .ok later)
    (he : e = arrive site events report last) (ho : e.outcome = .ok o) :
    e.asked = true ∧
      o.status = (if later.isBlocking || last.session.host.interrupted then .failure
        else .successful) ∧
      Finished site .after (report.extend later) last.session e.session o := by
  unfold arrive at he
  simp only [hlast] at he
  subst he
  have ho := Except.ok.inj ho
  subst ho
  dsimp only
  exact ⟨rfl, finish_status .., finish_finished ..⟩

end Conversion

end Changeover
