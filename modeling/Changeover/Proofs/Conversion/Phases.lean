import Changeover.Proofs.Conversion.Endings
import Changeover.Proofs.Conversion.Runs
import Changeover.Proofs.Run.StackUses

/-!
# The phases of a conversion

A conversion that comes to an outcome has either rolled back or committed. What is said of the two
cases holds however the actions use the undo stack, whenever an interrupt is raised and whatever the
operator answers.
-/

namespace Changeover

def Session.unwinding (s : Session) : UndoRun Change Host :=
  (UndoRun.watch s.undo s.host).step .popAll

theorem Session.plain_unwinding (s : Session) : s.unwinding.plain = (s.undo.popAll s.host).2 := by
  unfold unwinding
  rw [UndoRun.plain_step, UndoRun.plain_watch]
  rfl

def Session.committing (s : Session) : UndoRun Change Host :=
  (UndoRun.watch s.undo s.host).step .commit

theorem Session.plain_committing (s : Session) :
    s.committing.plain = (s.undo.commit.2, s.host) := by
  unfold committing
  rw [UndoRun.plain_step, UndoRun.plain_watch]
  rfl

namespace Conversion

section

variable (site : Site) (mode : Mode) (answer : Answer)

/-- A conversion that has rolled back after its first run. -/
structure RolledBack (before : List Stage) (ms : List Moment) (first : RunEnd) (report : Report)
    (e : ConversionEnd) (o : Outcome) : Prop where
  flags : o.rolledBack = true ∧ o.committed = false
  only_before : ∀ a t, .ran a t ∈ ms → a ∈ before.flatMap (·.actions)
  asked : e.asked = true ↔ mode = .convert ∧ first.Clear report
  declined : e.asked = true → answer.accepts = false
  /-- Histories are latest first: the change pushed first is restored last. -/
  restored : restoredIn (first.session.heard e.asked answer).unwinding.world.history =
    List.range first.session.undo.size
  undo : e.session.undo = (first.session.heard e.asked answer).unwinding.undo.forget
  host : e.session.host =
    let h := (first.session.heard e.asked answer).unwinding.world.world
    { h with files := (writeAll (reportTexts site .before o.report) h.files).2 }
  emptied : e.session.undo.entries = []
  failures : o.rollbackFailures = e.session.undo.failures
  inhibited : o.status = .inhibitorsFound ↔
    first.session.host.interrupted = false ∧ report.isBlocking = true ∧ o.rollbackFailures = []
  successful : o.status = .successful ↔
    mode = .analyze ∧ first.Clear report ∧ o.rollbackFailures = []
  entries : o.report.entries = report.entries ++ rollbackEntries o.rollbackFailures

/-- A conversion that has committed after its first run and made a second one. -/
structure Committed (before after : List Stage) (ms ns : List Moment) (first last : RunEnd)
    (report later : Report) (e : ConversionEnd) (o : Outcome) : Prop where
  flags : o.rolledBack = false ∧ o.committed = true
  asked : e.asked = true
  accepted : mode = .convert ∧ answer.accepts = true ∧ first.Clear report
  only_before : ∀ a t, .ran a t ∈ ms → a ∈ before.flatMap (·.actions)
  only_after : ∀ a t, .ran a t ∈ ns → a ∈ after.flatMap (·.actions)
  /-- What goes on from the commit is the same whatever was on the stack. -/
  forgotten : ∀ es, course site mode answer { first with session := { first.session with
      undo := { first.session.undo with entries := es } } } =
    .goOn report ⟨(first.session.heard true answer).host, ⟨[], first.session.undo.failures⟩⟩
  /-- From the commit on the stack is used like any other; the numbers of the committed changes
  are those below the size of the stack. -/
  never_restored : (∀ a ∈ after.flatMap (·.actions), a.UsesStack) →
    ∃ uses : List (StackUse Change Host),
      let w := uses.foldl UndoRun.use (first.session.heard true answer).committing
      w.plain = (last.session.undo, last.session.host) ∧
        ∀ n ∈ restoredIn w.world.history, first.session.undo.size ≤ n
  undo : e.session.undo = last.session.undo
  host : e.session.host = { last.session.host with
    files := (writeAll (reportTexts site .after o.report) last.session.host.files).2 }
  failures : o.rollbackFailures = e.session.undo.failures
  inhibited : o.status ≠ .inhibitorsFound
  successful : o.status = .successful ↔ last.Clear later
  entries : o.report.entries =
    report.entries ++ later.entries ++ rollbackEntries o.rollbackFailures

end

variable {site : Site} {r : Runner} {stamps : Stamps} {mode : Mode} {answer : Answer}
  {before after : List Stage} {s : Session} {ms ns : List Moment} {first last : RunEnd}
  {report later : Report} {e : ConversionEnd} {o : Outcome}

theorem RolledBack.failure_iff (h : RolledBack site mode answer before ms first report e o) :
    o.status = .failure ↔
      ¬ (mode = .analyze ∧ first.Clear report ∧ o.rollbackFailures = []) ∧
      ¬ (first.session.host.interrupted = false ∧ report.isBlocking = true ∧
        o.rollbackFailures = []) := by
  rw [Status.eq_failure_iff, Ne, Ne, h.successful, h.inhibited]

theorem Committed.failure_iff
    (h : Committed site mode answer before after ms ns first last report later e o) :
    o.status = .failure ↔ ¬ last.Clear later := by
  rw [Status.eq_failure_iff, Ne, h.successful]
  exact and_iff_left h.inhibited

theorem undone_eq (s : Session) :
    undone s = ⟨s.unwinding.world.world, s.unwinding.undo.forget⟩ := by
  have hplain := s.plain_unwinding
  unfold undone
  rw [← hplain]
  rfl

theorem rolledBack_of_giveUp {clean : Status} {asked : Bool}
    (hgoes : r.Goes stamps.before [] before s ms first)
    (hwhy : GivesUp mode answer first report clean asked)
    (he : e = giveUp site clean asked first.events report (first.session.heard asked answer))
    (ho : e.outcome = .ok o) : RolledBack site mode answer before ms first report e o := by
  obtain ⟨hsame, hstatus, hfinished⟩ := giveUp_finished he ho
  have hfailures := hfinished.failures
  constructor
  case flags => exact ⟨hfinished.rolledBack, hfinished.committed⟩
  case only_before => exact fun a t ha => hgoes.ran_mem ha
  case asked => rw [hsame, hwhy.asked_iff]
  case declined => exact fun ha => hwhy.declines (hsame ▸ ha)
  case restored => exact UndoRun.watch_popAll_restored _ _
  case undo => rw [hsame, hfinished.undo, undone_eq]
  case host => rw [hsame, hfinished.host, undone_eq]
  case emptied =>
    rw [hfinished.undo]
    exact UndoStack.popAll_entries _ _
  case failures => rw [hfailures, hfinished.undo]
  case inhibited =>
    rw [hstatus, statusAfter_eq_iff (by decide), hwhy.inhibitorsFound_iff, hfailures, and_assoc]
  case successful =>
    rw [hstatus, statusAfter_eq_iff (by decide), hwhy.successful_iff, hfailures, and_assoc]
  case entries =>
    rw [hfailures]
    exact hfinished.entries

theorem course_forgets (hc : first.Clear report) (hr : first.report = .ok report)
    (hm : mode = .convert) (ha : answer.accepts = true) (es : List (Entry Change)) :
    course site mode answer { first with session := { first.session with
      undo := { first.session.undo with entries := es } } } =
    .goOn report ⟨(first.session.heard true answer).host, ⟨[], first.session.undo.failures⟩⟩ := by
  subst hm
  simp [course, hr, hc.calm, hc.free, ha, Session.heard, UndoStack.commit]

/-- Watched from the commit on, no restore in the second run is of a change from before it. -/
theorem never_restored (hafter : ∀ a ∈ after.flatMap (·.actions), a.UsesStack) {s' : Session}
    (hgoes : r.Goes stamps.after (Levels.ofReports [report]) after
      { s' with undo := s'.undo.commit.2 } ns last) :
    ∃ uses : List (StackUse Change Host),
      let w := uses.foldl UndoRun.use s'.committing
      w.plain = (last.session.undo, last.session.host) ∧
        ∀ n ∈ restoredIn w.world.history, s'.undo.size ≤ n := by
  -- the uses are those of the plain run; the watched one makes the same
  obtain ⟨uses, huses⟩ := hgoes.lasting (UsedFrom.lasting hafter s'.undo.commit.2 s'.host)
    (UsedFrom.refl _ _)
  refine ⟨uses, ?_, ?_⟩
  · rw [UndoRun.plain_uses, s'.plain_committing]
    exact huses
  · exact ((UndoRun.watch_commit_since s'.undo s'.host).uses uses).restored

theorem committed_of_course {s' : Session} (hgoes : r.Goes stamps.before [] before s ms first)
    (hcourse : course site mode answer first = .goOn report s')
    (hlast : r.Goes stamps.after (Levels.ofReports [report]) after s' ns last)
    (he : e = arrive site first.events report last) (ho : e.outcome = .ok o) :
    ∃ later, last.report = .ok later ∧
      Committed site mode answer before after ms ns first last report later e o := by
  obtain ⟨hr, hc, hm, ha, rfl⟩ := goOn_of_course hcourse
  cases hl : last.report with
  | error err =>
    rw [arrive_of_error hl] at he
    subst he
    cases ho
  | ok later =>
    obtain ⟨hasked, hstatus, hfinished⟩ := arrive_finished hl he ho
    refine ⟨later, rfl, ?_⟩
    constructor
    case flags => exact ⟨hfinished.rolledBack, hfinished.committed⟩
    case asked => exact hasked
    case accepted => exact ⟨hm, ha, hc⟩
    case only_before => exact fun a t h => hgoes.ran_mem h
    case only_after => exact fun a t h => hlast.ran_mem h
    case forgotten => exact course_forgets hc hr hm ha
    case never_restored => exact fun h => never_restored h hlast
    case undo => exact hfinished.undo
    case host => exact hfinished.host
    case failures => rw [hfinished.failures, hfinished.undo]
    case inhibited =>
      rw [hstatus]
      split
      · decide
      · decide
    case successful =>
      rw [hstatus, RunEnd.clear_iff]
      cases later.isBlocking with
      | true => simp
      | false => cases last.session.host.interrupted <;> simp
    case entries =>
      rw [hfinished.failures]
      exact hfinished.entries

section

def keptStages : List Stage :=
  [⟨"before", [rehearsedAction "edit" [] [] [.push (.rehearsed { name := "kept" })]]⟩]

def draftStages : List Stage :=
  [⟨"after",
    [rehearsedAction "tidy" ["edit"] [] [.push (.rehearsed { name := "draft" }), .pop]]⟩]

def rehearsalStamps : Stamps := ⟨{ run := "first" }, { run := "second" }⟩

def keptRun : RunEnd := (Runner.ofSettings {}).run rehearsalStamps.before [] keptStages {}

def keptReport : Report := keptRun.report.toOption.getD default

def draftRun : RunEnd :=
  (Runner.ofSettings {}).run rehearsalStamps.after (Levels.ofReports [keptReport]) draftStages
    ⟨keptRun.session.host, ⟨[], []⟩⟩

theorem exists_keptAndDraft : ∃ ms e o,
    Goes { manager := .ledger {} } (.ofSettings {}) rehearsalStamps .convert ⟨true, false⟩
      keptStages draftStages {} ms e ∧
    e.outcome = .ok o ∧ o.status = .successful ∧ o.committed = true := by
  obtain ⟨ms, hfirst⟩ :=
    (Runner.ofSettings {}).exists_goes rehearsalStamps.before [] keptStages {}
  obtain ⟨ns, hlast⟩ := (Runner.ofSettings {}).exists_goes rehearsalStamps.after
    (Levels.ofReports [keptReport]) draftStages ⟨keptRun.session.host, ⟨[], []⟩⟩
  have hcourse : course { manager := .ledger {} } .convert ⟨true, false⟩ keptRun =
      .goOn keptReport ⟨keptRun.session.host, ⟨[], []⟩⟩ := rfl
  obtain ⟨later, hl, hb⟩ : ∃ later, draftRun.report = .ok later ∧
      (later.isBlocking || draftRun.session.host.interrupted) = false := ⟨_, rfl, rfl⟩
  have hgoes := Goes.goOn hfirst hcourse hlast
  obtain ⟨o, ho⟩ := arrive_of_ok hl
  obtain ⟨-, hstatus, hfinished⟩ := arrive_finished hl rfl ho
  refine ⟨_, _, o, hgoes, ho, ?_, hfinished.committed⟩
  rw [hstatus, hb]
  rfl

end

end Conversion

end Changeover
