import Changeover.Run
import Mathlib.Data.List.Basic

/-!
# Runs in any order

The actions of a batch that have started may run in any order, also while the turn of others is
still to come, and the operator may ask to stop at any moment. Outcomes are recorded in the order in
which the actions started, once no turn is left. What happens is kept as a list of moments, earliest
first. Running the actions of a batch one after the other is one of these runs.

The run of an action is one step, from the host and the undo stack it finds to those it leaves. So
what two actions of a batch push never interleaves, in whatever order they run, and an action sees
nothing of another one that is half done.
-/

namespace Changeover

inductive Moment where
  | raised
  /-- It is decided whether the action starts. -/
  | turn (a : Action)
  | ran (a : Action) (s : Session)
  | recorded (e : ReportEntry)

namespace Moment

def recorded? : Moment → Option ReportEntry
  | .recorded e => some e
  | _ => none

def runOf? (action : String) : Moment → Option Session
  | .ran a s => if a.id = action then some s else none
  | _ => none

/-- Whether an interrupt stands after this moment because of what happened in it or before. -/
def raises (settings : Settings) : Moment → Bool
  | .raised => true
  | .ran a s => (perform settings a s).2.host.interrupted
  | _ => false

end Moment

def recordedIn (ms : List Moment) : List ReportEntry := ms.filterMap Moment.recorded?

/-- The sessions on which an action was run. -/
def runsOf (action : String) (ms : List Moment) : List Session :=
  ms.filterMap (Moment.runOf? action)

/-- Levels once all that was recorded is added to those given before. -/
def levelsAfter (levels : Levels) (ms : List Moment) : Levels :=
  ((recordedIn ms).map fun e => (e.action, e.result.level)).reverse ++ levels

def raisedBy (settings : Settings) (raised : Bool) (ms : List Moment) : Bool :=
  raised || ms.any (Moment.raises settings)

@[simp] theorem recordedIn_append (ms ns : List Moment) :
    recordedIn (ms ++ ns) = recordedIn ms ++ recordedIn ns := List.filterMap_append

@[simp] theorem runsOf_append (action : String) (ms ns : List Moment) :
    runsOf action (ms ++ ns) = runsOf action ms ++ runsOf action ns := List.filterMap_append

section

variable (action : String) (a : Action) (s : Session) (e : ReportEntry) (ms : List Moment)

@[simp] theorem recordedIn_nil : recordedIn [] = [] := rfl

@[simp] theorem recordedIn_raised : recordedIn (.raised :: ms) = recordedIn ms := rfl

@[simp] theorem recordedIn_turn : recordedIn (.turn a :: ms) = recordedIn ms := rfl

@[simp] theorem recordedIn_ran : recordedIn (.ran a s :: ms) = recordedIn ms := rfl

@[simp] theorem recordedIn_recorded : recordedIn (.recorded e :: ms) = e :: recordedIn ms := rfl

@[simp] theorem runsOf_nil : runsOf action [] = [] := rfl

@[simp] theorem runsOf_raised : runsOf action (.raised :: ms) = runsOf action ms := rfl

@[simp] theorem runsOf_turn : runsOf action (.turn a :: ms) = runsOf action ms := rfl

@[simp] theorem runsOf_recorded : runsOf action (.recorded e :: ms) = runsOf action ms := rfl

theorem runsOf_ran :
    runsOf action (.ran a s :: ms) = (if a.id = action then [s] else []) ++ runsOf action ms := by
  unfold runsOf
  by_cases h : a.id = action
  · simp [Moment.runOf?, h]
  · simp [Moment.runOf?, h]

end

theorem levelsAfter_append (levels : Levels) (ms ns : List Moment) :
    levelsAfter levels (ms ++ ns) = levelsAfter (levelsAfter levels ms) ns := by
  simp [levelsAfter]

theorem raisedBy_append (settings : Settings) (raised : Bool) (ms ns : List Moment) :
    raisedBy settings raised (ms ++ ns) =
      raisedBy settings (raisedBy settings raised ms) ns := by
  simp [raisedBy, Bool.or_assoc]

/-! ### Steps -/

def Progress.raise (p : Progress) : Progress :=
  { p with session := { p.session with host := { p.session.host with interrupted := true } } }

/-- A batch under way: the actions whose turn has not come, and those that have started, in the
order in which they did, each with what came of it once it has run. -/
structure Underway where
  pending : List Action
  started : List (Action × Option Performed)
  progress : Progress

inductive BatchStep (settings : Settings) (run stage : String) :
    Underway → List Moment → Underway → Prop
  | raise {as : List Action} {ps : List (Action × Option Performed)} {p : Progress} :
    BatchStep settings run stage ⟨as, ps, p⟩ [.raised] ⟨as, ps, p.raise⟩
  | interrupted {a : Action} {as : List Action} {ps : List (Action × Option Performed)}
      {p : Progress} {e : ReportEntry} :
    decision settings p a = .interrupted →
    e = { action := a.id, stage, result := interruptedResult } →
    BatchStep settings run stage ⟨a :: as, ps, p⟩ [.turn a, .recorded e] ⟨as, ps, p.record e⟩
  | blocked {a : Action} {as : List Action} {ps : List (Action × Option Performed)}
      {p : Progress} {ds : List String} {e : ReportEntry} :
    decision settings p a = .blocked ds →
    e = { action := a.id, stage, result := skippedResult ds } →
    BatchStep settings run stage ⟨a :: as, ps, p⟩ [.turn a, .recorded e]
      ⟨as, ps, (p.emit (.actionSkipped run a.id ds)).record e⟩
  | start {a : Action} {as : List Action} {ps : List (Action × Option Performed)} {p : Progress} :
    decision settings p a = .start →
    BatchStep settings run stage ⟨a :: as, ps, p⟩ [.turn a]
      ⟨as, ps ++ [(a, none)], p.emit (.actionStarted run a.id)⟩
  | perform {a : Action} {as : List Action} {ps qs : List (Action × Option Performed)}
      {p : Progress} {d : Performed} {s : Session} :
    Changeover.perform settings a p.session = (d, s) →
    BatchStep settings run stage ⟨as, ps ++ (a, none) :: qs, p⟩ [.ran a p.session]
      ⟨as, ps ++ (a, some d) :: qs, { p with session := s }⟩
  | settle {a : Action} {ps : List (Action × Option Performed)} {p : Progress} {d : Performed} :
    BatchStep settings run stage ⟨[], (a, some d) :: ps, p⟩ [.recorded (d.entry stage)]
      ⟨[], ps, Changeover.settle run stage p d⟩

inductive BatchSteps (settings : Settings) (run stage : String) :
    Underway → List Moment → Underway → Prop
  | refl (b : Underway) : BatchSteps settings run stage b [] b
  | snoc {b b' b'' : Underway} {ms ns : List Moment} :
    BatchSteps settings run stage b ms b' → BatchStep settings run stage b' ns b'' →
    BatchSteps settings run stage b (ms ++ ns) b''

/-- A batch from the first turn to the last outcome. -/
def BatchRun (settings : Settings) (run stage : String) (batch : List Action) (p : Progress)
    (ms : List Moment) (p' : Progress) : Prop :=
  BatchSteps settings run stage ⟨batch, [], p⟩ ms ⟨[], [], p'⟩

inductive BatchRuns (settings : Settings) (run stage : String) :
    List (List Action) → Progress → List Moment → Progress → Prop
  | nil (p : Progress) : BatchRuns settings run stage [] p [] p
  | cons {b : List Action} {bs : List (List Action)} {p p' p'' : Progress} {ms ns : List Moment} :
    BatchRun settings run stage b p ms p' → BatchRuns settings run stage bs p' ns p'' →
    BatchRuns settings run stage (b :: bs) p (ms ++ ns) p''

namespace Runner

inductive StageRuns (r : Runner) (run : String) :
    List (Stage × StagePlan) → Progress → List Moment → Progress → Prop
  | nil (p : Progress) : StageRuns r run [] p [] p
  | raise {stages : List (Stage × StagePlan)} {p p' : Progress} {ms : List Moment} :
    StageRuns r run stages p.raise ms p' → StageRuns r run stages p (.raised :: ms) p'
  | cons {stage : Stage × StagePlan} {stages : List (Stage × StagePlan)} {p p' p'' : Progress}
      {ms ns : List Moment} :
    BatchRuns r.settings run stage.1.name (r.batchesOf stage) (p.enter run stage.1) ms p' →
    StageRuns r run stages p' ns p'' → StageRuns r run (stage :: stages) p (ms ++ ns) p''

/-- One way a run over planned stages can go. -/
def Runs (r : Runner) (stamp : Stamp) (prior : Levels) (stages : List (Stage × StagePlan))
    (s : Session) (ms : List Moment) (e : RunEnd) : Prop :=
  ∃ p, r.StageRuns stamp.run stages (.start stamp.run prior s) ms p ∧ e = r.close stamp p

end Runner

/-! ### One after the other -/

namespace BatchSteps

variable {settings : Settings} {run stage : String}

theorem single {b b' : Underway} {ms : List Moment} (h : BatchStep settings run stage b ms b') :
    BatchSteps settings run stage b ms b' := .snoc (.refl b) h

theorem trans {b b' b'' : Underway} {ms ns : List Moment}
    (h : BatchSteps settings run stage b ms b') (h' : BatchSteps settings run stage b' ns b'') :
    BatchSteps settings run stage b (ms ++ ns) b'' := by
  induction h' with
  | refl => simpa using h
  | snoc _ hs ih =>
    rw [← List.append_assoc]
    exact ih.snoc hs

end BatchSteps

namespace BatchSteps

variable (settings : Settings) (run stage : String)

theorem ofDecideBatch (batch : List Action) (ps : List (Action × Option Performed))
    (p : Progress) :
    ∃ ms, .raised ∉ ms ∧ BatchSteps settings run stage ⟨batch, ps, p⟩ ms
      ⟨[], ps ++ (decideBatch settings run stage batch p).1.map (·, none),
        (decideBatch settings run stage batch p).2⟩ := by
  induction batch generalizing ps p with
  | nil => exact ⟨[], List.not_mem_nil, by simpa [decideBatch] using BatchSteps.refl _⟩
  | cons a as ih =>
    unfold decideBatch
    cases hd : decision settings p a with
    | interrupted =>
      obtain ⟨ms, hms, h⟩ :=
        ih ps (p.record { action := a.id, stage, result := interruptedResult })
      exact ⟨_, by simpa using hms, (single (.interrupted hd rfl)).trans h⟩
    | blocked ds =>
      obtain ⟨ms, hms, h⟩ := ih ps ((p.emit (.actionSkipped run a.id ds)).record
        { action := a.id, stage, result := skippedResult ds })
      exact ⟨_, by simpa using hms, (single (.blocked hd rfl)).trans h⟩
    | start =>
      obtain ⟨ms, hms, h⟩ := ih (ps ++ [(a, none)]) (p.emit (.actionStarted run a.id))
      rw [List.append_assoc] at h
      exact ⟨_, by simpa using hms, (single (.start hd)).trans h⟩

theorem ofPerformEach (waiting : List Action) (ps : List (Action × Option Performed))
    (p : Progress) :
    ∃ ms qs, .raised ∉ ms ∧ BatchSteps settings run stage ⟨[], ps ++ waiting.map (·, none), p⟩ ms
        ⟨[], ps ++ qs, { p with session := (performEach settings waiting p.session).2 }⟩ ∧
      qs.map (·.2) = (performEach settings waiting p.session).1.map some := by
  induction waiting generalizing ps p with
  | nil =>
    exact ⟨[], [], List.not_mem_nil, by simpa [performEach] using BatchSteps.refl _, rfl⟩
  | cons a as ih =>
    cases hp : Changeover.perform settings a p.session with
    | mk d s =>
      obtain ⟨ms, qs, hms, h, hq⟩ := ih (ps ++ [(a, some d)]) { p with session := s }
      rw [List.append_assoc] at h
      refine ⟨[.ran a p.session] ++ ms, (a, some d) :: qs, by simpa using hms, ?_, ?_⟩
      · rw [List.map_cons]
        refine (single (.perform hp)).trans ?_
        simpa [performEach, hp] using h
      · simp [performEach, hp, hq]

theorem ofSettle (qs : List (Action × Option Performed)) (ds : List Performed) (p : Progress)
    (h : qs.map (·.2) = ds.map some) :
    ∃ ms, .raised ∉ ms ∧ BatchSteps settings run stage ⟨[], qs, p⟩ ms
      ⟨[], [], ds.foldl (Changeover.settle run stage) p⟩ := by
  induction ds generalizing qs p with
  | nil =>
    rw [List.map_nil, List.map_eq_nil_iff] at h
    exact ⟨[], List.not_mem_nil, h ▸ .refl _⟩
  | cons d ds ih =>
    cases qs with
    | nil => cases h
    | cons q qs =>
      obtain ⟨a, d'⟩ := q
      rw [List.map_cons, List.map_cons, List.cons.injEq] at h
      obtain ⟨hd, hs⟩ := h
      obtain ⟨ms, hms, hm⟩ := ih qs (Changeover.settle run stage p d) hs
      have hd' : d' = some d := hd
      subst hd'
      exact ⟨_, by simpa using hms, (single .settle).trans hm⟩

end BatchSteps

theorem exists_batchRun (settings : Settings) (run stage : String) (p : Progress)
    (batch : List Action) :
    ∃ ms, .raised ∉ ms ∧
      BatchRun settings run stage batch p ms (runBatch settings run stage p batch) := by
  obtain ⟨ms, hms, h⟩ := BatchSteps.ofDecideBatch settings run stage batch [] p
  obtain ⟨ns, qs, hns, h', hq⟩ := BatchSteps.ofPerformEach settings run stage
    (decideBatch settings run stage batch p).1 [] (decideBatch settings run stage batch p).2
  obtain ⟨ks, hks, h''⟩ := BatchSteps.ofSettle settings run stage ([] ++ qs) _ _ hq
  exact ⟨_, by simp [hms, hns, hks], (h.trans h').trans h''⟩

section

variable {f : String → Progress → List Action → Progress}

theorem exists_batchRuns {settings : Settings} {run stage : String}
    (hf : ∀ p b, ∃ ms, .raised ∉ ms ∧ BatchRun settings run stage b p ms (f stage p b))
    (bs : List (List Action)) (p : Progress) :
    ∃ ms, .raised ∉ ms ∧ BatchRuns settings run stage bs p ms (bs.foldl (f stage) p) := by
  induction bs generalizing p with
  | nil => exact ⟨[], List.not_mem_nil, .nil p⟩
  | cons b bs ih =>
    obtain ⟨ms, hms, h⟩ := hf p b
    obtain ⟨ns, hns, h'⟩ := ih (f stage p b)
    exact ⟨_, by simp [hms, hns], .cons h h'⟩

theorem Runner.exists_stageRuns {r : Runner} {run : String}
    (hf : ∀ stage p b, ∃ ms, .raised ∉ ms ∧ BatchRun r.settings run stage b p ms (f stage p b))
    (stages : List (Stage × StagePlan)) (p : Progress) :
    ∃ ms, .raised ∉ ms ∧ r.StageRuns run stages p ms (stages.foldl (fun p stage =>
      (r.batchesOf stage).foldl (f stage.1.name) (p.enter run stage.1)) p) := by
  induction stages generalizing p with
  | nil => exact ⟨[], List.not_mem_nil, .nil p⟩
  | cons stage stages ih =>
    obtain ⟨ms, hms, h⟩ :=
      exists_batchRuns (hf stage.1.name) (r.batchesOf stage) (p.enter run stage.1)
    obtain ⟨ns, hns, h'⟩ := ih _
    exact ⟨_, by simp [hms, hns], .cons h h'⟩

end

namespace Runner

/-- Running one after the other is one way a run can go, without the operator asking to stop. -/
theorem exists_runs_unraised (r : Runner) (stamp : Stamp) (prior : Levels) {stages : List Stage}
    {plans : List StagePlan} (s : Session)
    (h : plan (stages.map Stage.jobs) (prior.map (·.1)) = .ok plans) :
    ∃ ms, .raised ∉ ms ∧
      r.Runs stamp prior (stages.zip plans) s ms (r.run stamp prior stages s) := by
  obtain ⟨ms, hms, hm⟩ := exists_stageRuns
    (fun stage => exists_batchRun r.settings stamp.run stage) (stages.zip plans)
    (.start stamp.run prior s)
  refine ⟨ms, hms, _, hm, ?_⟩
  rw [run, h]
  rfl

theorem exists_runs (r : Runner) (stamp : Stamp) (prior : Levels) {stages : List Stage}
    {plans : List StagePlan} (s : Session)
    (h : plan (stages.map Stage.jobs) (prior.map (·.1)) = .ok plans) :
    ∃ ms, r.Runs stamp prior (stages.zip plans) s ms (r.run stamp prior stages s) := by
  obtain ⟨ms, -, hm⟩ := r.exists_runs_unraised stamp prior s h
  exact ⟨ms, hm⟩

end Runner

end Changeover
