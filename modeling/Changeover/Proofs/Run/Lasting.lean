import Changeover.Proofs.Run.Moments

/-!
# What lasts through a run

What is true of the moments so far and of the session remains true to the end of a run if no single
moment puts an end to it. So a property is looked at once for each kind of moment, whatever the
order of the actions and the interrupts between them.
-/

namespace Changeover

variable {settings : Settings} {as : List Action} {P : List Moment → Session → Prop}

/-- No moment of a run over `as` puts an end to `P`. -/
structure Lasting (settings : Settings) (as : List Action) (P : List Moment → Session → Prop) :
    Prop where
  raise {ms : List Moment} {s : Session} : P ms s →
    P (ms ++ [.raised]) { s with host := { s.host with interrupted := true } }
  marker {ms : List Moment} {s : Session} : P ms s → P ms { s with undo := s.undo.pushMarker }
  turn {ms : List Moment} {s : Session} (a : Action) : P ms s → P (ms ++ [.turn a]) s
  recorded {ms : List Moment} {s : Session} (e : ReportEntry) : P ms s →
    P (ms ++ [.recorded e]) s
  ran {ms : List Moment} {s : Session} {a : Action} : a ∈ as → P ms s →
    P (ms ++ [.ran a s]) (perform settings a s).2

/-- All that a batch has still to do is with actions of `as`. -/
structure Underway.Within (as : List Action) (b : Underway) : Prop where
  pending : ∀ a ∈ b.pending, a ∈ as
  started : ∀ q ∈ b.started, q.1 ∈ as

section

variable {run stage : String} {b b' : Underway} {ms ns : List Moment}

theorem Underway.Within.begin {batch : List Action} (p : Progress) (h : ∀ a ∈ batch, a ∈ as) :
    Underway.Within as ⟨batch, [], p⟩ := ⟨h, fun _ hq => absurd hq List.not_mem_nil⟩

theorem Underway.Within.step (hb : b.Within as) (h : BatchStep settings run stage b ns b') :
    b'.Within as := by
  obtain ⟨hpending, hstarted⟩ := hb
  cases h with
  | raise => exact ⟨hpending, hstarted⟩
  | interrupted _ _ => exact ⟨fun a ha => hpending a (List.mem_cons_of_mem _ ha), hstarted⟩
  | blocked _ _ => exact ⟨fun a ha => hpending a (List.mem_cons_of_mem _ ha), hstarted⟩
  | start _ =>
    refine ⟨fun a ha => hpending a (List.mem_cons_of_mem _ ha), ?_⟩
    intro q hq
    rcases List.mem_append.mp hq with hq | hq
    · exact hstarted q hq
    · rw [List.mem_singleton.mp hq]
      exact hpending _ List.mem_cons_self
  | @perform a _ _ _ _ _ _ _ =>
    have ha : a ∈ as :=
      hstarted (a, none) (List.mem_append_right _ List.mem_cons_self)
    refine ⟨hpending, ?_⟩
    intro q hq
    rcases List.mem_append.mp hq with hq | hq
    · exact hstarted q (List.mem_append_left _ hq)
    · rcases List.mem_cons.mp hq with rfl | hq
      · exact ha
      · exact hstarted q (List.mem_append_right _ (List.mem_cons_of_mem _ hq))
  | settle => exact ⟨hpending, fun q hq => hstarted q (List.mem_cons_of_mem _ hq)⟩

namespace Lasting

theorem step (hP : Lasting settings as P) (hb : b.Within as)
    (h : BatchStep settings run stage b ns b') (hp : P ms b.progress.session) :
    P (ms ++ ns) b'.progress.session := by
  cases h with
  | raise => exact hP.raise hp
  | @interrupted a _ _ _ e _ _ =>
    have hboth := hP.recorded e (hP.turn a hp)
    rwa [List.append_assoc] at hboth
  | @blocked a _ _ _ _ e _ _ =>
    have hboth := hP.recorded e (hP.turn a hp)
    rwa [List.append_assoc] at hboth
  | start _ => exact hP.turn _ hp
  | @perform a _ _ _ p _ _ hperform =>
    have ha : a ∈ as :=
      hb.started (a, none) (List.mem_append_right _ List.mem_cons_self)
    have hran := hP.ran ha hp
    rw [hperform] at hran
    exact hran
  | settle => exact hP.recorded _ hp

theorem steps (hP : Lasting settings as P) (hb : b.Within as)
    (h : BatchSteps settings run stage b ns b') (hp : P ms b.progress.session) :
    b'.Within as ∧ P (ms ++ ns) b'.progress.session := by
  induction h with
  | refl =>
    rw [List.append_nil]
    exact ⟨hb, hp⟩
  | snoc _ hs ih =>
    obtain ⟨hb', hp'⟩ := ih
    rw [← List.append_assoc]
    exact ⟨hb'.step hs, hP.step hb' hs hp'⟩

theorem batches (hP : Lasting settings as P) {bs : List (List Action)}
    (hbs : ∀ batch ∈ bs, ∀ a ∈ batch, a ∈ as) {p p' : Progress}
    (h : BatchRuns settings run stage bs p ns p') (hp : P ms p.session) :
    P (ms ++ ns) p'.session := by
  induction h generalizing ms with
  | nil =>
    rw [List.append_nil]
    exact hp
  | @cons batch _ p _ _ _ _ hrun _ ih =>
    have hfirst := (hP.steps (.begin p (hbs batch List.mem_cons_self)) hrun hp).2
    rw [← List.append_assoc]
    exact ih (fun batch hmem => hbs batch (List.mem_cons_of_mem _ hmem)) hfirst

theorem each_ran (hP : Lasting settings as P) {Q : Action → Session → Prop}
    (hQ : ∀ {ms : List Moment} {s : Session} {a : Action}, a ∈ as → P ms s → Q a s) :
    Lasting settings as fun ms s => P ms s ∧ ∀ a t, .ran a t ∈ ms → Q a t := by
  have hquiet {ms : List Moment} {m : Moment} (hm : ∀ a t, .ran a t ≠ m)
      (hs : ∀ a t, .ran a t ∈ ms → Q a t) : ∀ a t, .ran a t ∈ ms ++ [m] → Q a t := by
    intro a t hmem
    rcases List.mem_append.mp hmem with hmem | hmem
    · exact hs a t hmem
    · exact absurd (List.mem_singleton.mp hmem) (hm a t)
  constructor
  case raise => exact fun hs => ⟨hP.raise hs.1, hquiet nofun hs.2⟩
  case marker => exact fun hs => ⟨hP.marker hs.1, hs.2⟩
  case turn => exact fun b hs => ⟨hP.turn b hs.1, hquiet nofun hs.2⟩
  case recorded => exact fun entry hs => ⟨hP.recorded entry hs.1, hquiet nofun hs.2⟩
  case ran =>
    intro ms s b hb hs
    refine ⟨hP.ran hb hs.1, fun a t hmem => ?_⟩
    rcases List.mem_append.mp hmem with hmem | hmem
    · exact hs.2 a t hmem
    · cases List.mem_singleton.mp hmem
      exact hQ hb hs.1

theorem of_ran (settings : Settings) (as : List Action) :
    Lasting settings as fun ms _ => ∀ a t, .ran a t ∈ ms → a ∈ as := by
  have hidle : Lasting settings as fun _ _ => True := by
    constructor <;> intros <;> trivial
  simpa only [true_and] using hidle.each_ran (Q := fun a _ => a ∈ as) fun ha _ => ha

end Lasting

end

namespace Runner

variable {r : Runner} {stage : Stage × StagePlan} {stages : List (Stage × StagePlan)}
  {run : String} {ms ns : List Moment} {a : Action}

theorem mem_of_mem_batchesOf {batch : List Action} (h : batch ∈ r.batchesOf stage)
    (ha : a ∈ batch) : a ∈ stage.1.actions := by
  obtain ⟨positions, -, rfl⟩ := List.mem_map.mp h
  obtain ⟨i, -, hi⟩ := List.mem_filterMap.mp ha
  exact List.mem_of_getElem? hi

theorem StageRuns.lasting (hP : Lasting r.settings as P) {p p' : Progress}
    (has : ∀ stage ∈ stages, ∀ a ∈ stage.1.actions, a ∈ as)
    (h : r.StageRuns run stages p ns p') (hp : P ms p.session) : P (ms ++ ns) p'.session := by
  induction h generalizing ms with
  | nil =>
    rw [List.append_nil]
    exact hp
  | @raise _ _ _ ns _ ih =>
    have hrest := ih has (hP.raise hp)
    rwa [List.append_assoc] at hrest
  | @cons stage _ _ _ _ _ _ hruns _ ih =>
    have hstage := has stage List.mem_cons_self
    have hfirst := hP.batches (fun batch hb a ha => hstage a (mem_of_mem_batchesOf hb ha)) hruns
      (hP.marker hp)
    rw [← List.append_assoc]
    exact ih (fun stage hmem => has stage (List.mem_cons_of_mem _ hmem)) hfirst

/-- What lasts through each moment lasts through the run. -/
theorem Runs.lasting {stamp : Stamp} {prior : Levels} {stages : List Stage}
    {plans : List StagePlan} {s : Session} {e : RunEnd}
    (hP : Lasting r.settings (stages.flatMap (·.actions)) P)
    (h : r.Runs stamp prior (stages.zip plans) s ms e) (hp : P [] s) : P ms e.session := by
  obtain ⟨p, hruns, rfl⟩ := h
  refine StageRuns.lasting hP ?_ hruns hp
  intro stage hstage a ha
  exact List.mem_flatMap.mpr ⟨stage.1, (List.of_mem_zip hstage).1, ha⟩

end Runner

end Changeover
