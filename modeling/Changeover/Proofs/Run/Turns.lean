import Changeover.Proofs.Run.Complete
import Changeover.Proofs.Run.Lasting

/-!
# Turns

Every action of a run has its turn once. Turns come in the order of the schedule, also where the
actions of a batch run in another order. So the moments of a run can be cut between any two batches:
what comes before the cut is with actions of the earlier batches alone, and what comes after it with
actions of the later ones.
-/

namespace Changeover

def Moment.turn? : Moment → Option Action
  | .turn a => some a
  | _ => none

/-- The actions that have had their turn, the first one first. -/
def turnsIn (ms : List Moment) : List Action := ms.filterMap Moment.turn?

@[simp] theorem turnsIn_append (ms ns : List Moment) :
    turnsIn (ms ++ ns) = turnsIn ms ++ turnsIn ns := List.filterMap_append

/-- The moments are those of the batches. -/
structure Spans (batches : List (String × List Action)) (ms : List Moment) : Prop where
  turns : turnsIn ms = (workOf batches).map (·.2)
  ran : ∀ a s, .ran a s ∈ ms → a ∈ (workOf batches).map (·.2)

namespace Spans

variable {bs cs : List (String × List Action)} {ms ns : List Moment}

theorem nil : Spans [] [] := ⟨rfl, fun _ _ h => nomatch h⟩

theorem raised (h : Spans bs ms) : Spans bs (.raised :: ms) := by
  refine ⟨h.turns, ?_⟩
  intro a s ha
  exact h.ran a s (List.mem_of_ne_of_mem (by simp) ha)

theorem append (h : Spans bs ms) (h' : Spans cs ns) : Spans (bs ++ cs) (ms ++ ns) := by
  constructor
  · rw [turnsIn_append, h.turns, h'.turns, workOf_append, List.map_append]
  · intro a s ha
    rw [workOf_append, List.map_append]
    rcases List.mem_append.mp ha with ha | ha
    · exact List.mem_append_left _ (h.ran a s ha)
    · exact List.mem_append_right _ (h'.ran a s ha)

end Spans

section

variable {settings : Settings} {run stage : String} {b b' : Underway} {ms ns : List Moment}
  {p p' : Progress}

theorem BatchStep.turns (h : BatchStep settings run stage b ns b') :
    b.pending = turnsIn ns ++ b'.pending := by
  cases h <;> rfl

theorem BatchStep.ran_mem {as : List Action} (h : BatchStep settings run stage b ns b')
    (hb : b.Within as) {a : Action} {s : Session} (ha : .ran a s ∈ ns) : a ∈ as := by
  cases h with
  | raise => simp at ha
  | interrupted _ _ => simp at ha
  | blocked _ _ => simp at ha
  | start _ => simp at ha
  | perform _ =>
    rw [List.mem_singleton] at ha
    cases ha
    exact hb.started (a, none) (List.mem_append_right _ List.mem_cons_self)
  | settle => simp at ha

theorem BatchSteps.spans {as : List Action} (h : BatchSteps settings run stage b ms b')
    (hb : b.Within as) : b'.Within as ∧ b.pending = turnsIn ms ++ b'.pending ∧
      ∀ a s, .ran a s ∈ ms → a ∈ as := by
  induction h with
  | refl => exact ⟨hb, rfl, fun _ _ ha => nomatch ha⟩
  | snoc _ hstep ih =>
    obtain ⟨hwithin, hturns, hran⟩ := ih
    refine ⟨hwithin.step hstep, ?_, ?_⟩
    · rw [hturns, hstep.turns, turnsIn_append, List.append_assoc]
    · intro a s ha
      rcases List.mem_append.mp ha with ha | ha
      · exact hran a s ha
      · exact hstep.ran_mem hwithin ha

theorem BatchRun.spans {batch : List Action} (h : BatchRun settings run stage batch p ms p') :
    Spans [(stage, batch)] ms := by
  have hwork : (workOf [(stage, batch)]).map (·.2) = batch := by
    rw [workOf_singleton, List.map_map]
    exact List.map_id batch
  obtain ⟨-, hturns, hran⟩ := BatchSteps.spans h (.begin p fun _ ha => ha)
  rw [List.append_nil] at hturns
  refine ⟨?_, ?_⟩
  · rw [hwork]
    exact hturns.symm
  · rw [hwork]
    exact hran

theorem BatchRuns.cut {bs : List (List Action)} (h : BatchRuns settings run stage bs p ms p')
    {cs ds : List (List Action)} (hbs : bs = cs ++ ds) : ∃ ms₁ ms₂, ms = ms₁ ++ ms₂ ∧
      Spans (cs.map (stage, ·)) ms₁ ∧ Spans (ds.map (stage, ·)) ms₂ := by
  induction h generalizing cs ds with
  | nil =>
    obtain ⟨rfl, rfl⟩ := List.append_eq_nil_iff.mp hbs.symm
    exact ⟨[], [], rfl, .nil, .nil⟩
  | @cons b bs p p' p'' ms ns hb _ ih =>
    cases cs with
    | nil =>
      obtain ⟨ns₁, ns₂, rfl, hfirst, hlast⟩ := ih (List.nil_append bs).symm
      rw [List.nil_append] at hbs
      subst hbs
      exact ⟨[], _, rfl, .nil, hb.spans.append (hfirst.append hlast)⟩
    | cons c cs =>
      obtain ⟨rfl, rfl⟩ := List.cons.inj hbs
      obtain ⟨ns₁, ns₂, rfl, hfirst, hlast⟩ := ih rfl
      exact ⟨ms ++ ns₁, ns₂, (List.append_assoc ..).symm, hb.spans.append hfirst, hlast⟩

namespace Runner

theorem StageRuns.cut {r : Runner} {stages : List (Stage × StagePlan)}
    (h : r.StageRuns run stages p ms p') {bs cs : List (String × List Action)}
    (hs : r.schedule stages = bs ++ cs) :
    ∃ ms₁ ms₂, ms = ms₁ ++ ms₂ ∧ Spans bs ms₁ ∧ Spans cs ms₂ := by
  induction h generalizing bs cs with
  | nil =>
    obtain ⟨rfl, rfl⟩ := List.append_eq_nil_iff.mp hs.symm
    exact ⟨[], [], rfl, .nil, .nil⟩
  | raise _ ih =>
    obtain ⟨ms₁, ms₂, rfl, hfirst, hlast⟩ := ih hs
    exact ⟨.raised :: ms₁, ms₂, rfl, hfirst.raised, hlast⟩
  | @cons stage stages p p' p'' ms ns hb _ ih =>
    obtain ⟨s, pl⟩ := stage
    rw [schedule_cons, List.append_eq_append_iff] at hs
    rcases hs with ⟨rest, rfl, hrest⟩ | ⟨rest, hbatches, rfl⟩
    · -- the cut is in a later stage
      obtain ⟨ns₁, ns₂, rfl, hfirst, hlast⟩ := ih hrest
      obtain ⟨ms₁, ms₂, rfl, hfirst', hlast'⟩ := hb.cut (List.append_nil _).symm
      refine ⟨ms₁ ++ ms₂ ++ ns₁, ns₂, (List.append_assoc ..).symm, ?_, hlast⟩
      have hwhole := hfirst'.append hlast'
      rw [List.map_nil, List.append_nil] at hwhole
      exact hwhole.append hfirst
    · obtain ⟨bs', rest', hsplit, rfl, rfl⟩ := List.map_eq_append_iff.mp hbatches
      obtain ⟨ms₁, ms₂, rfl, hfirst, hlast⟩ := hb.cut hsplit
      obtain ⟨ns₁, ns₂, rfl, hfirst', hlast'⟩ := ih (List.nil_append _).symm
      exact ⟨ms₁, ms₂ ++ (ns₁ ++ ns₂), List.append_assoc .., hfirst,
        hlast.append (hfirst'.append hlast')⟩

theorem StageRuns.spans {r : Runner} {stages : List (Stage × StagePlan)}
    (h : r.StageRuns run stages p ms p') : Spans (r.schedule stages) ms := by
  obtain ⟨ms₁, ms₂, rfl, hfirst, hlast⟩ := h.cut (List.nil_append _).symm
  exact hfirst.append hlast

end Runner

end

end Changeover
