import Changeover.Proofs.Plan.Schedule
import Changeover.Proofs.Run.Moments

/-!
# Every action is accounted for

A batch under way splits into actions whose turn has not come, actions that have started, and
actions that have their entry; every step moves one of them along. So a batch leaves exactly one
entry for each of its actions, and the moments show how each came to it. Batches and stages in a row
add up.
-/

namespace Changeover

/-- What a call of an action's own procedure comes to, on the host and the undo stack of a session
and with a tracker that holds nothing yet. -/
inductive Called (settings : Settings) (a : Action) (s : Session) : Performed → Prop
  | intro {ending : Except (Stop Fault) Unit} {w : Workspace} :
    (ExceptT.run (a.run settings)).run { host := s.host, undo := s.undo } = (ending, w) →
    Called settings a s ⟨a.id, ending, w.tracker⟩

theorem called_perform (settings : Settings) (a : Action) (s : Session) :
    Called settings a s (perform settings a s).1 :=
  .intro rfl

theorem Called.eq_perform {settings : Settings} {a : Action} {s : Session} {d : Performed}
    (h : Called settings a s d) : d = (perform settings a s).1 := by
  cases h with
  | intro h => simp only [perform, Procedure.perform, h]

theorem Called.action_eq {settings : Settings} {a : Action} {s : Session} {d : Performed}
    (h : Called settings a s d) : d.action = a.id := by
  cases h
  rfl

/-- What counts as the result of an action that has run. -/
inductive Ended (d : Performed) : Result → Prop
  | failed {stop : Stop Fault} : d.ending = .error stop → Ended d (unexpectedError stop.report)
  | reported {r : Result} : d.ending = .ok () → d.tracker.result = some r → Ended d r
  | silent : d.ending = .ok () → d.tracker.result = none → Ended d .success

theorem Performed.ended (d : Performed) : Ended d d.result := by
  unfold Performed.result
  cases he : d.ending with
  | error stop => exact .failed he
  | ok u =>
    cases hr : d.tracker.result with
    | none => exact .silent he hr
    | some r => exact .reported he hr

theorem Ended.eq_result {d : Performed} {r : Result} (h : Ended d r) : r = d.result := by
  unfold Performed.result
  cases h with
  | failed he => rw [he]
  | reported he hr => rw [he, hr, Option.getD_some]
  | silent he hr => rw [he, hr, Option.getD_none]

/-- An action that has run does not end at the level kept for those that have not. -/
theorem Ended.level_ne_skip {d : Performed} {r : Result} (h : Ended d r) : r.level ≠ .skip := by
  cases h with
  | failed _ =>
    intro hskip
    cases hskip
  | reported _ hr => exact d.tracker.unreserved r hr
  | silent _ _ =>
    intro hskip
    cases hskip

/-- The turn of an action, which comes after all that it depends on has its level. -/
structure TurnIn (levels : Levels) (a : Action) (ms before after : List Moment) : Prop where
  split : ms = before ++ .turn a :: after
  known : ∀ d ∈ a.dependencies, ∃ l, (levelsAfter levels before).level? d = some l

/-- How an action came to its entry. -/
inductive Handled (settings : Settings) (levels : Levels) (raised : Bool) (stage : String)
    (a : Action) (ms : List Moment) : ReportEntry → Prop
  | interrupted {before after : List Moment} {e : ReportEntry} :
    TurnIn levels a ms before after → raisedBy settings raised before = true →
    runsOf a.id ms = [] →
    e = { action := a.id, stage, result := interruptedResult } → e ∈ recordedIn after →
    Handled settings levels raised stage a ms e
  | skipped {before after : List Moment} {e : ReportEntry} {ds : List String} :
    TurnIn levels a ms before after → raisedBy settings raised before = false →
    ds = blockers settings (levelsAfter levels before) a → ds ≠ [] → runsOf a.id ms = [] →
    e = { action := a.id, stage, result := skippedResult ds } → e ∈ recordedIn after →
    Handled settings levels raised stage a ms e
  | ran {before between after : List Moment} {s : Session} {d : Performed} {e : ReportEntry}
      {r : Result} :
    TurnIn levels a ms before (between ++ .ran a s :: after) →
    raisedBy settings raised before = false →
    blockers settings (levelsAfter levels before) a = [] → runsOf a.id ms = [s] →
    Called settings a s d → Ended d r →
    e = { action := a.id, stage, result := r, messages := d.tracker.messages } →
    e ∈ recordedIn after → Handled settings levels raised stage a ms e

/-- An action that has started, with what came of it if it has run. -/
inductive Started (settings : Settings) (levels : Levels) (raised : Bool) (a : Action)
    (ms : List Moment) : Option Performed → Prop
  | waiting {before after : List Moment} :
    TurnIn levels a ms before after → raisedBy settings raised before = false →
    blockers settings (levelsAfter levels before) a = [] → runsOf a.id ms = [] →
    Started settings levels raised a ms none
  | performed {before between after : List Moment} {s : Session} {d : Performed} :
    TurnIn levels a ms before (between ++ .ran a s :: after) →
    raisedBy settings raised before = false →
    blockers settings (levelsAfter levels before) a = [] → runsOf a.id ms = [s] →
    Called settings a s d → Started settings levels raised a ms (some d)

/-! ### More moments around -/

section

variable {settings : Settings} {levels : Levels} {raised : Bool} {stage : String} {a : Action}
  {ms ns before after : List Moment} {e : ReportEntry}

theorem TurnIn.append (h : TurnIn levels a ms before after) (ns : List Moment) :
    TurnIn levels a (ms ++ ns) before (after ++ ns) where
  split := by rw [h.split, List.append_assoc, List.cons_append]
  known := h.known

theorem TurnIn.prepend (h : TurnIn (levelsAfter levels ns) a ms before after) :
    TurnIn levels a (ns ++ ms) (ns ++ before) after where
  split := by rw [h.split, List.append_assoc]
  known := by
    rw [levelsAfter_append]
    exact h.known

theorem TurnIn.append_ran {between : List Moment} {s : Session}
    (h : TurnIn levels a ms before (between ++ .ran a s :: after)) (ns : List Moment) :
    TurnIn levels a (ms ++ ns) before (between ++ .ran a s :: (after ++ ns)) := by
  simpa using h.append ns

theorem Started.append {d : Option Performed} (h : Started settings levels raised a ms d)
    (hn : runsOf a.id ns = []) : Started settings levels raised a (ms ++ ns) d := by
  cases h with
  | waiting ht hr hb hs =>
    refine .waiting (ht.append ns) hr hb ?_
    rw [runsOf_append, hs, hn, List.append_nil]
  | performed ht hr hb hs hcall =>
    refine .performed (ht.append_ran ns) hr hb ?_ hcall
    rw [runsOf_append, hs, hn, List.append_nil]

namespace Handled

theorem action_eq (h : Handled settings levels raised stage a ms e) : e.action = a.id := by
  cases h with
  | interrupted _ _ _ he => rw [he]
  | skipped _ _ _ _ _ he => rw [he]
  | ran _ _ _ _ _ _ he => rw [he]

theorem stage_eq (h : Handled settings levels raised stage a ms e) : e.stage = stage := by
  cases h with
  | interrupted _ _ _ he => rw [he]
  | skipped _ _ _ _ _ he => rw [he]
  | ran _ _ _ _ _ _ he => rw [he]

theorem mem_recorded (h : Handled settings levels raised stage a ms e) : e ∈ recordedIn ms := by
  cases h with
  | interrupted ht _ _ _ hm =>
    rw [ht.split, recordedIn_append]
    exact List.mem_append_right _ hm
  | skipped ht _ _ _ _ _ hm =>
    rw [ht.split, recordedIn_append]
    exact List.mem_append_right _ hm
  | @ran before between after s _ _ _ ht _ _ _ _ _ _ hm =>
    have hm' : e ∈ recordedIn (between ++ .ran a s :: after) := by
      rw [recordedIn_append]
      exact List.mem_append_right _ hm
    rw [ht.split, recordedIn_append]
    exact List.mem_append_right _ hm'

theorem append (h : Handled settings levels raised stage a ms e) (hn : runsOf a.id ns = []) :
    Handled settings levels raised stage a (ms ++ ns) e := by
  have hruns : runsOf a.id (ms ++ ns) = runsOf a.id ms := by
    rw [runsOf_append, hn, List.append_nil]
  have hmore {after : List Moment} (hm : e ∈ recordedIn after) :
      e ∈ recordedIn (after ++ ns) := by
    rw [recordedIn_append]
    exact List.mem_append_left _ hm
  cases h with
  | interrupted ht hr hs he hm =>
    exact .interrupted (ht.append ns) hr (hruns.trans hs) he (hmore hm)
  | skipped ht hr hds hne hs he hm =>
    exact .skipped (ht.append ns) hr hds hne (hruns.trans hs) he (hmore hm)
  | ran ht hr hb hs hcall hend he hm =>
    exact .ran (ht.append_ran ns) hr hb (hruns.trans hs) hcall hend he (hmore hm)

theorem prepend
    (h : Handled settings (levelsAfter levels ns) (raisedBy settings raised ns) stage a ms e)
    (hn : runsOf a.id ns = []) : Handled settings levels raised stage a (ns ++ ms) e := by
  have hruns : runsOf a.id (ns ++ ms) = runsOf a.id ms := by
    rw [runsOf_append, hn, List.nil_append]
  cases h with
  | interrupted ht hr hs he hm =>
    rw [← raisedBy_append] at hr
    exact .interrupted ht.prepend hr (hruns.trans hs) he hm
  | skipped ht hr hds hne hs he hm =>
    rw [← raisedBy_append] at hr
    rw [← levelsAfter_append] at hds
    exact .skipped ht.prepend hr hds hne (hruns.trans hs) he hm
  | ran ht hr hb hs hcall hend he hm =>
    rw [← raisedBy_append] at hr
    rw [← levelsAfter_append] at hb
    exact .ran ht.prepend hr hb (hruns.trans hs) hcall hend he hm

end Handled

end

/-! ### One batch -/

def ReportEntry.name (e : ReportEntry) : String × String := (e.stage, e.action)

theorem blockers_of_decision {settings : Settings} {p : Progress} {a : Action} {ds : List String}
    (h : decision settings p a = .blocked ds) :
    p.session.host.interrupted = false ∧ ds = blockers settings p.levels a ∧ ds ≠ [] := by
  unfold decision at h
  split at h
  · cases h
  · rename_i hi
    split at h
    · cases h
    · rename_i d ds' hb
      cases h
      refine ⟨by simpa using hi, hb.symm, ?_⟩
      intro hnil
      cases hnil

theorem start_of_decision {settings : Settings} {p : Progress} {a : Action}
    (h : decision settings p a = .start) :
    p.session.host.interrupted = false ∧ blockers settings p.levels a = [] := by
  unfold decision at h
  split at h
  · cases h
  · rename_i hi
    split at h
    · exact ⟨by simpa using hi, by assumption⟩
    · cases h

theorem interrupted_of_decision {settings : Settings} {p : Progress} {a : Action}
    (h : decision settings p a = .interrupted) : p.session.host.interrupted = true := by
  unfold decision at h
  split at h
  · assumption
  · split at h <;> cases h

/-- The books of a batch: what the progress holds is what the moments say, and each action of the
batch waits for its turn, has started, or has its entry. -/
structure Underway.Sound (settings : Settings) (stage : String) (batch : List Action)
    (p : Progress) (ms : List Moment) (b : Underway) : Prop where
  entries : b.progress.entries = p.entries ++ recordedIn ms
  levels : b.progress.levels = levelsAfter p.levels ms
  raised : b.progress.session.host.interrupted =
    raisedBy settings p.session.host.interrupted ms
  names : ((recordedIn ms).map ReportEntry.name ++ b.started.map (fun q => (stage, q.1.id)) ++
    b.pending.map (fun a => (stage, a.id))).Perm (batch.map fun a => (stage, a.id))
  strangers : ∀ id ∉ batch.map (·.id), runsOf id ms = []
  waiting : ∀ a ∈ b.pending, runsOf a.id ms = []
  started : ∀ q ∈ b.started, Started settings p.levels p.session.host.interrupted q.1 ms q.2
  cover : ∀ a ∈ batch, a ∈ b.pending ∨ a ∈ b.started.map (·.1) ∨
    ∃ e, Handled settings p.levels p.session.host.interrupted stage a ms e

/-- What a batch relies on: ids of its own, and levels for all that its actions depend on. -/
structure Fit (batch : List Action) (levels : Levels) : Prop where
  distinct : (batch.map (·.id)).Nodup
  known : ∀ a ∈ batch, ∀ d ∈ a.dependencies, ∃ l, levels.level? d = some l

theorem Levels.exists_level?_iff {ls : Levels} {d : String} :
    (∃ l, ls.level? d = some l) ↔ d ∈ ls.map (·.1) := by
  constructor
  · rintro ⟨l, h⟩
    obtain ⟨e, he, rfl⟩ := Option.map_eq_some_iff.mp h
    have hd := List.find?_some he
    rw [beq_iff_eq] at hd
    exact hd ▸ List.mem_map_of_mem (List.mem_of_find?_eq_some he)
  · intro h
    obtain ⟨e, he, rfl⟩ := List.mem_map.mp h
    have hs : (ls.find? (·.1 == e.1)).isSome := List.find?_isSome.mpr ⟨e, he, beq_self_eq_true _⟩
    obtain ⟨e', he'⟩ := Option.isSome_iff_exists.mp hs
    exact ⟨e'.2, by rw [Levels.level?, he', Option.map_some]⟩

theorem levelsAfter_keys (levels : Levels) (ms : List Moment) :
    (levelsAfter levels ms).map (·.1) =
      ((recordedIn ms).map (·.action)).reverse ++ levels.map (·.1) := by
  simp [levelsAfter, Function.comp_def]

theorem exists_level_after {levels : Levels} {d : String} (h : ∃ l, levels.level? d = some l)
    (ms : List Moment) : ∃ l, (levelsAfter levels ms).level? d = some l := by
  rw [Levels.exists_level?_iff] at h ⊢
  rw [levelsAfter_keys]
  exact List.mem_append_right _ h

namespace Underway.Sound

variable {settings : Settings} {run stage : String} {batch : List Action} {p : Progress}
  {ms : List Moment} {b : Underway} {a : Action} {as : List Action}
  {ps qs : List (Action × Option Performed)} {q : Progress}

theorem begin (batch : List Action) (p : Progress) :
    Sound settings stage batch p [] ⟨batch, [], p⟩ where
  entries := (List.append_nil _).symm
  levels := rfl
  raised := (Bool.or_false _).symm
  names := List.Perm.refl _
  strangers _ _ := rfl
  waiting _ _ := rfl
  started _ h := nomatch h
  cover _ h := Or.inl h

theorem turnIn (hf : Fit batch p.levels) (ha : a ∈ batch) (ms ns : List Moment) :
    TurnIn p.levels a (ms ++ .turn a :: ns) ms ns where
  split := rfl
  known d hd := exists_level_after (hf.known a ha d hd) ms

theorem mem_batch (h : Sound settings stage batch p ms b) {id : String}
    (hm : (stage, id) ∈ (recordedIn ms).map ReportEntry.name ++
      b.started.map (fun q => (stage, q.1.id)) ++ b.pending.map (fun a => (stage, a.id))) :
    id ∈ batch.map (·.id) := by
  obtain ⟨c, hc, he⟩ := List.mem_map.mp (h.names.mem_iff.mp hm)
  rw [← (Prod.mk.inj he).2]
  exact List.mem_map_of_mem hc

theorem nodup (h : Sound settings stage batch p ms b) (hf : Fit batch p.levels) :
    ((recordedIn ms).map ReportEntry.name ++ b.started.map (fun q => (stage, q.1.id)) ++
      b.pending.map (fun a => (stage, a.id))).Nodup := by
  refine h.names.nodup_iff.mpr ?_
  have hd : ((batch.map (·.id)).map (stage, ·)).Nodup := by
    refine List.Nodup.map ?_ hf.distinct
    intro x y hxy
    exact (Prod.mk.inj hxy).2
  rwa [List.map_map] at hd

theorem raise (h : Sound settings stage batch p ms b) :
    Sound settings stage batch p (ms ++ [.raised]) { b with progress := b.progress.raise } where
  entries := by simpa [Progress.raise] using h.entries
  levels := by simpa [Progress.raise, levelsAfter] using h.levels
  raised := by simp [Progress.raise, raisedBy, Moment.raises]
  names := by simpa using h.names
  strangers id hid := by simpa using h.strangers id hid
  waiting c hc := by simpa using h.waiting c hc
  started q hq := (h.started q hq).append rfl
  cover c hc := by
    rcases h.cover c hc with hp | hs | ⟨e, he⟩
    · exact Or.inl hp
    · exact Or.inr (Or.inl hs)
    · exact Or.inr (Or.inr ⟨e, he.append rfl⟩)

theorem refuse (h : Sound settings stage batch p ms ⟨a :: as, ps, q⟩) {e : ReportEntry}
    {q' : Progress} (hq : q' = q.record e ∨ ∃ v, q' = (q.emit v).record e)
    (hn : e.name = (stage, a.id))
    (he : Handled settings p.levels p.session.host.interrupted stage a
      (ms ++ [.turn a, .recorded e]) e) :
    Sound settings stage batch p (ms ++ [.turn a, .recorded e]) ⟨as, ps, q'⟩ where
  entries := by
    have hrec : q'.entries = q.entries ++ [e] := by
      rcases hq with rfl | ⟨v, rfl⟩ <;> rfl
    rw [hrec, h.entries]
    simp
  levels := by
    have hrec : q'.levels = (e.action, e.result.level) :: q.levels := by
      rcases hq with rfl | ⟨v, rfl⟩ <;> rfl
    rw [hrec, h.levels]
    simp [levelsAfter]
  raised := by
    have hrec : q'.session = q.session := by
      rcases hq with rfl | ⟨v, rfl⟩ <;> rfl
    rw [hrec, h.raised]
    simp [raisedBy, Moment.raises]
  names := by
    refine List.Perm.trans ?_ h.names
    have hrec : recordedIn (ms ++ [.turn a, .recorded e]) = recordedIn ms ++ [e] := by
      simp
    rw [hrec, List.map_append, List.map_singleton, hn]
    simp only [List.append_assoc, List.map_cons, List.singleton_append]
    exact List.perm_middle.symm.append_left _
  strangers id hid := by simpa using h.strangers id hid
  waiting c hc := by
    simpa using h.waiting c (List.mem_cons_of_mem a hc)
  started q hq := (h.started q hq).append rfl
  cover c hc := by
    rcases h.cover c hc with hp | hs | ⟨e', he'⟩
    · rcases List.mem_cons.mp hp with rfl | hp
      · exact Or.inr (Or.inr ⟨e, he⟩)
      · exact Or.inl hp
    · exact Or.inr (Or.inl hs)
    · exact Or.inr (Or.inr ⟨e', he'.append rfl⟩)

theorem start (h : Sound settings stage batch p ms ⟨a :: as, ps, q⟩) {v : Event}
    (hs : Started settings p.levels p.session.host.interrupted a (ms ++ [.turn a]) none) :
    Sound settings stage batch p (ms ++ [.turn a]) ⟨as, ps ++ [(a, none)], q.emit v⟩ where
  entries := by simpa [Progress.emit] using h.entries
  levels := by simpa [Progress.emit, levelsAfter] using h.levels
  raised := by simpa [Progress.emit, raisedBy, Moment.raises] using h.raised
  names := by simpa using h.names
  strangers id hid := by simpa using h.strangers id hid
  waiting c hc := by
    simpa using h.waiting c (List.mem_cons_of_mem a hc)
  started r hr := by
    rcases List.mem_append.mp hr with hr | hr
    · exact (h.started r hr).append rfl
    · rw [List.mem_singleton.mp hr]
      exact hs
  cover c hc := by
    rcases h.cover c hc with hp | hs' | ⟨e, he⟩
    · rcases List.mem_cons.mp hp with rfl | hp
      · exact Or.inr (Or.inl (by simp))
      · exact Or.inl hp
    · refine Or.inr (Or.inl ?_)
      rw [List.map_append]
      exact List.mem_append_left _ hs'
    · exact Or.inr (Or.inr ⟨e, he.append rfl⟩)

theorem apart (h : Sound settings stage batch p ms ⟨as, ps ++ (a, none) :: qs, q⟩)
    (hf : Fit batch p.levels) :
    (stage, a.id) ∉ (recordedIn ms).map ReportEntry.name ∧
      (∀ r ∈ ps ++ qs, r.1.id ≠ a.id) ∧ ∀ c ∈ as, c.id ≠ a.id := by
  have hn := h.nodup hf
  rw [List.map_append, List.map_cons] at hn
  have hmid : ((stage, a.id) :: ((recordedIn ms).map ReportEntry.name ++
      (ps ++ qs).map (fun q => (stage, q.1.id)) ++ as.map fun a => (stage, a.id))).Nodup := by
    refine List.Perm.nodup ?_ hn
    simp only [List.append_assoc, List.map_append, List.cons_append]
    rw [← List.append_assoc, ← List.append_assoc]
    exact List.perm_middle
  have hout := (List.nodup_cons.mp hmid).1
  simp only [List.mem_append, not_or] at hout
  refine ⟨hout.1.1, ?_, ?_⟩
  · intro r hr he
    exact hout.1.2 (List.mem_map.mpr ⟨r, hr, by rw [he]⟩)
  · intro c hc he
    exact hout.2 (List.mem_map.mpr ⟨c, hc, by rw [he]⟩)

theorem perform (h : Sound settings stage batch p ms ⟨as, ps ++ (a, none) :: qs, q⟩)
    (hf : Fit batch p.levels) {d : Performed} {s : Session}
    (hp : Changeover.perform settings a q.session = (d, s)) :
    Sound settings stage batch p (ms ++ [.ran a q.session])
      ⟨as, ps ++ (a, some d) :: qs, { q with session := s }⟩ := by
  obtain ⟨hfree, hothers, hpending⟩ := h.apart hf
  have hskip {id : String} (hne : id ≠ a.id) : runsOf id [.ran a q.session] = [] := by
    simp [runsOf_ran, hne.symm]
  refine ⟨?_, ?_, ?_, ?_, ?_, ?_, ?_, ?_⟩
  · simpa using h.entries
  · simpa [levelsAfter] using h.levels
  · -- an interrupt that stood before the action still stands
    have hkeep : s.host.interrupted = (q.session.host.interrupted || s.host.interrupted) := by
      have hs : s = (Changeover.perform settings a q.session).2 := by rw [hp]
      rw [hs]
      simp [Changeover.perform, Host.noteInterrupt]
    rw [raisedBy_append, ← h.raised]
    simpa [raisedBy, Moment.raises, hp] using hkeep
  · simpa using h.names
  · intro id hid
    have hne : id ≠ a.id := by
      rintro rfl
      refine hid (h.mem_batch ?_)
      simp
    rw [runsOf_append, h.strangers id hid, hskip hne, List.nil_append]
  · intro c hc
    rw [runsOf_append, h.waiting c hc, hskip (hpending c hc), List.nil_append]
  · intro r hr
    have hold : ∀ r ∈ ps ++ qs, Started settings p.levels p.session.host.interrupted r.1
        (ms ++ [.ran a q.session]) r.2 := by
      intro r hr
      refine (h.started r ?_).append (hskip (hothers r hr))
      simp only [List.mem_append, List.mem_cons] at hr ⊢
      tauto
    simp only [List.mem_append, List.mem_cons] at hr hold
    rcases hr with hr | rfl | hr
    · exact hold r (Or.inl hr)
    · have hself := h.started (a, none) (by simp)
      have hcall : Called settings a q.session d := by
        have hd := called_perform settings a q.session
        rwa [hp] at hd
      cases hself with
      | @waiting before after ht hr hb hs =>
        have ht' : TurnIn p.levels a (ms ++ [.ran a q.session]) before
            (after ++ .ran a q.session :: []) := ht.append _
        refine .performed ht' hr hb ?_ hcall
        rw [runsOf_append, hs, runsOf_ran, if_pos rfl]
        rfl
    · exact hold r (Or.inr hr)
  · intro c hc
    rcases h.cover c hc with hw | hs | ⟨e, he⟩
    · exact Or.inl hw
    · exact Or.inr (Or.inl (by simpa using hs))
    · refine Or.inr (Or.inr ⟨e, he.append (hskip ?_)⟩)
      intro hid
      refine hfree (List.mem_map.mpr ⟨e, he.mem_recorded, ?_⟩)
      rw [ReportEntry.name, he.action_eq, he.stage_eq, hid]

theorem settle {d : Performed} (h : Sound settings stage batch p ms ⟨[], (a, some d) :: ps, q⟩) :
    Sound settings stage batch p (ms ++ [.recorded (d.entry stage)])
      ⟨[], ps, Changeover.settle run stage q d⟩ := by
  have hself : Started settings p.levels p.session.host.interrupted a ms (some d) :=
    h.started (a, some d) (by simp)
  have hname : (d.entry stage).name = (stage, a.id) := by
    cases hself with
    | performed _ _ _ _ hcall => exact congrArg (stage, ·) hcall.action_eq
  have hdone : Handled settings p.levels p.session.host.interrupted stage a
      (ms ++ [.recorded (d.entry stage)]) (d.entry stage) := by
    cases hself with
    | performed ht hr hb hs hcall =>
      refine .ran (ht.append_ran _) hr hb ?_ hcall d.ended ?_ ?_
      · rw [runsOf_append, hs]
        rfl
      · rw [Performed.entry, hcall.action_eq]
      · simp
  refine ⟨?_, ?_, ?_, ?_, ?_, ?_, ?_, ?_⟩
  · rw [recordedIn_append, ← List.append_assoc, ← h.entries]
    rfl
  · rw [levelsAfter_append, ← h.levels]
    rfl
  · simpa [raisedBy, Moment.raises, Changeover.settle, Progress.record, Progress.emit]
      using h.raised
  · have hn := h.names
    simp only [List.map_cons, List.map_nil, List.append_nil] at hn
    simpa [hname] using hn
  · intro id hid
    simpa using h.strangers id hid
  · intro c hc
    cases hc
  · intro r hr
    exact (h.started r (List.mem_cons_of_mem _ hr)).append rfl
  · intro c hc
    rcases h.cover c hc with hw | hs | ⟨e, he⟩
    · cases hw
    · rw [List.map_cons] at hs
      rcases List.mem_cons.mp hs with rfl | hs
      · exact Or.inr (Or.inr ⟨_, hdone⟩)
      · exact Or.inr (Or.inl hs)
    · exact Or.inr (Or.inr ⟨e, he.append rfl⟩)

theorem step {b' : Underway} {ns : List Moment} (h : Sound settings stage batch p ms b)
    (hf : Fit batch p.levels) (hsub : b.pending ⊆ batch)
    (hs : BatchStep settings run stage b ns b') :
    Sound settings stage batch p (ms ++ ns) b' ∧ b'.pending ⊆ batch := by
  cases hs with
  | raise => exact ⟨h.raise, hsub⟩
  | @interrupted a as ps q e hd he =>
    obtain ⟨ha, has⟩ := List.cons_subset.mp hsub
    refine ⟨h.refuse (Or.inl rfl) (by rw [he]; rfl) ?_, has⟩
    refine .interrupted (turnIn hf ha ms _) ?_ ?_ he (by simp)
    · exact h.raised.symm.trans (interrupted_of_decision hd)
    · simpa using h.waiting a List.mem_cons_self
  | @blocked a as ps q ds e hd he =>
    obtain ⟨ha, has⟩ := List.cons_subset.mp hsub
    obtain ⟨hi, hds, hne⟩ := blockers_of_decision hd
    refine ⟨h.refuse (Or.inr ⟨_, rfl⟩) (by rw [he]; rfl) ?_, has⟩
    refine .skipped (turnIn hf ha ms _) (h.raised.symm.trans hi) ?_ hne ?_ he (by simp)
    · exact h.levels ▸ hds
    · simpa using h.waiting a List.mem_cons_self
  | @start a as ps q hd =>
    obtain ⟨ha, has⟩ := List.cons_subset.mp hsub
    obtain ⟨hi, hb⟩ := start_of_decision hd
    refine ⟨h.start (.waiting (turnIn hf ha ms []) (h.raised.symm.trans hi) ?_ ?_), has⟩
    · exact h.levels ▸ hb
    · simpa using h.waiting a List.mem_cons_self
  | perform hp => exact ⟨h.perform hf hp, hsub⟩
  | settle => exact ⟨h.settle, hsub⟩

theorem steps {b b' : Underway} {ms : List Moment} (hs : BatchSteps settings run stage b ms b')
    (h : Sound settings stage batch p [] b) (hf : Fit batch p.levels) (hsub : b.pending ⊆ batch) :
    Sound settings stage batch p ms b' ∧ b'.pending ⊆ batch := by
  induction hs with
  | refl => exact ⟨h, hsub⟩
  | snoc _ hstep ih =>
    obtain ⟨h', hsub'⟩ := ih
    exact h'.step hf hsub' hstep

end Underway.Sound

end Changeover
