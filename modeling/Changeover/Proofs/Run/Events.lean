import Changeover.Proofs.Conversion.Runs

/-!
# What a batch makes known

Events are made known action by action, and their order is not that of the entries: starts and
skipped actions come at the turn of an action, ends only once no turn is left. At each step of a
batch what is known about one action fits how far that action has come; a step about one action
changes nothing for the others.
-/

namespace Changeover

/-! ### Events about one action -/

/-- An event about an action of this run. -/
inductive Event.Concerns (run id : String) : Event → Prop
  | started : Concerns run id (.actionStarted run id)
  | finished (l : Level) : Concerns run id (.actionFinished run id l)
  | skipped (ds : List String) : Concerns run id (.actionSkipped run id ds)

theorem Event.Concerns.action {run id : String} {v : Event} (h : v.Concerns run id) :
    v.action? = some id := by
  cases h <;> rfl

def eventsAbout (id : String) (evs : List Event) : List Event :=
  evs.filter (·.action? == some id)

@[simp] theorem eventsAbout_append (id : String) (evs vs : List Event) :
    eventsAbout id (evs ++ vs) = eventsAbout id evs ++ eventsAbout id vs := List.filter_append ..

theorem eventsAbout_eq_nil {id : String} {evs : List Event}
    (h : ∀ v ∈ evs, v.action? ≠ some id) : eventsAbout id evs = [] := by
  refine List.filter_eq_nil_iff.mpr ?_
  intro v hv hid
  exact h v hv (beq_iff_eq.mp hid)

theorem eventsAbout_self {id : String} {v : Event} (h : v.action? = some id) :
    eventsAbout id [v] = [v] :=
  List.filter_cons_of_pos (beq_iff_eq.mpr h)

theorem mem_of_mem_eventsAbout {id : String} {v : Event} {evs : List Event}
    (h : v ∈ eventsAbout id evs) : v ∈ evs := List.mem_of_mem_filter h

/-- What is made known about an action, by how it came to its entry. -/
inductive Traced (run : String) (ms : List Moment) (e : ReportEntry) : List Event → Prop
  | interrupted : e.result = interruptedResult → runsOf e.action ms = [] → Traced run ms e []
  | skipped {ds : List String} : e.result = skippedResult ds → runsOf e.action ms = [] →
    Traced run ms e [.actionSkipped run e.action ds]
  | ran {s : Session} : e.result.level ≠ .skip → runsOf e.action ms = [s] →
    Traced run ms e
      [.actionStarted run e.action, .actionFinished run e.action e.result.level]

theorem Traced.congr {run : String} {ms ms' : List Moment} {e : ReportEntry}
    {evs evs' : List Event} (h : Traced run ms e evs)
    (hruns : runsOf e.action ms' = runsOf e.action ms) (hevs : evs' = evs) :
    Traced run ms' e evs' := by
  subst hevs
  cases h with
  | interrupted he hr => exact .interrupted he (hruns.trans hr)
  | skipped he hr => exact .skipped he (hruns.trans hr)
  | ran he hr => exact .ran he (hruns.trans hr)

/-- All that an action depends on has ended well, in these events or before them. -/
def DependenciesMet (settings : Settings) (run : String) (levels : Levels) (before : List Event)
    (a : Action) : Prop :=
  ∀ d ∈ a.dependencies, ∃ l, l.blocksDependents settings.allowOverridable = false ∧
    (.actionFinished run d l ∈ before ∨ levels.level? d = some l)

def StartsInOrder (settings : Settings) (run : String) (levels : Levels) (as : List Action)
    (evs : List Event) : Prop :=
  ∀ before after id, evs = before ++ .actionStarted run id :: after →
    ∃ a ∈ as, a.id = id ∧ DependenciesMet settings run levels before a

namespace StartsInOrder

variable {settings : Settings} {run : String} {levels : Levels} {as bs : List Action}
  {evs vs : List Event}

theorem nil : StartsInOrder settings run levels as [] := by
  intro before after id h
  simp at h

theorem append (h : StartsInOrder settings run levels as evs) (has : as ⊆ bs)
    (h' : ∀ before after id, vs = before ++ .actionStarted run id :: after →
      ∃ a ∈ bs, a.id = id ∧ DependenciesMet settings run levels (evs ++ before) a) :
    StartsInOrder settings run levels bs (evs ++ vs) := by
  intro before after id hsplit
  rcases List.append_eq_append_iff.mp hsplit with ⟨mid, rfl, hvs⟩ | ⟨mid, rfl, hvs⟩
  · exact h' mid after id hvs
  · cases mid with
    | nil =>
      obtain ⟨a, ha, hid, hmet⟩ := h' [] after id hvs.symm
      simp only [List.append_nil] at hmet
      exact ⟨a, ha, hid, hmet⟩
    | cons v mid =>
      obtain ⟨rfl, rfl⟩ := List.cons.inj hvs
      obtain ⟨a, ha, hid, hmet⟩ := h before mid id rfl
      exact ⟨a, has ha, hid, hmet⟩

theorem cons {v : Event} (h : StartsInOrder settings run levels as evs)
    (hv : ∀ id, v ≠ .actionStarted run id) :
    StartsInOrder settings run levels as (v :: evs) := by
  intro before after id hsplit
  cases before with
  | nil => exact absurd (List.cons.inj hsplit).1 (hv id)
  | cons v' before =>
    obtain ⟨a, ha, hid, hmet⟩ := h before after id (List.cons.inj hsplit).2
    refine ⟨a, ha, hid, ?_⟩
    intro d hd
    obtain ⟨l, hl, hfinished⟩ := hmet d hd
    exact ⟨l, hl, hfinished.imp_left (List.mem_cons_of_mem v')⟩

theorem snoc {v : Event} (h : StartsInOrder settings run levels as evs)
    (hv : ∀ id, v = .actionStarted run id →
      ∃ a ∈ as, a.id = id ∧ DependenciesMet settings run levels evs a) :
    StartsInOrder settings run levels as (evs ++ [v]) := by
  refine h.append (List.Subset.refl _) ?_
  intro before after id hsplit
  rcases List.append_eq_singleton_iff.mp hsplit.symm with ⟨rfl, hcons⟩ | ⟨-, hcons⟩
  · rw [List.append_nil]
    exact hv id (List.cons.inj hcons).1.symm
  · cases hcons

end StartsInOrder

section

variable {settings : Settings} {run : String} {ms : List Moment} {evs : List Event}
  {levels : Levels} {d : String} {l : Level}

/-- An action that is recorded at a level which lets others go on is known to have finished. -/
theorem finished_or_level? (hs : ∀ e ∈ recordedIn ms, Traced run ms e (eventsAbout e.action evs))
    (hl : (levelsAfter levels ms).level? d = some l)
    (hb : l.blocksDependents settings.allowOverridable = false) :
    .actionFinished run d l ∈ evs ∨ levels.level? d = some l := by
  rw [levelsAfter, Levels.level?_append, Option.or_eq_some_iff] at hl
  rcases hl with hl | ⟨-, hl⟩
  · left
    have hm := Levels.mem_of_level? hl
    rw [List.mem_reverse] at hm
    obtain ⟨e, he, heq⟩ := List.mem_map.mp hm
    obtain ⟨rfl, rfl⟩ := Prod.mk.inj heq
    -- of the three ways to an entry only a run ends at a level that does not block
    have ht := hs e he
    obtain ⟨hskip, herror, -⟩ := Level.blocksDependents_eq_false_iff.mp hb
    generalize hevs : eventsAbout e.action evs = told at ht
    cases ht with
    | interrupted hr _ => exact absurd (congrArg Result.level hr) herror
    | skipped hr _ => exact absurd (congrArg Result.level hr) hskip
    | ran _ _ =>
      apply mem_of_mem_eventsAbout
      rw [hevs]
      simp
  · exact .inr hl

theorem DependenciesMet.of_blockers {a : Action}
    (hs : ∀ e ∈ recordedIn ms, Traced run ms e (eventsAbout e.action evs))
    (hk : ∀ d ∈ a.dependencies, ∃ l, levels.level? d = some l)
    (hb : blockers settings (levelsAfter levels ms) a = []) :
    DependenciesMet settings run levels evs a := by
  intro d hd
  obtain ⟨l, hl⟩ := exists_level_after (hk d hd) ms
  have hfree := List.filter_eq_nil_iff.mp hb d hd
  rw [hl, Option.any_some, Bool.not_eq_true] at hfree
  exact ⟨l, hfree, finished_or_level? hs hl hfree⟩

end

/-- One of the actions was held back at its turn by just these of its dependencies. -/
def HeldBack (settings : Settings) (levels : Levels) (as : List Action) (ms : List Moment)
    (id : String) (ds : List String) : Prop :=
  ∃ a ∈ as, a.id = id ∧ ∃ before after, TurnIn levels a ms before after ∧
    ds = blockers settings (levelsAfter levels before) a

namespace HeldBack

variable {settings : Settings} {levels : Levels} {as bs : List Action} {ms : List Moment}
  {id : String} {ds : List String}

theorem mono (h : HeldBack settings levels as ms id ds) (has : as ⊆ bs) :
    HeldBack settings levels bs ms id ds := by
  obtain ⟨a, ha, hid, hturn⟩ := h
  exact ⟨a, has ha, hid, hturn⟩

theorem append (h : HeldBack settings levels as ms id ds) (ns : List Moment) :
    HeldBack settings levels as (ms ++ ns) id ds := by
  obtain ⟨a, ha, hid, before, after, hturn, hds⟩ := h
  exact ⟨a, ha, hid, before, after ++ ns, hturn.append ns, hds⟩

theorem prepend (ns : List Moment) (h : HeldBack settings (levelsAfter levels ns) as ms id ds) :
    HeldBack settings levels as (ns ++ ms) id ds := by
  obtain ⟨a, ha, hid, before, after, hturn, hds⟩ := h
  rw [← levelsAfter_append] at hds
  exact ⟨a, ha, hid, ns ++ before, after, hturn.prepend, hds⟩

end HeldBack

/-! ### One batch -/

theorem Started.run {settings : Settings} {levels : Levels} {raised : Bool} {a : Action}
    {ms : List Moment} {d : Performed} (h : Started settings levels raised a ms (some d)) :
    d.action = a.id ∧ ∃ s, runsOf a.id ms = [s] := by
  cases h with
  | performed _ _ _ hruns hcall => exact ⟨hcall.action_eq, _, hruns⟩

namespace Underway

def ids (ms : List Moment) (b : Underway) : List String :=
  (recordedIn ms).map (·.action) ++ b.started.map (·.1.id) ++ b.pending.map (·.id)

theorem Sound.ids_nodup {settings : Settings} {stage : String} {batch : List Action}
    {p : Progress} {ms : List Moment} {b : Underway} (h : Sound settings stage batch p ms b)
    (hf : Fit batch p.levels) : (b.ids ms).Nodup := by
  have hids := h.names.map (·.2)
  simp only [List.map_append, List.map_map, Function.comp_def] at hids
  exact hids.nodup_iff.mpr hf.distinct

theorem ids_started (ms : List Moment) (as : List Action) (ps qs : List (Action × Option Performed))
    (a : Action) (o : Option Performed) (q : Progress) :
    (ids ms ⟨as, ps ++ (a, o) :: qs, q⟩).Perm (a.id :: ids ms ⟨as, ps ++ qs, q⟩) := by
  simp only [ids, List.map_append, List.map_cons, List.append_assoc, List.cons_append]
  rw [← List.append_assoc, ← List.append_assoc]
  exact List.perm_middle

/-- What has been made known about the actions of a batch under way. -/
structure Told (settings : Settings) (run : String) (batch : List Action) (p : Progress)
    (ms : List Moment) (b : Underway) (evs : List Event) : Prop where
  events : b.progress.events = p.events ++ evs
  concerns : ∀ v ∈ evs, ∃ a ∈ batch, v.Concerns run a.id
  settled : ∀ e ∈ recordedIn ms, Traced run ms e (eventsAbout e.action evs)
  started : ∀ q ∈ b.started, eventsAbout q.1.id evs = [.actionStarted run q.1.id]
  pending : ∀ a ∈ b.pending, eventsAbout a.id evs = []
  order : StartsInOrder settings run p.levels batch evs
  skipped : ∀ id ds, .actionSkipped run id ds ∈ evs →
    HeldBack settings p.levels batch ms id ds

end Underway

namespace Underway.Told

variable {settings : Settings} {run stage : String} {batch : List Action} {p : Progress}
  {ms ns : List Moment} {b : Underway} {evs vs : List Event} {a : Action}
  {as as' : List Action} {ps ps' qs : List (Action × Option Performed)} {q q' : Progress}

theorem begin (batch : List Action) (p : Progress) :
    Told settings run batch p [] ⟨batch, [], p⟩ [] where
  events := (List.append_nil _).symm
  concerns _ h := nomatch h
  settled _ h := nomatch h
  started _ h := nomatch h
  pending _ _ := rfl
  order := .nil
  skipped _ _ h := nomatch h

/-- A step about one action leaves alone what is known about the others. -/
theorem move (h : Told settings run batch p ms ⟨as', ps', q⟩ evs) (ha : a ∈ batch)
    (hid : a.id ∉ Underway.ids ms ⟨as, ps, q⟩) (has : as ⊆ as') (hps : ps ⊆ ps')
    (hns : ∀ id, id ≠ a.id → runsOf id ns = []) (hq : q'.events = q.events ++ vs)
    (hvs : ∀ v ∈ vs, v.Concerns run a.id)
    (horder : StartsInOrder settings run p.levels batch (evs ++ vs))
    (hrec : ∀ e ∈ recordedIn ns,
      e.action = a.id ∧ Traced run (ms ++ ns) e (eventsAbout a.id (evs ++ vs)))
    (hqs : ∀ r ∈ qs,
      r ∈ ps ∨ r.1 = a ∧ eventsAbout a.id (evs ++ vs) = [.actionStarted run a.id])
    (hskip : ∀ id ds, .actionSkipped run id ds ∈ vs →
      HeldBack settings p.levels batch (ms ++ ns) id ds) :
    Told settings run batch p (ms ++ ns) ⟨as, qs, q'⟩ (evs ++ vs) := by
  simp only [Underway.ids, List.mem_append, List.mem_map, not_or, not_exists, not_and] at hid
  have hsame {id : String} (hne : id ≠ a.id) :
      eventsAbout id (evs ++ vs) = eventsAbout id evs := by
    have hnone : eventsAbout id vs = [] := by
      apply eventsAbout_eq_nil
      intro v hv heq
      exact hne (Option.some.inj (heq.symm.trans (hvs v hv).action))
    rw [eventsAbout_append, hnone, List.append_nil]
  refine ⟨?_, ?_, ?_, ?_, ?_, horder, ?_⟩
  · rw [hq, h.events, List.append_assoc]
  · intro v hv
    rcases List.mem_append.mp hv with hv | hv
    · exact h.concerns v hv
    · exact ⟨a, ha, hvs v hv⟩
  · intro e he
    rw [recordedIn_append] at he
    rcases List.mem_append.mp he with he | he
    · have hne : e.action ≠ a.id := hid.1.1 e he
      refine (h.settled e he).congr ?_ (hsame hne)
      rw [runsOf_append, hns _ hne, List.append_nil]
    · obtain ⟨hact, ht⟩ := hrec e he
      rw [hact]
      exact ht
  · intro r hr
    rcases hqs r hr with hr | ⟨rfl, hr⟩
    · rw [hsame (hid.1.2 r hr)]
      exact h.started r (hps hr)
    · exact hr
  · intro c hc
    rw [hsame (hid.2 c hc)]
    exact h.pending c (has hc)
  · intro id ds hds
    rcases List.mem_append.mp hds with hds | hds
    · exact (h.skipped id ds hds).append ns
    · exact hskip id ds hds

theorem raise (h : Told settings run batch p ms b evs) :
    Told settings run batch p (ms ++ [.raised]) { b with progress := b.progress.raise } evs where
  events := h.events
  concerns := h.concerns
  settled e he := by
    rw [recordedIn_append, recordedIn_raised, recordedIn_nil, List.append_nil] at he
    refine (h.settled e he).congr ?_ rfl
    rw [runsOf_append, runsOf_raised, runsOf_nil, List.append_nil]
  started := h.started
  pending := h.pending
  order := h.order
  skipped id ds hds := (h.skipped id ds hds).append _

theorem refuse (h : Told settings run batch p ms ⟨a :: as, ps, q⟩ evs) (ha : a ∈ batch)
    (hid : a.id ∉ Underway.ids ms ⟨as, ps, q⟩) {e : ReportEntry}
    (hq : q'.events = q.events ++ vs) (hvs : ∀ v ∈ vs, v.Concerns run a.id)
    (horder : StartsInOrder settings run p.levels batch (evs ++ vs)) (he : e.action = a.id)
    (ht : Traced run (ms ++ [.turn a, .recorded e]) e (eventsAbout a.id vs))
    (hskip : ∀ id ds, .actionSkipped run id ds ∈ vs →
      HeldBack settings p.levels batch (ms ++ [.turn a, .recorded e]) id ds) :
    Told settings run batch p (ms ++ [.turn a, .recorded e]) ⟨as, ps, q'⟩ (evs ++ vs) := by
  refine h.move ha hid (List.subset_cons_self a as) (List.Subset.refl _) (fun _ _ => rfl) hq hvs
    horder ?_ (fun r hr => .inl hr) hskip
  intro e' he'
  obtain rfl := List.mem_singleton.mp he'
  refine ⟨he, ?_⟩
  rw [eventsAbout_append, h.pending a List.mem_cons_self]
  exact ht

theorem start (h : Told settings run batch p ms ⟨a :: as, ps, q⟩ evs) (ha : a ∈ batch)
    (hid : a.id ∉ Underway.ids ms ⟨as, ps, q⟩)
    (hmet : DependenciesMet settings run p.levels evs a) :
    Told settings run batch p (ms ++ [.turn a])
      ⟨as, ps ++ [(a, none)], q.emit (.actionStarted run a.id)⟩
      (evs ++ [.actionStarted run a.id]) := by
  refine h.move ha hid (List.subset_cons_self a as) (List.Subset.refl _) (fun _ _ => rfl) rfl
    ?_ ?_ (fun _ he => nomatch he) ?_ (fun _ _ hds => by simp at hds)
  · intro v hv
    rw [List.mem_singleton.mp hv]
    exact .started
  · apply h.order.snoc
    intro id hstart
    exact ⟨a, ha, (Event.actionStarted.inj hstart).2, hmet⟩
  · intro r hr
    rcases List.mem_append.mp hr with hr | hr
    · exact .inl hr
    · rw [List.mem_singleton.mp hr, eventsAbout_append, h.pending a List.mem_cons_self,
        eventsAbout_self rfl]
      exact .inr ⟨rfl, rfl⟩

theorem perform (h : Told settings run batch p ms ⟨as, ps ++ (a, none) :: qs, q⟩ evs)
    (ha : a ∈ batch) (hid : a.id ∉ Underway.ids ms ⟨as, ps ++ qs, q⟩) (d : Performed)
    (s : Session) :
    Told settings run batch p (ms ++ [.ran a q.session])
      ⟨as, ps ++ (a, some d) :: qs, { q with session := s }⟩ evs := by
  have hothers : ps ++ qs ⊆ ps ++ (a, none) :: qs :=
    ((List.sublist_cons_self _ _).append_left ps).subset
  rw [← List.append_nil evs]
  refine h.move ha hid (List.Subset.refl _) hothers ?_ (List.append_nil _).symm
    (fun _ hv => nomatch hv) ?_ (fun _ he => nomatch he) ?_ (fun _ _ hds => nomatch hds)
  · intro id hne
    rw [runsOf_ran, if_neg hne.symm, runsOf_nil, List.nil_append]
  · rw [List.append_nil]
    exact h.order
  · intro r hr
    rcases List.mem_append.mp hr with hr | hr
    · exact .inl (List.mem_append_left _ hr)
    · rcases List.mem_cons.mp hr with rfl | hr
      · rw [List.append_nil]
        exact .inr ⟨rfl, h.started (a, none) (List.mem_append_right _ List.mem_cons_self)⟩
      · exact .inl (List.mem_append_right _ hr)

theorem settle {d : Performed} {s : Session}
    (h : Told settings run batch p ms ⟨[], (a, some d) :: ps, q⟩ evs) (ha : a ∈ batch)
    (hid : a.id ∉ Underway.ids ms ⟨[], ps, q⟩) (hd : d.action = a.id)
    (hruns : runsOf a.id ms = [s]) :
    Told settings run batch p (ms ++ [.recorded (d.entry stage)])
      ⟨[], ps, Changeover.settle run stage q d⟩
      (evs ++ [.actionFinished run d.action d.result.level]) := by
  refine h.move ha hid (List.Subset.refl _) (List.subset_cons_self _ _) (fun _ _ => rfl) rfl
    ?_ ?_ ?_ (fun r hr => .inl hr) (fun _ _ hds => by simp at hds)
  · intro v hv
    rw [List.mem_singleton.mp hv, hd]
    exact .finished _
  · apply h.order.snoc
    intro id hstart
    cases hstart
  · intro e he
    obtain rfl := List.mem_singleton.mp he
    have hself : (d.entry stage).action = a.id := hd
    refine ⟨hself, ?_⟩
    rw [eventsAbout_append, h.started (a, some d) List.mem_cons_self, hd, eventsAbout_self rfl,
      ← hself]
    refine .ran (s := s) d.ended.level_ne_skip ?_
    rw [hself, runsOf_append, hruns, runsOf_recorded, runsOf_nil, List.append_nil]

theorem step {b' : Underway} (h : Told settings run batch p ms b evs)
    (hs : Sound settings stage batch p ms b) (hf : Fit batch p.levels)
    (hb : b.Within batch) (hstep : BatchStep settings run stage b ns b') :
    ∃ vs, Told settings run batch p (ms ++ ns) b' (evs ++ vs) := by
  have hn := hs.ids_nodup hf
  cases hstep with
  | raise =>
    refine ⟨[], ?_⟩
    rw [List.append_nil]
    exact h.raise
  | @interrupted a as ps q e hd he =>
    subst he
    have hruns := hs.waiting a List.mem_cons_self
    refine ⟨[], h.refuse (hb.pending a List.mem_cons_self) (List.nodup_middle.mp hn).notMem
      (List.append_nil _).symm (fun _ hv => nomatch hv) ?_ rfl (.interrupted rfl ?_)
      (fun _ _ hds => nomatch hds)⟩
    · rw [List.append_nil]
      exact h.order
    · simpa using hruns
  | @blocked a as ps q ds e hd he =>
    subst he
    have hruns := hs.waiting a List.mem_cons_self
    have ha := hb.pending a List.mem_cons_self
    obtain ⟨-, hblockers, -⟩ := blockers_of_decision hd
    rw [hs.levels] at hblockers
    refine ⟨[.actionSkipped run a.id ds], h.refuse ha
      (List.nodup_middle.mp hn).notMem rfl ?_ ?_ rfl ?_ ?_⟩
    · intro v hv
      rw [List.mem_singleton.mp hv]
      exact .skipped ds
    · apply h.order.snoc
      intro id hstart
      cases hstart
    · rw [eventsAbout_self rfl]
      refine .skipped rfl ?_
      simpa using hruns
    · intro id ds' hds
      obtain ⟨-, rfl, rfl⟩ := Event.actionSkipped.inj (List.mem_singleton.mp hds)
      exact ⟨a, ha, rfl, ms, _, Sound.turnIn hf ha ms _, hblockers⟩
  | @start a as ps q hd =>
    have ha := hb.pending a List.mem_cons_self
    obtain ⟨-, hblockers⟩ := start_of_decision hd
    rw [hs.levels] at hblockers
    exact ⟨_, h.start ha (List.nodup_middle.mp hn).notMem
      (.of_blockers h.settled (hf.known a ha) hblockers)⟩
  | @perform a as ps qs q d s hp =>
    have ha : a ∈ batch := hb.started (a, none) (List.mem_append_right _ List.mem_cons_self)
    refine ⟨[], ?_⟩
    rw [List.append_nil]
    exact h.perform ha ((ids_started ms as ps qs a none q).nodup hn).notMem d s
  | @settle a ps q d =>
    have ha : a ∈ batch := hb.started (a, some d) List.mem_cons_self
    obtain ⟨hd, s, hruns⟩ := Started.run (hs.started (a, some d) List.mem_cons_self)
    exact ⟨_, h.settle ha ((ids_started ms [] [] ps a (some d) q).nodup hn).notMem hd hruns⟩

theorem steps {b b' : Underway} (hstep : BatchSteps settings run stage b ms b')
    (h : Told settings run batch p [] b []) (hs : Sound settings stage batch p [] b)
    (hf : Fit batch p.levels) (hb : b.Within batch) :
    Sound settings stage batch p ms b' ∧ b'.Within batch ∧
      ∃ evs, Told settings run batch p ms b' evs := by
  induction hstep with
  | refl => exact ⟨hs, hb, [], h⟩
  | snoc _ hlast ih =>
    obtain ⟨hs', hb', evs, h'⟩ := ih
    obtain ⟨vs, hvs⟩ := h'.step hs' hf hb' hlast
    exact ⟨(hs'.step hf hb'.pending hlast).1, hb'.step hlast, _, hvs⟩

end Underway.Told

end Changeover
