import Changeover.Proofs.Conversion.Phases
import Changeover.Proofs.Json.Fields

/-!
# What the JSON report keeps

Actions have ids of their own, so a JSON report has a field for each of them. The entry about failed
restores goes by an id that no plan keeps free: where an action has the same, its outcome is not in
the JSON report. Nothing else is lost.
-/

namespace Changeover

/-! ### Fields -/

theorem JsonTree.record_inj {ms ms' : List (String × JsonTree)} :
    record ms = record ms' ↔ ms = ms' := by
  constructor
  · intro h
    refine List.map_injective_iff.mpr ?_ (JsonTree.object.inj h)
    rintro ⟨k, t⟩ ⟨k', t'⟩ heq
    obtain ⟨hk, rfl⟩ := Prod.mk.inj heq
    cases hk
    rfl
  · exact congrArg record

theorem JsonTree.text_inj {s s' : String} : text s = text s' ↔ s = s' := by
  simp [text]

theorem Level.encode_inj {l l' : Level} (h : l.encode = l'.encode) : l = l' := by
  have hname : l.name = l'.name := Option.some.inj (JsonTree.string.inj h)
  rw [← Option.some.injEq, ← ofName?_name l, hname, ofName?_name]

namespace Report

theorem findingJson_inj {l l' : Level} {f f' : Finding}
    (h : findingJson l f = findingJson l' f') : l = l' ∧ f = f' := by
  have hfields := JsonTree.record_inj.mp h
  simp only [List.cons.injEq, Prod.mk.injEq, true_and, and_true, JsonTree.text_inj,
    JsonTree.record_inj] at hfields
  obtain ⟨hdescription, hdiagnosis, hid, hlevel, hremediations, htitle, hvalues⟩ := hfields
  have hentries : f.values.entries = f'.values.entries := by
    refine List.map_injective_iff.mpr ?_ hvalues
    rintro ⟨k, v⟩ ⟨k', v'⟩ heq
    obtain ⟨rfl, hv⟩ := Prod.mk.inj heq
    exact congrArg (Prod.mk _) (JsonTree.text_inj.mp hv)
  refine ⟨Level.encode_inj hlevel, ?_⟩
  calc f = ⟨f.id, f.title, f.description, f.diagnosis, f.remediations, f.values⟩ := rfl
    _ = ⟨f'.id, f'.title, f'.description, f'.diagnosis, f'.remediations, f'.values⟩ := by
      rw [hid, htitle, hdescription, hdiagnosis, hremediations,
        Dictionary.ext_entries hentries]

theorem entryJson_inj {e e' : ReportEntry} (h : entryJson e = entryJson e') :
    e.result = e'.result ∧ e.messages = e'.messages := by
  have hfields := JsonTree.record_inj.mp h
  simp only [List.cons.injEq, Prod.mk.injEq, true_and, and_true, JsonTree.array.injEq] at hfields
  obtain ⟨hmessages, hresult⟩ := hfields
  obtain ⟨hlevel, hfinding⟩ := findingJson_inj hresult
  constructor
  · calc e.result = ⟨e.result.level, e.result.finding⟩ := rfl
      _ = ⟨e'.result.level, e'.result.finding⟩ := by rw [hlevel, hfinding]
  · refine List.map_injective_iff.mpr ?_ hmessages
    rintro ⟨l, f⟩ ⟨l', f'⟩ heq
    obtain ⟨rfl, rfl⟩ := findingJson_inj heq
    rfl

def field (e : ReportEntry) : String × JsonTree := (e.action, entryJson e)

def fields (r : Report) : List (String × JsonTree) :=
  r.outcomes.entries.map fun e => (e.1, entryJson e.2)

variable {r : Report} {es : List ReportEntry} {e : ReportEntry}

theorem fields_sorted (r : Report) : r.fields.Pairwise (fun x y => x.1 < y.1) := by
  rw [fields, List.pairwise_map]
  exact r.outcomes.sorted

theorem byAction_perm (hn : (es.map (·.action)).Nodup) :
    (Dictionary.ofList (es.map fun e => (e.action, e))).entries.Perm
      (es.map fun e => (e.action, e)) := by
  apply Dictionary.entries_ofList_perm
  rw [List.map_map]
  exact hn

theorem fields_perm (hn : (r.entries.map (·.action)).Nodup) :
    r.fields.Perm (r.entries.map field) := by
  have hperm := (byAction_perm hn).map fun e => (e.1, entryJson e.2)
  rw [List.map_map] at hperm
  exact hperm

/-- One more entry takes the field of an earlier one of the same action. -/
theorem fields_concat (h : r.entries = es ++ [e]) (hn : (es.map (·.action)).Nodup)
    {earlier : ReportEntry} (he : earlier ∈ es) (hsame : earlier.action = e.action) :
    r.fields.Perm ((es.erase earlier ++ [e]).map field) := by
  -- ids are distinct, so what the new entry takes the field of is this one alone
  have hfilter : es.filter (·.action != e.action) = es.erase earlier := by
    rw [(List.Nodup.of_map _ hn).erase_eq_filter]
    apply List.filter_congr
    intro other hother
    rw [Bool.eq_iff_iff, bne_iff_ne, bne_iff_ne, not_iff_not, ← hsame]
    exact ⟨List.inj_on_of_nodup_map hn hother he, congrArg ReportEntry.action⟩
  have hinsert : r.outcomes.entries.Perm
      ((e.action, e) :: (es.erase earlier).map fun e => (e.action, e)) := by
    rw [outcomes, h, List.map_append, List.map_singleton, Dictionary.ofList_concat, ← hfilter]
    refine (Dictionary.insertEntry_perm _ _ (Dictionary.sorted _)).trans (List.Perm.cons _ ?_)
    refine ((byAction_perm hn).filter _).trans (List.Perm.of_eq ?_)
    rw [List.filter_map]
    rfl
  have hfields := hinsert.map fun e => (e.1, entryJson e.2)
  rw [List.map_cons, List.map_map] at hfields
  rw [List.map_append]
  exact hfields.trans (List.perm_append_singleton _ _).symm

end Report

namespace Conversion

/-! ### Outcomes of a conversion -/

/-- An entry whose field goes to the entry about failed restores. -/
def Shadowed (failures : List String) (entry : ReportEntry) : Prop :=
  failures ≠ [] ∧ entry.action = (rollbackEntry failures).action

section

variable {report : Report} {ran : List ReportEntry} {failures : List String}
  {entry : ReportEntry}

theorem fields_of_unshadowed (h : report.entries = ran ++ rollbackEntries failures)
    (hn : (ran.map (·.action)).Nodup) (hs : ∀ entry ∈ ran, ¬ Shadowed failures entry) :
    report.fields.Perm (report.entries.map Report.field) := by
  apply Report.fields_perm
  rw [h, rollbackEntries]
  split
  · rwa [List.append_nil]
  · next hf =>
    rw [List.map_append, List.map_singleton, List.nodup_append_comm, List.singleton_append,
      List.nodup_cons]
    refine ⟨?_, hn⟩
    intro hin
    obtain ⟨entry, he, heq⟩ := List.mem_map.mp hin
    exact hs entry he ⟨hf, heq⟩

theorem fields_of_shadowed (h : report.entries = ran ++ rollbackEntries failures)
    (hn : (ran.map (·.action)).Nodup) (he : entry ∈ ran) (hs : Shadowed failures entry) :
    report.fields.Perm ((ran.erase entry ++ rollbackEntries failures).map Report.field) := by
  obtain ⟨hf, hsame⟩ := hs
  rw [rollbackEntries, if_neg hf] at h ⊢
  exact Report.fields_concat h hn he hsame

end

section

variable {site : Site} {settings : Settings} {stamps : Stamps} {mode : Mode} {answer : Answer}
  {before after : List Stage} {s : Session} {ms : List Moment} {e : ConversionEnd} {o : Outcome}

theorem workIn_append (before after : List Stage) :
    workIn (before ++ after) = workIn before ++ workIn after := List.flatMap_append ..

/-- The stages of which a conversion has come to the end. -/
def stagesRun (o : Outcome) (before after : List Stage) : List Stage :=
  if o.committed then before ++ after else before

theorem Goes.entries_eq
    (h : Goes site (.ofSettings settings) stamps mode answer before after s ms e)
    (ho : e.outcome = .ok o) :
    ∃ ran, o.report.entries = ran ++ rollbackEntries o.rollbackFailures ∧
      (ran.map ReportEntry.name).Perm (namesOf (workIn (stagesRun o before after))) ∧
      (ran.map (·.action)).Nodup := by
  cases h with
  | @ended _ first _ hfirst hcourse =>
    rcases ended_of_course hcourse with ⟨err, -, rfl⟩ | ⟨report, clean, asked, hr, hwhy, he⟩
    · cases ho
    · have hrolled := rolledBack_of_giveUp hfirst hwhy he ho
      obtain ⟨-, -, hc⟩ := hfirst.concluded hr
      refine ⟨report.entries, hrolled.entries, ?_, hc.distinct⟩
      rw [stagesRun, hrolled.flags.2]
      exact hc.names
  | @goOn ms₁ ns first last report s' hfirst hcourse hlast =>
    obtain ⟨later, hl, hcommitted⟩ := committed_of_course hfirst hcourse hlast rfl ho
    obtain ⟨-, -, hc⟩ := hfirst.concluded (goOn_of_course hcourse).1
    obtain ⟨-, -, hc'⟩ := hlast.concluded hl
    refine ⟨report.entries ++ later.entries, hcommitted.entries, ?_, ?_⟩
    · rw [stagesRun, hcommitted.flags.2, if_pos rfl, workIn_append, namesOf, List.map_append,
        List.map_append]
      exact hc.names.append hc'.names
    · rw [List.map_append]
      refine hc.distinct.append hc'.distinct ?_
      intro id hid hid'
      rw [(ids_perm_of_names hc.names).mem_iff] at hid
      rw [(ids_perm_of_names hc'.names).mem_iff] at hid'
      exact hc.disjoint_next hc' hid hid'

/-- The JSON report of a conversion has a field for each entry, except where an action goes by the
id of the entry about failed restores and there is such an entry: then the outcome of that action is
left out. A field tells all that its entry says of the result and the messages. -/
theorem toJson_outcomes (site : Site) (settings : Settings) (stamps : Stamps) (mode : Mode)
    (answer : Answer) (before after : List Stage) (s : Session) :
    (∃ ms, Goes site (.ofSettings settings) stamps mode answer before after s ms
      (runStages site (.ofSettings settings) stamps mode answer before after s)) ∧
    ∀ ms e o, Goes site (.ofSettings settings) stamps mode answer before after s ms e →
      e.outcome = .ok o →
      ∃ ran fields, o.report.entries = ran ++ rollbackEntries o.rollbackFailures ∧
        (ran.map ReportEntry.name).Perm (namesOf (workIn (stagesRun o before after))) ∧
        o.report.toJson = .record [("actions", .record fields),
          ("format_version", .text Report.formatVersion)] ∧
        fields.Pairwise (fun x y => x.1 < y.1) ∧
        ((∀ entry ∈ ran, ¬ Shadowed o.rollbackFailures entry) →
          fields.Perm (o.report.entries.map Report.field)) ∧
        (∀ entry ∈ ran, Shadowed o.rollbackFailures entry →
          fields.Perm ((ran.erase entry ++ rollbackEntries o.rollbackFailures).map
            Report.field) ∧
          fields.length + 1 = o.report.entries.length) ∧
        ∀ entry entry', Report.entryJson entry = Report.entryJson entry' →
          entry.result = entry'.result ∧ entry.messages = entry'.messages := by
  refine ⟨exists_goes .., ?_⟩
  intro ms e o hgoes ho
  obtain ⟨ran, hentries, hnames, hn⟩ := hgoes.entries_eq ho
  refine ⟨ran, o.report.fields, hentries, hnames, rfl, o.report.fields_sorted, ?_, ?_, ?_⟩
  · exact fields_of_unshadowed hentries hn
  · intro entry he hs
    have hfields := fields_of_shadowed hentries hn he hs
    refine ⟨hfields, ?_⟩
    have hlength := List.length_erase_add_one he
    rw [hfields.length_eq, hentries, List.length_map, List.length_append, List.length_append]
    omega
  · intro entry entry' hjson
    exact Report.entryJson_inj hjson

end

theorem runStages_analyze (site : Site) (r : Runner) (stamps : Stamps) (answer : Answer)
    (before after : List Stage) (s : Session) {report : Report}
    (h : (r.run stamps.before [] before s).report = .ok report) :
    ∃ o, (runStages site r stamps .analyze answer before after s).outcome = .ok o ∧
      o.rollbackFailures = (undone (r.run stamps.before [] before s).session).undo.failures ∧
      o.report.entries = report.entries ++ rollbackEntries o.rollbackFailures := by
  obtain ⟨clean, hcourse⟩ := course_analyze site answer h
  obtain ⟨o, ho, -⟩ := giveUp_committed site clean false (r.run stamps.before [] before s).events
    report (r.run stamps.before [] before s).session
  obtain ⟨-, -, hfinished⟩ := giveUp_finished rfl ho
  refine ⟨o, ?_, hfinished.failures, ?_⟩
  · simp only [runStages, hcourse]
    exact ho
  · rw [hfinished.failures]
    exact hfinished.entries

def unsigned : Message := ⟨.warning, { id := "UNSIGNED", title := "Module is not signed" }⟩

def unsignedStages (id : String) : List Stage :=
  [⟨"before", [rehearsedAction id [] [] [.message unsigned, .push (.rehearsed
    { name := "sticky", onRestore := some (.failed ⟨"cannot undo", []⟩) })]]⟩]

def unsignedEntry (id : String) : ReportEntry where
  action := id
  stage := "before"
  result := .success
  messages := [unsigned]

def unsignedEnd (id : String) : ConversionEnd :=
  runStages { manager := .ledger {} } (.ofSettings {}) rehearsalStamps .analyze ⟨false, false⟩
    (unsignedStages id) [] {}

theorem unsignedEnd_outcome (id : String) : ∃ o, (unsignedEnd id).outcome = .ok o ∧
    o.rollbackFailures = ["sticky: cannot undo"] ∧
    o.report.entries = [unsignedEntry id] ++ rollbackEntries o.rollbackFailures := by
  obtain ⟨report, hreport, hentries⟩ : ∃ report,
      ((Runner.ofSettings {}).run rehearsalStamps.before [] (unsignedStages id) {}).report =
        .ok report ∧ report.entries = [unsignedEntry id] := ⟨_, rfl, rfl⟩
  obtain ⟨o, ho, hfailures, hall⟩ := runStages_analyze { manager := .ledger {} }
    (Runner.ofSettings {}) rehearsalStamps ⟨false, false⟩ (unsignedStages id) [] {} hreport
  refine ⟨o, ho, hfailures, ?_⟩
  rw [hall, hentries]

/-- Where the action has an id of its own, its finding and the failed restore are both kept. -/
theorem toJson_outcomes_unsigned : ∃ ms o fields,
    Goes { manager := .ledger {} } (.ofSettings {}) rehearsalStamps .analyze ⟨false, false⟩
      (unsignedStages "MODULES") [] {} ms (unsignedEnd "MODULES") ∧
    (unsignedEnd "MODULES").outcome = .ok o ∧
    o.report.toJson = .record [("actions", .record fields),
      ("format_version", .text Report.formatVersion)] ∧
    fields.Perm [Report.field (unsignedEntry "MODULES"),
      Report.field (rollbackEntry ["sticky: cannot undo"])] := by
  obtain ⟨o, ho, hfailures, hentries⟩ := unsignedEnd_outcome "MODULES"
  obtain ⟨⟨ms, hms⟩, hall⟩ := toJson_outcomes { manager := .ledger {} } {} rehearsalStamps .analyze
    ⟨false, false⟩ (unsignedStages "MODULES") [] {}
  obtain ⟨ran, fields, hran, -, hjson, -, hkept, -, -⟩ := hall ms _ o hms ho
  obtain rfl : ran = [unsignedEntry "MODULES"] := List.append_cancel_right (hran.symm.trans hentries)
  rw [hfailures] at hkept hentries
  refine ⟨ms, o, fields, hms, ho, hjson, ?_⟩
  rw [hentries] at hkept
  apply hkept
  intro entry he hs
  obtain rfl := List.mem_singleton.mp he
  exact absurd hs.2 (by decide)

/-- An action that goes by the id of the entry about failed restores: the report has two entries,
its JSON form one field, and the finding is gone. -/
theorem toJson_loses_outcome : ∃ o, (unsignedEnd "ROLLBACK").outcome = .ok o ∧
    o.report.entries = [unsignedEntry "ROLLBACK", rollbackEntry ["sticky: cannot undo"]] ∧
    o.report.toJson = .record [
      ("actions", .record [("ROLLBACK", Report.entryJson (rollbackEntry ["sticky: cannot undo"]))]),
      ("format_version", .text Report.formatVersion)] ∧
    Report.entryJson (unsignedEntry "ROLLBACK") ≠
      Report.entryJson (rollbackEntry ["sticky: cannot undo"]) := by
  obtain ⟨o, ho, hfailures, hentries⟩ := unsignedEnd_outcome "ROLLBACK"
  rw [hfailures] at hentries
  have hfields : o.report.fields =
      [("ROLLBACK", Report.entryJson (rollbackEntry ["sticky: cannot undo"]))] := by
    rw [Report.fields, Report.outcomes, hentries]
    rfl
  refine ⟨o, ho, hentries, ?_, ?_⟩
  · rw [← hfields]
    rfl
  · intro hjson
    have hmessages := (Report.entryJson_inj hjson).2
    revert hmessages
    decide

end Conversion

end Changeover
