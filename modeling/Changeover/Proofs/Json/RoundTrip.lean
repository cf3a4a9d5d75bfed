import Changeover.Finding.Codec
import Changeover.Proofs.Json.Fields
import Changeover.Proofs.Json.Printed
import Changeover.Settings

/-!
# Reading is the inverse of writing

Results, messages and settings are read from the text that is written of them. A value may be
spelled in many other ways, which are listed here without saying how they are read: a level as its
name or as an object, a record as an array or as an object with its fields in any order and others
between them, a dictionary with names that repeat. A text that is read as a value is a document that
spells it.
-/

namespace Changeover

open JsonTree

/-! ### Spellings -/

inductive Level.Spelled (l : Level) : JsonTree → Prop
  | name : Spelled l (.text l.name)
  | keyed : Spelled l (.object [(some l.name, .null)])

/-- An object of texts from which each name takes the last of its values. -/
def Dictionary.Spelled (d : Dictionary String) (t : JsonTree) : Prop :=
  ∃ pairs : List (String × String), t = .record (pairs.map fun p => (p.1, .text p.2)) ∧
    ∀ k, d.get? k = (pairs.reverse.find? (·.1 == k)).map (·.2)

/-- What is written under each name, for these spellings of the level and of the named values. -/
def Finding.fields (f : Finding) (level values : JsonTree) : List (String × JsonTree) := [
  ("level", level), ("id", .text f.id), ("title", .text f.title),
  ("description", .text f.description), ("diagnosis", .text f.diagnosis),
  ("remediations", .text f.remediations), ("variables", values)]

inductive Finding.Spelled (l : Level) (f : Finding) : JsonTree → Prop
  | array {level values : JsonTree} (hl : l.Spelled level) (hv : f.values.Spelled values) :
      Spelled l f (.array ((f.fields level values).map (·.2)))
  | object {level values : JsonTree} {ms : List (JsonString × JsonTree)} (hl : l.Spelled level)
      (hv : f.values.Spelled values)
      (hms : Gives ((f.fields level values).map fun a => (a.1, some a.2)) ms) :
      Spelled l f (.object ms)

/-- Switches that are not given are off. -/
inductive Settings.Spelled (s : Settings) : JsonTree → Prop
  | array (given : List Bool) (hlen : given.length ≤ 2)
      (ha : given.getD 0 false = s.allowOverridable) (hp : given.getD 1 false = s.parallel) :
      Spelled s (.array (given.map .bool))
  | object {a p : Option Bool} {ms : List (JsonString × JsonTree)}
      (ha : a.getD false = s.allowOverridable) (hp : p.getD false = s.parallel)
      (hms : Gives [("allow_overridable", a.map .bool), ("parallel", p.map .bool)] ms) :
      Spelled s (.object ms)

/-! ### Parts -/

namespace JsonTree

variable {t : JsonTree} {ms : List (JsonString × JsonTree)}

theorem text?_eq_some {s : String} : t.text? = some s ↔ t = .text s := by
  cases t <;> simp [text?, text]

theorem bool?_eq_some {b : Bool} : t.bool? = some b ↔ t = .bool b := by
  cases t <;> simp [bool?]

theorem mapM_texts_eq_some {pairs : List (String × String)} :
    (ms.mapM fun m => do pure ((← m.1), (← m.2.text?))) = some pairs ↔
      ms = pairs.map fun p => (some p.1, .text p.2) := by
  induction ms generalizing pairs with
  | nil => cases pairs <;> simp
  | cons m ms ih =>
    obtain ⟨k, t⟩ := m
    cases pairs with
    | nil => simp [List.mapM_cons, Option.bind_eq_some_iff]
    | cons p pairs =>
      simp only [List.mapM_cons, Option.bind_eq_bind, Option.bind_eq_some_iff, text?_eq_some,
        Option.pure_def, Option.some.injEq, List.map_cons, List.cons.injEq, Prod.mk.injEq]
      constructor
      · rintro ⟨_, ⟨k', rfl, _, rfl, rfl⟩, pairs', hpairs', rfl, rfl⟩
        exact ⟨⟨rfl, rfl⟩, ih.mp hpairs'⟩
      · rintro ⟨⟨rfl, rfl⟩, rfl⟩
        exact ⟨p, ⟨p.1, rfl, p.2, rfl, rfl⟩, pairs, ih.mpr rfl, rfl, rfl⟩

theorem dictionary?_eq_some {d : Dictionary String} : t.dictionary? = some d ↔ d.Spelled t := by
  have hlast (pairs : List (String × String)) : Dictionary.ofList pairs = d ↔
      ∀ k, d.get? k = (pairs.reverse.find? (·.1 == k)).map (·.2) := by
    constructor
    · rintro rfl k
      exact Dictionary.get?_ofList pairs k
    · intro h
      exact Dictionary.ext_get? fun k => (Dictionary.get?_ofList pairs k).trans (h k).symm
  cases t with
  | object ms =>
    rw [dictionary?, Option.bind_eq_bind, Option.bind_eq_some_iff]
    refine exists_congr fun pairs => and_congr ?_ ?_
    · rw [mapM_texts_eq_some, record, object.injEq, List.map_map]
      rfl
    · rw [← hlast pairs, Option.pure_def, Option.some.injEq]
  | _ => simp [dictionary?, Dictionary.Spelled, record]

end JsonTree

theorem Level.ofName?_eq_some {l : Level} {s : String} : ofName? s = some l ↔ s = l.name := by
  constructor
  · intro h
    unfold ofName? at h
    have hname := List.find?_some h
    exact (beq_iff_eq.mp hname).symm
  · rintro rfl
    exact ofName?_name l

theorem Level.decode?_eq_some {l : Level} {t : JsonTree} : decode? t = some l ↔ l.Spelled t := by
  constructor
  · unfold decode?
    split
    · intro h
      rw [ofName?_eq_some.mp h]
      exact .name
    · intro h
      rw [ofName?_eq_some.mp h]
      exact .keyed
    · intro h
      cases h
  · intro h
    cases h with
    | name => exact ofName?_name l
    | keyed => exact ofName?_name l

theorem JsonTree.gives_iff {asked : List (String × Option JsonTree)}
    {ms : List (JsonString × JsonTree)} (hn : (asked.map (·.1)).Nodup) :
    Gives asked ms ↔ (∀ m ∈ ms, m.1.isSome = true) ∧
      ∀ a ∈ asked, Fields.all ⟨ms⟩ a.1 = a.2.toList :=
  and_congr_right fun _ => (Fields.all_iff_perm hn).symm

/-! ### Records -/

theorem Finding.gives_fields_iff {f : Finding} {level values : JsonTree}
    {ms : List (JsonString × JsonTree)} :
    Gives ((f.fields level values).map fun a => (a.1, some a.2)) ms ↔
      (∀ m ∈ ms, m.1.isSome = true) ∧ ∀ a ∈ f.fields level values, Fields.all ⟨ms⟩ a.1 = [a.2] := by
  have hnames : ["level", "id", "title", "description", "diagnosis", "remediations",
    "variables"].Nodup := by decide
  rw [gives_iff (by exact hnames), List.forall_mem_map]
  rfl

theorem decodeFinding?_object {l : Level} {f : Finding} {ms : List (JsonString × JsonTree)} :
    decodeFinding? (.object ms) = some (l, f) ↔ f.Spelled l (.object ms) := by
  have hfields : decodeFinding? (.object ms) = some (l, f) ↔ ∃ level values, l.Spelled level ∧
      f.values.Spelled values ∧
        Gives ((f.fields level values).map fun a => (a.1, some a.2)) ms := by
    simp only [Finding.gives_fields_iff]
    simp only [decodeFinding?, Option.bind_eq_bind, Option.bind_eq_some_iff, Option.pure_def,
      Option.some.injEq, Prod.mk.injEq, Fields.ofTree?_eq_some, object.injEq,
      Fields.required?_eq_some, text?_eq_some, dictionary?_eq_some, Level.decode?_eq_some,
      Finding.fields, List.forall_mem_cons]
    constructor
    · rintro ⟨_, ⟨rfl, hall⟩, _, ⟨level, hlevel, hl⟩, _, ⟨_, hid, rfl⟩, _, ⟨_, htitle, rfl⟩, _,
        ⟨_, hdescription, rfl⟩, _, ⟨_, hdiagnosis, rfl⟩, _, ⟨_, hremediations, rfl⟩, _,
        ⟨values, hvalues, hv⟩, rfl, rfl⟩
      exact ⟨level, values, hl, hv, hall, hlevel, hid, htitle, hdescription, hdiagnosis,
        hremediations, hvalues, List.forall_mem_nil _⟩
    · rintro ⟨level, values, hl, hv, hall, hlevel, hid, htitle, hdescription, hdiagnosis,
        hremediations, hvalues, -⟩
      exact ⟨⟨ms⟩, ⟨rfl, hall⟩, _, ⟨level, hlevel, hl⟩, _, ⟨_, hid, rfl⟩, _, ⟨_, htitle, rfl⟩, _,
        ⟨_, hdescription, rfl⟩, _, ⟨_, hdiagnosis, rfl⟩, _, ⟨_, hremediations, rfl⟩, _,
        ⟨values, hvalues, hv⟩, rfl, rfl⟩
  rw [hfields]
  constructor
  · rintro ⟨level, values, hl, hv, hms⟩
    exact .object hl hv hms
  · intro h
    cases h with
    | object hl hv hms => exact ⟨_, _, hl, hv, hms⟩

theorem decodeFinding?_eq_some {l : Level} {f : Finding} {t : JsonTree} :
    decodeFinding? t = some (l, f) ↔ f.Spelled l t := by
  constructor
  · intro h
    unfold decodeFinding? at h
    split at h
    · simp only [Option.bind_eq_bind, Option.bind_eq_some_iff, Option.pure_def,
        Option.some.injEq, Prod.mk.injEq, text?_eq_some, dictionary?_eq_some,
        Level.decode?_eq_some] at h
      obtain ⟨_, hl, _, rfl, _, rfl, _, rfl, _, rfl, _, rfl, _, hv, rfl, rfl⟩ := h
      exact .array hl hv
    · obtain ⟨fs, hfs, -⟩ := Option.bind_eq_some_iff.mp h
      obtain ⟨rfl, -⟩ := Fields.ofTree?_eq_some.mp hfs
      exact decodeFinding?_object.mp h
  · intro h
    cases h with
    | array hl hv =>
      simp only [Finding.fields, List.map_cons, List.map_nil, decodeFinding?,
        Level.decode?_eq_some.mpr hl, dictionary?_eq_some.mpr hv]
      rfl
    | object hl hv hms => exact decodeFinding?_object.mpr (.object hl hv hms)

theorem Fields.optional?_bool_eq_some {fs : Fields} {name : String} {x : Bool} :
    fs.optional? name false bool? = some x ↔
      ∃ b : Option Bool, fs.all name = (b.map .bool).toList ∧ b.getD false = x := by
  rw [optional?_eq_some]
  constructor
  · rintro ⟨_ | t, ho, hx⟩
    · exact ⟨none, ho, Option.some.inj hx⟩
    · obtain rfl := bool?_eq_some.mp hx
      exact ⟨some x, ho, rfl⟩
  · rintro ⟨_ | b, hb, rfl⟩
    · exact ⟨none, hb, rfl⟩
    · exact ⟨some (.bool b), hb, rfl⟩

theorem Settings.decode?_object {s : Settings} {ms : List (JsonString × JsonTree)} :
    decode? (.object ms) = some s ↔ s.Spelled (.object ms) := by
  have hfields : decode? (.object ms) = some s ↔ ∃ a p : Option Bool,
      a.getD false = s.allowOverridable ∧ p.getD false = s.parallel ∧
        Gives [("allow_overridable", a.map .bool), ("parallel", p.map .bool)] ms := by
    have hnames : ["allow_overridable", "parallel"].Nodup := by decide
    have hgives (a p : Option Bool) :
        Gives [("allow_overridable", a.map .bool), ("parallel", p.map .bool)] ms ↔ _ :=
      gives_iff hnames
    simp only [decode?, Option.bind_eq_bind, Option.bind_eq_some_iff, Option.pure_def,
      Option.some.injEq, Fields.ofTree?_eq_some, object.injEq, Fields.optional?_bool_eq_some,
      hgives, List.forall_mem_cons]
    constructor
    · rintro ⟨_, ⟨rfl, hall⟩, _, ⟨a, ha, rfl⟩, _, ⟨p, hp, rfl⟩, rfl⟩
      exact ⟨a, p, rfl, rfl, hall, ha, hp, List.forall_mem_nil _⟩
    · rintro ⟨a, p, ha', hp', hall, ha, hp, -⟩
      exact ⟨⟨ms⟩, ⟨rfl, hall⟩, _, ⟨a, ha, ha'⟩, _, ⟨p, hp, hp'⟩, rfl⟩
  rw [hfields]
  constructor
  · rintro ⟨a, p, ha, hp, hms⟩
    exact .object ha hp hms
  · intro h
    cases h with
    | object ha hp hms => exact ⟨_, _, ha, hp, hms⟩

theorem Settings.decode?_array {given : List Bool} (h : given.length ≤ 2) :
    decode? (.array (given.map .bool)) = some ⟨given.getD 0 false, given.getD 1 false⟩ := by
  match given, h with
  | [], _ | [a], _ | [a, p], _ => rfl
  | _ :: _ :: _ :: _, h => simp at h

theorem Settings.decode?_eq_some {s : Settings} {t : JsonTree} :
    decode? t = some s ↔ s.Spelled t := by
  constructor
  · intro h
    unfold decode? at h
    split at h
    · cases h
      exact .array [] (by decide) rfl rfl
    · simp only [Option.bind_eq_bind, Option.bind_eq_some_iff, Option.pure_def,
        bool?_eq_some] at h
      obtain ⟨a, rfl, ⟨⟩⟩ := h
      exact .array [a] (by simp) rfl rfl
    · simp only [Option.bind_eq_bind, Option.bind_eq_some_iff, Option.pure_def,
        bool?_eq_some] at h
      obtain ⟨a, rfl, p, rfl, ⟨⟩⟩ := h
      exact .array [a, p] (by simp) rfl rfl
    · obtain ⟨fs, hfs, -⟩ := Option.bind_eq_some_iff.mp h
      obtain ⟨rfl, -⟩ := Fields.ofTree?_eq_some.mp hfs
      exact decode?_object.mp h
  · intro h
    cases h with
    | array given hlen ha hp => rw [decode?_array hlen, ha, hp]
    | object ha hp hms => exact decode?_object.mpr (.object ha hp hms)

/-! ### Texts -/

def readJson {α : Type} (decode? : JsonTree → Option α) (s : String) : Option α :=
  (parse? s).bind decode?

/-- Values of a kind come back from their compact text, the texts that are read as a value are the
documents that spell it, and what is written of a value that was read is read as the same value. -/
structure RoundTrip {α : Type} (encode : α → JsonTree) (decode? : JsonTree → Option α)
    (Spelled : α → JsonTree → Prop) : Prop where
  printed : ∀ v, readJson decode? (encode v).print = some v
  accepted : ∀ s v, readJson decode? s = some v ↔ ∃ t, parse? s = some t ∧ Spelled v t
  again : ∀ s v, readJson decode? s = some v → readJson decode? (encode v).print = some v

section

variable {α : Type} {encode : α → JsonTree} {decode? : JsonTree → Option α}
  {Spelled : α → JsonTree → Prop}

theorem RoundTrip.of_spelled (hback : ∀ v, (encode v).ReadBack) (hself : ∀ v, Spelled v (encode v))
    (hdecode : ∀ v t, decode? t = some v ↔ Spelled v t) : RoundTrip encode decode? Spelled := by
  have hprinted (v : α) : readJson decode? (encode v).print = some v := by
    rw [readJson, parse?_print (hback v), Option.bind_some, hdecode]
    exact hself v
  refine ⟨hprinted, fun s v => ?_, fun _ v _ => hprinted v⟩
  rw [readJson, Option.bind_eq_some_iff]
  exact exists_congr fun t => and_congr_right fun _ => hdecode v t

end

/-! ### Values -/

theorem JsonTree.gives_record (fields : List (String × JsonTree)) :
    Gives (fields.map fun a => (a.1, some a.2)) (fields.map fun a => (some a.1, a.2)) := by
  constructor
  · rw [List.forall_mem_map]
    exact fun _ _ => rfl
  · apply List.Perm.of_eq
    rw [List.flatMap_map, List.filter_eq_self.mpr, List.map_eq_flatMap]
    · rfl
    · rw [List.forall_mem_map]
      intro a ha
      refine List.any_eq_true.mpr ⟨a.1, ?_, beq_self_eq_true _⟩
      rw [List.map_map]
      exact List.mem_map_of_mem ha

theorem Dictionary.spelled_record (d : Dictionary String) :
    d.Spelled (.record (d.entries.map fun e => (e.1, .text e.2))) := by
  refine ⟨d.entries, rfl, fun k => ?_⟩
  rw [← get?_ofList, ofList_entries]

theorem Finding.spelled_encode (l : Level) (f : Finding) : f.Spelled l (encodeFinding l f) :=
  .object .name f.values.spelled_record (gives_record _)

theorem Finding.readBack_encode (l : Level) (f : Finding) : (encodeFinding l f).ReadBack := by
  have hvalues : (record (f.values.entries.map fun e => (e.1, .text e.2))).ReadBack := by
    apply readBack_record
    rw [List.forall_mem_map]
    exact fun e _ => readBack_text e.2
  apply readBack_record
  simpa [Level.encode, readBack_text] using hvalues

theorem Finding.roundTrip {α : Type} (pack : Level × Finding → α) (unpack : α → Level × Finding)
    (hpack : Function.LeftInverse pack unpack) (hunpack : Function.LeftInverse unpack pack) :
    RoundTrip (fun v => encodeFinding (unpack v).1 (unpack v).2)
      (fun t => (decodeFinding? t).map pack) fun v => (unpack v).2.Spelled (unpack v).1 := by
  refine .of_spelled (fun v => readBack_encode _ _) (fun v => spelled_encode _ _) fun v t => ?_
  rw [Option.map_eq_some_iff, ← decodeFinding?_eq_some]
  constructor
  · rintro ⟨p, hp, rfl⟩
    rwa [hunpack]
  · exact fun h => ⟨unpack v, h, hpack v⟩

theorem Settings.roundTrip : RoundTrip encode decode? Spelled := by
  refine .of_spelled (fun s => ?_) (fun s => ?_) fun s t => decode?_eq_some
  · apply readBack_record
    simp [readBack_bool]
  · exact .object (a := some s.allowOverridable) (p := some s.parallel) rfl rfl
      (gives_record [("allow_overridable", .bool s.allowOverridable),
        ("parallel", .bool s.parallel)])

/-- Results, messages and settings come back from their JSON, however a text spells them. The JSON
of a result is that of its message, and the other way round. -/
theorem json_roundTrip :
    RoundTrip Result.encode Result.decode? (fun r => r.finding.Spelled r.level) ∧
      RoundTrip Message.encode Message.decode? (fun m => m.finding.Spelled m.level) ∧
      RoundTrip Settings.encode Settings.decode? Settings.Spelled ∧
      (∀ r : Result, readJson Message.decode? r.encode.print = some r.toMessage ∧
        r.toMessage.toResult = r) ∧
      ∀ m : Message, readJson Result.decode? m.encode.print = some m.toResult ∧
        m.toResult.toMessage = m := by
  have hresult : RoundTrip Result.encode Result.decode? fun r => r.finding.Spelled r.level :=
    Finding.roundTrip (fun p => Result.mk p.1 p.2) (fun r => (r.level, r.finding)) (fun _ => rfl)
      fun _ => rfl
  have hmessage : RoundTrip Message.encode Message.decode? fun m => m.finding.Spelled m.level :=
    Finding.roundTrip (fun p => Message.mk p.1 p.2) (fun m => (m.level, m.finding)) (fun _ => rfl)
      fun _ => rfl
  refine ⟨hresult, hmessage, Settings.roundTrip, fun r => ⟨?_, rfl⟩, fun m => ⟨?_, rfl⟩⟩
  · exact hmessage.printed r.toMessage
  · exact hresult.printed m.toResult

end Changeover
