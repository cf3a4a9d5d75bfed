import Changeover.Json.Fields
import Mathlib.Data.List.Induction
import Mathlib.Data.List.Nodup
import Mathlib.Data.List.Perm.Basic

/-!
# What an object says

Members may come in any order and among others that nobody asks for. A record asks for fields by
name, each of which may be given once; what it reads depends only on the members of these names.
A dictionary takes all members, and of a name that is repeated the last value.
-/

namespace Changeover

/-! ### Look-ups -/

namespace Dictionary

variable {β : Type} {d e : Dictionary β} {k k' : String} {v v' : β}

theorem names_nodup (d : Dictionary β) : (d.entries.map (·.1)).Nodup := by
  rw [List.Nodup, List.pairwise_map]
  exact d.sorted.imp fun hlt => String.ne_of_lt hlt

theorem eq_of_perm (h : d.entries.Perm e.entries) : d = e := by
  apply ext_entries
  refine h.eq_of_pairwise (fun a b _ _ hab hba => ?_) d.sorted e.sorted
  exact absurd (String.lt_trans hab hba) (String.lt_irrefl _)

theorem mem_insert : (k', v') ∈ (d.insert k v).entries ↔
    k' = k ∧ v' = v ∨ (k', v') ∈ d.entries ∧ k' ≠ k := by
  have hperm : (d.insert k v).entries.Perm ((k, v) :: d.entries.filter (·.1 != k)) :=
    insertEntry_perm k v d.sorted
  rw [hperm.mem_iff, List.mem_cons, List.mem_filter, Prod.mk.injEq, bne_iff_ne]

theorem get?_eq_some_iff : d.get? k = some v ↔ (k, v) ∈ d.entries := by
  rw [get?, Option.map_eq_some_iff]
  constructor
  · rintro ⟨p, hp, rfl⟩
    obtain rfl : p.1 = k := by simpa using List.find?_some hp
    exact List.mem_of_find?_eq_some hp
  · intro h
    have hsome : (d.entries.find? (·.1 == k)).isSome :=
      List.find?_isSome.mpr ⟨(k, v), h, beq_self_eq_true k⟩
    obtain ⟨p, hp⟩ := Option.isSome_iff_exists.mp hsome
    have hk : p.1 = k := by simpa using List.find?_some hp
    refine ⟨p, hp, ?_⟩
    rw [List.inj_on_of_nodup_map d.names_nodup (List.mem_of_find?_eq_some hp) h hk]

theorem ext_get? (h : ∀ k, d.get? k = e.get? k) : d = e := by
  apply eq_of_perm
  rw [List.perm_ext_iff_of_nodup d.names_nodup.of_map e.names_nodup.of_map]
  rintro ⟨k, v⟩
  rw [← get?_eq_some_iff, h, get?_eq_some_iff]

theorem get?_insert : (d.insert k v).get? k' = if k' = k then some v else d.get? k' := by
  apply Option.ext
  intro w
  rw [get?_eq_some_iff, mem_insert, ← get?_eq_some_iff]
  split
  · simp [*, eq_comm]
  · simp [*]

theorem get?_ofList (ps : List (String × β)) (k : String) :
    (ofList ps).get? k = (ps.reverse.find? (·.1 == k)).map (·.2) := by
  induction ps using List.reverseRecOn with
  | nil => rfl
  | append_singleton ps p ih =>
    rw [ofList_concat, get?_insert, ih, List.reverse_append, List.reverse_singleton,
      List.singleton_append, List.find?_cons]
    by_cases hk : k = p.1
    · simp [hk]
    · have hne : (p.1 == k) = false := by simpa using Ne.symm hk
      simp [hk, hne]

theorem entries_ofList_perm {ps : List (String × β)} (hn : (ps.map (·.1)).Nodup) :
    (ofList ps).entries.Perm ps := by
  induction ps using List.reverseRecOn with
  | nil => exact .refl _
  | append_singleton ps p ih =>
    rw [List.map_append, List.map_singleton, List.nodup_append_comm, List.singleton_append,
      List.nodup_cons] at hn
    obtain ⟨hout, hn⟩ := hn
    have hkeep : ps.filter (·.1 != p.1) = ps := by
      rw [List.filter_eq_self]
      intro q hq
      exact bne_iff_ne.mpr fun heq => hout (heq ▸ List.mem_map_of_mem hq)
    rw [ofList_concat]
    have hinsert : ((ofList ps).insert p.1 p.2).entries.Perm
        (p :: (ofList ps).entries.filter (·.1 != p.1)) :=
      insertEntry_perm p.1 p.2 (ofList ps).sorted
    refine (hinsert.trans (((ih hn).filter _).cons p)).trans ?_
    rw [hkeep]
    exact (List.perm_append_singleton p ps).symm

theorem ofList_entries (d : Dictionary β) : ofList d.entries = d :=
  eq_of_perm (entries_ofList_perm d.names_nodup)

end Dictionary

/-! ### Fields in any order -/

namespace JsonTree

def isAmong (names : List String) (m : JsonString × JsonTree) : Bool :=
  names.any fun name => m.1 == some name

/-- An object whose members are all called by a text and which gives these fields and, of the names
asked for, no others. -/
def Gives (asked : List (String × Option JsonTree)) (ms : List (JsonString × JsonTree)) : Prop :=
  (∀ m ∈ ms, m.1.isSome = true) ∧ (ms.filter (isAmong (asked.map (·.1)))).Perm
    (asked.flatMap fun a => a.2.toList.map fun t => (some a.1, t))

end JsonTree

namespace Fields

open JsonTree

variable {ms : List (JsonString × JsonTree)} {asked : List (String × Option JsonTree)}
  {name : String} {t : JsonTree} {α : Type}

theorem map_all (ms : List (JsonString × JsonTree)) (name : String) :
    (all ⟨ms⟩ name).map (fun t => (some name, t)) = ms.filter (·.1 == some name) := by
  rw [all, List.map_map]
  refine (List.map_congr_left fun m hm => ?_).trans (List.map_id _)
  have hname : m.1 = some name := by simpa using (List.mem_filter.mp hm).2
  rw [Function.comp_apply, ← hname]
  rfl

theorem filter_isAmong_cons {names : List String} (hn : name ∉ names)
    (ms : List (JsonString × JsonTree)) : (ms.filter (isAmong (name :: names))).Perm
      (ms.filter (·.1 == some name) ++ ms.filter (isAmong names)) := by
  have hsplit := (List.filter_append_perm (·.1 == some name)
    (ms.filter (isAmong (name :: names)))).symm
  rw [List.filter_filter, List.filter_filter] at hsplit
  refine hsplit.trans (List.Perm.of_eq (congrArg₂ _ ?_ ?_))
  · apply List.filter_congr
    intro m _
    simp only [isAmong, List.any_cons]
    cases m.1 == some name <;> simp
  · apply List.filter_congr
    intro m _
    simp only [isAmong, List.any_cons]
    cases hm : m.1 == some name with
    | false => simp
    | true =>
      have hout : ∀ other ∈ names, ¬ name = other := fun other h heq => hn (heq ▸ h)
      simpa [beq_iff_eq.mp hm] using hout

theorem perm_append_iff {β : Type} {p : β → Bool} {as as' bs bs' : List β}
    (ha : ∀ x ∈ as ++ as', p x = true) (hb : ∀ x ∈ bs ++ bs', ¬ p x = true) :
    (as ++ bs).Perm (as' ++ bs') ↔ as.Perm as' ∧ bs.Perm bs' := by
  rw [List.forall_mem_append] at ha hb
  constructor
  · intro h
    have hleft := h.filter p
    rw [List.filter_append, List.filter_append, List.filter_eq_self.mpr ha.1,
      List.filter_eq_self.mpr ha.2, List.filter_eq_nil_iff.mpr hb.1,
      List.filter_eq_nil_iff.mpr hb.2, List.append_nil, List.append_nil] at hleft
    exact ⟨hleft, (List.perm_append_left_iff as').mp ((hleft.append_right bs).symm.trans h)⟩
  · exact fun h => h.1.append h.2

/-- Asking for fields one by one comes to the same as picking out the members of these names. -/
theorem all_iff_perm (hn : (asked.map (·.1)).Nodup) :
    (∀ a ∈ asked, all ⟨ms⟩ a.1 = a.2.toList) ↔
      (ms.filter (isAmong (asked.map (·.1)))).Perm
        (asked.flatMap fun a => a.2.toList.map fun t => (some a.1, t)) := by
  induction asked with
  | nil => simp [isAmong]
  | cons a asked ih =>
    obtain ⟨hout, hn⟩ := List.nodup_cons.mp hn
    have hfirst : all ⟨ms⟩ a.1 = a.2.toList ↔
        (ms.filter (·.1 == some a.1)).Perm (a.2.toList.map fun t => (some a.1, t)) := by
      rw [← map_all, List.map_perm_map_iff fun _ _ h => (Prod.mk.inj h).2]
      cases a.2 with
      | none => simp
      | some t => simp
    have hother {b : String} (hb : b ∈ asked.map (·.1)) : b ≠ a.1 := by
      rintro rfl
      exact hout hb
    rw [List.forall_mem_cons, ih hn, hfirst, List.map_cons, List.flatMap_cons,
      (filter_isAmong_cons hout ms).congr_left, perm_append_iff (p := (·.1 == some a.1))]
    · rw [List.forall_mem_append]
      constructor
      · exact fun m hm => (List.mem_filter.mp hm).2
      · rintro _ hm
        obtain ⟨t, -, rfl⟩ := List.mem_map.mp hm
        exact beq_self_eq_true _
    · rw [List.forall_mem_append]
      constructor
      · intro m hm hself
        obtain ⟨b, hb, hname⟩ := List.any_eq_true.mp (List.mem_filter.mp hm).2
        rw [beq_iff_eq] at hself hname
        exact hother hb (Option.some.inj (hname.symm.trans hself))
      · intro m hm hself
        obtain ⟨b, hb, hm⟩ := List.mem_flatMap.mp hm
        obtain ⟨t, -, rfl⟩ := List.mem_map.mp hm
        exact hother (List.mem_map_of_mem hb) (Option.some.inj (beq_iff_eq.mp hself))

theorem ofTree?_eq_some {f : Fields} :
    ofTree? t = some f ↔ t = .object f.members ∧ ∀ m ∈ f.members, m.1.isSome = true := by
  cases t with
  | object ms =>
    rw [ofTree?, object.injEq]
    by_cases h : ms.all (·.1.isSome) = true
    · rw [if_pos h, Option.some.injEq]
      constructor
      · rintro rfl
        exact ⟨rfl, List.all_eq_true.mp h⟩
      · rintro ⟨rfl, -⟩
        rfl
    · rw [if_neg h]
      constructor
      · intro hnone
        cases hnone
      · rintro ⟨rfl, hall⟩
        exact absurd (List.all_eq_true.mpr hall) h
  | _ => simp [ofTree?]

theorem required?_eq_some {f : Fields} {decode : JsonTree → Option α} {x : α} :
    f.required? name decode = some x ↔ ∃ t, f.all name = [t] ∧ decode t = some x := by
  unfold required?
  split
  · simp [*]
  · rename_i h
    simp only [reduceCtorEq, false_iff, not_exists, not_and]
    exact fun t ht => absurd ht (h t)

theorem optional?_eq_some {f : Fields} {dflt x : α} {decode : JsonTree → Option α} :
    f.optional? name dflt decode = some x ↔
      ∃ o : Option JsonTree, f.all name = o.toList ∧ o.elim (some dflt) decode = some x := by
  unfold optional?
  split
  · rename_i hnone
    rw [hnone, Option.exists]
    simp
  · rename_i t hone
    rw [hone, Option.exists]
    simp
  · rename_i hnone hone
    rw [Option.exists]
    constructor
    · intro h
      cases h
    · rintro (⟨h, -⟩ | ⟨t, h, -⟩)
      · exact (hnone h).elim
      · exact (hone t h).elim

end Fields

end Changeover
