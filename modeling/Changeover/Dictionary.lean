/-!
# Dictionaries sorted by key

A finite map from names to values, kept as the list of its entries in ascending order of the
names. Two dictionaries with the same look-ups are equal, and printing one needs no sorting.
This module does not balance anything; look-up walks the list.
-/

namespace Changeover

/-- Entries in strictly ascending order of their names. -/
structure Dictionary (β : Type) where
  entries : List (String × β)
  sorted : entries.Pairwise (fun a b => a.1 < b.1)

namespace Dictionary

variable {β : Type}

instance [DecidableEq β] : DecidableEq (Dictionary β) := fun a b =>
  if h : a.entries = b.entries then
    .isTrue (by cases a; cases b; cases h; rfl)
  else
    .isFalse (fun e => h (e ▸ rfl))

theorem ext_entries {a b : Dictionary β} (h : a.entries = b.entries) : a = b := by
  cases a; cases b; cases h; rfl

def empty : Dictionary β := ⟨[], .nil⟩

instance : Inhabited (Dictionary β) := ⟨empty⟩

/-- Put a value under a name into a sorted list; a value already there is replaced. -/
def insertEntry (k : String) (v : β) : List (String × β) → List (String × β)
  | [] => [(k, v)]
  | e :: es =>
    if k < e.1 then (k, v) :: e :: es
    else if k = e.1 then (k, v) :: es
    else e :: insertEntry k v es

theorem mem_insertEntry {k : String} {v : β} {es : List (String × β)} {p : String × β}
    (h : p ∈ insertEntry k v es) : p = (k, v) ∨ p ∈ es := by
  induction es with
  | nil => simpa [insertEntry] using h
  | cons e es ih =>
    simp only [insertEntry] at h
    split at h
    · simpa using h
    · split at h
      · rcases List.mem_cons.mp h with h | h
        · exact .inl h
        · exact .inr (List.mem_cons_of_mem e h)
      · rcases List.mem_cons.mp h with h | h
        · exact .inr (h ▸ List.mem_cons_self)
        · rcases ih h with h | h
          · exact .inl h
          · exact .inr (List.mem_cons_of_mem e h)

theorem pairwise_insertEntry (k : String) (v : β) {es : List (String × β)}
    (h : es.Pairwise (fun a b => a.1 < b.1)) :
    (insertEntry k v es).Pairwise (fun a b => a.1 < b.1) := by
  induction es with
  | nil => simp [insertEntry]
  | cons e es ih =>
    obtain ⟨he, hs⟩ := List.pairwise_cons.mp h
    simp only [insertEntry]
    split
    · next hlt =>
      refine List.pairwise_cons.mpr ⟨fun p hp => ?_, h⟩
      rcases List.mem_cons.mp hp with rfl | hp
      · exact hlt
      · exact String.lt_trans hlt (he p hp)
    · next hnlt =>
      split
      · next heq =>
        exact List.pairwise_cons.mpr ⟨fun p hp => heq ▸ he p hp, hs⟩
      · next hne =>
        refine List.pairwise_cons.mpr ⟨fun p hp => ?_, ih hs⟩
        rcases mem_insertEntry hp with rfl | hp
        · exact Std.lt_of_le_of_ne (String.not_lt.mp hnlt) (Ne.symm hne)
        · exact he p hp

theorem insertEntry_perm (k : String) (v : β) {es : List (String × β)}
    (h : es.Pairwise (fun a b => a.1 < b.1)) :
    (insertEntry k v es).Perm ((k, v) :: es.filter (·.1 != k)) := by
  induction es with
  | nil => exact .refl _
  | cons e es ih =>
    obtain ⟨he, hs⟩ := List.pairwise_cons.mp h
    have hrest (hle : ∀ p ∈ es, k < p.1) : es.filter (·.1 != k) = es := by
      rw [List.filter_eq_self]
      intro p hp
      exact bne_iff_ne.mpr (String.ne_of_lt (hle p hp)).symm
    have hhead (hne : k ≠ e.1) : (e :: es).filter (·.1 != k) = e :: es.filter (·.1 != k) :=
      List.filter_cons_of_pos (bne_iff_ne.mpr hne.symm)
    simp only [insertEntry]
    split
    · next hlt =>
      rw [hhead (String.ne_of_lt hlt), hrest fun p hp => String.lt_trans hlt (he p hp)]
    · split
      · next heq =>
        subst heq
        have hout : (e :: es).filter (·.1 != e.1) = es.filter (·.1 != e.1) :=
          List.filter_cons_of_neg (by simp)
        rw [hout, hrest he]
      · next hne =>
        rw [hhead hne]
        exact ((ih hs).cons e).trans (.swap ..)

def insert (d : Dictionary β) (k : String) (v : β) : Dictionary β :=
  ⟨insertEntry k v d.entries, pairwise_insertEntry k v d.sorted⟩

/-- Insert pairs from left to right, so the last value of a name stays. -/
def ofList (ps : List (String × β)) : Dictionary β :=
  ps.foldl (fun d p => d.insert p.1 p.2) empty

theorem ofList_concat (ps : List (String × β)) (p : String × β) :
    ofList (ps ++ [p]) = (ofList ps).insert p.1 p.2 := by
  simp [ofList, List.foldl_append]

def get? (d : Dictionary β) (k : String) : Option β :=
  (d.entries.find? (·.1 == k)).map (·.2)

end Dictionary

end Changeover
