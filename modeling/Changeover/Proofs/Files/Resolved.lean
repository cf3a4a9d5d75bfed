import Changeover.Proofs.Files.Below

/-!
# Paths resolved by their text

`.` and `..` can be resolved without a look at any file. What is left of a path is how often it
climbs above where it starts and the names it goes down from there. A path below the root of a site
climbs over the names of the root first.
-/

namespace Changeover

/-- What is left of a path. Nothing is above the root, so an absolute path does not climb. -/
structure Resolved where
  absolute : Bool := false
  ups : Nat := 0
  names : List String := []
  deriving DecidableEq, Repr

namespace Resolved

def next (r : Resolved) : Component → Resolved
  | .root => { absolute := true }
  | .here => r
  | .up =>
    if r.names ≠ [] then { r with names := r.names.dropLast }
    else if r.absolute then r
    else { r with ups := r.ups + 1 }
  | .name s => { r with names := r.names ++ [s] }

/-- The one is the other or lies above it. -/
def Encloses (r q : Resolved) : Prop :=
  q.absolute = r.absolute ∧ q.ups = r.ups ∧ r.names <+: q.names

instance (r q : Resolved) : Decidable (r.Encloses q) :=
  inferInstanceAs (Decidable (_ ∧ _ ∧ _))

/-- Go on with what is left of a relative path. It climbs over the names first. -/
def andThen (r q : Resolved) : Resolved where
  absolute := r.absolute
  ups := if r.absolute then r.ups else r.ups + (q.ups - r.names.length)
  names := r.names.take (r.names.length - q.ups) ++ q.names

def placeFrom (d : Location) (r : Resolved) : Location :=
  (if r.absolute then [] else d.take (d.length - r.ups)) ++ r.names

variable {r q : Resolved}

theorem next_absolute {c : Component} (hc : c ≠ .root) : (r.next c).absolute = r.absolute := by
  cases c with
  | root => exact absurd rfl hc
  | here => rfl
  | up =>
    simp only [next]
    split
    · rfl
    · split <;> rfl
  | name s => rfl

theorem ups_le_next {c : Component} (hc : c ≠ .root) : r.ups ≤ (r.next c).ups := by
  cases c with
  | root => exact absurd rfl hc
  | here => exact Nat.le_refl r.ups
  | name s => exact Nat.le_refl r.ups
  | up =>
    simp only [next]
    split
    · exact Nat.le_refl r.ups
    · split
      · exact Nat.le_refl r.ups
      · exact Nat.le_succ r.ups

theorem ups_le_foldl {cs : List Component} (hcs : .root ∉ cs) (r : Resolved) :
    r.ups ≤ (cs.foldl next r).ups := by
  induction cs generalizing r with
  | nil => exact Nat.le_refl r.ups
  | cons c cs ih =>
    rw [List.mem_cons, not_or] at hcs
    exact Nat.le_trans (ups_le_next (Ne.symm hcs.1)) (ih hcs.2 (r.next c))

theorem next_andThen (hq : q.absolute = false) {c : Component} (hc : c ≠ .root) :
    (r.andThen q).next c = r.andThen (q.next c) := by
  cases c with
  | root => exact absurd rfl hc
  | here => rfl
  | name s => simp [next, andThen]
  | up =>
    by_cases hnames : q.names = []
    · by_cases hover : r.names.length ≤ q.ups
      · -- all names of `r` have been climbed over
        have hnone : r.names.take (r.names.length - q.ups) = [] := by
          rw [Nat.sub_eq_zero_of_le hover, List.take_zero]
        have hnone' : r.names.take (r.names.length - (q.ups + 1)) = [] := by
          rw [Nat.sub_eq_zero_of_le (Nat.le_succ_of_le hover), List.take_zero]
        by_cases ha : r.absolute = true
        · simp [next, andThen, hnames, hq, ha, hnone, hnone']
        · have hups : r.ups + (q.ups - r.names.length) + 1 =
              r.ups + (q.ups + 1 - r.names.length) := by omega
          simp [next, andThen, hnames, hq, ha, hnone, hnone', hups]
      · have hsome : r.names.take (r.names.length - q.ups) ≠ [] := by
          rw [← List.length_pos_iff, List.length_take]
          omega
        have hups : q.ups - r.names.length = q.ups + 1 - r.names.length := by omega
        have hlast : (r.names.take (r.names.length - q.ups)).dropLast =
            r.names.take (r.names.length - (q.ups + 1)) := by
          rw [List.dropLast_eq_take, List.take_take, List.length_take]
          congr 1
          omega
        simp [next, andThen, hnames, hq, hsome, hups, hlast]
    · simp [next, andThen, hnames, List.dropLast_append_of_ne_nil]

theorem foldl_next {cs : List Component} (hcs : .root ∉ cs) (r : Resolved) :
    cs.foldl next r = r.andThen (cs.foldl next {}) := by
  have hgo (q : Resolved) (hq : q.absolute = false) :
      cs.foldl next (r.andThen q) = r.andThen (cs.foldl next q) := by
    induction cs generalizing q with
    | nil => rfl
    | cons c cs ih =>
      rw [List.mem_cons, not_or] at hcs
      have hc : c ≠ .root := Ne.symm hcs.1
      rw [List.foldl_cons, List.foldl_cons, next_andThen hq hc]
      exact ih hcs.2 (q.next c) ((next_absolute hc).trans hq)
  have hidle : r.andThen {} = r := by simp [andThen]
  rw [← hgo {} rfl, hidle]

/-- What goes on from `r` stays below exactly if it goes down again by the names that it has
climbed over. -/
theorem encloses_andThen : r.Encloses (r.andThen q) ↔
    (r.absolute = true ∨ q.ups ≤ r.names.length) ∧
      r.names.drop (r.names.length - q.ups) <+: q.names := by
  have hups : (r.andThen q).ups = r.ups ↔ r.absolute = true ∨ q.ups ≤ r.names.length := by
    by_cases ha : r.absolute = true
    · simp [andThen, ha]
    · simp only [andThen, ha, if_false, false_or, Bool.false_eq_true]
      omega
  have hnames : r.names <+: (r.andThen q).names ↔
      r.names.drop (r.names.length - q.ups) <+: q.names := by
    refine Iff.trans ?_ (List.prefix_append_right_inj (r.names.take (r.names.length - q.ups)))
    rw [List.take_append_drop]
    rfl
  rw [Encloses, hups, hnames]
  exact and_iff_right rfl

theorem Encloses.place (h : r.Encloses q) (d : Location) : r.placeFrom d <+: q.placeFrom d := by
  obtain ⟨habsolute, hups, hnames⟩ := h
  rw [placeFrom, placeFrom, habsolute, hups]
  exact (List.prefix_append_right_inj _).mpr hnames

end Resolved

theorem names_foldl_next (cs : List Component) (l : Location) :
    (cs.foldl Resolved.next ⟨true, 0, l⟩).names = cs.foldl Component.next l := by
  induction cs generalizing l with
  | nil => rfl
  | cons c cs ih =>
    have hnext : Resolved.next ⟨true, 0, l⟩ c = ⟨true, 0, c.next l⟩ := by
      cases c with
      | root => rfl
      | here => rfl
      | up =>
        by_cases hl : l = []
        · simp [Resolved.next, Component.next, hl]
        · simp [Resolved.next, Component.next, hl]
      | name s => rfl
    rw [List.foldl_cons, List.foldl_cons, hnext, ih]

/-- Steps lead up as often as they climb and then down by the names that are left. -/
theorem foldl_next_place {cs : List Component} (hcs : .root ∉ cs) (l : Location) :
    cs.foldl Component.next l = l.take (l.length - (cs.foldl Resolved.next {}).ups) ++
      (cs.foldl Resolved.next {}).names := by
  rw [← names_foldl_next, Resolved.foldl_next hcs]
  rfl

/-- Steps that never climb above where they start. -/
structure Descends (cs : List Component) : Prop where
  rootless : .root ∉ cs
  ups : (cs.foldl Resolved.next {}).ups = 0

namespace Descends

variable {cs ds : List Component}

theorem below (h : Descends cs) (l : Location) : l <+: cs.foldl Component.next l := by
  rw [foldl_next_place h.rootless, h.ups, Nat.sub_zero, List.take_length]
  exact List.prefix_append l _

theorem of_prefix (h : Descends cs) (hds : ds <+: cs) : Descends ds := by
  obtain ⟨es, rfl⟩ := hds
  obtain ⟨hds, hes⟩ := not_or.mp (List.mem_append.not.mp h.rootless)
  have hle := Resolved.ups_le_foldl hes (ds.foldl Resolved.next {})
  rw [← List.foldl_append, h.ups] at hle
  exact ⟨hds, Nat.le_zero.mp hle⟩

end Descends

namespace Path

def resolved (p : Path) : Resolved := p.components.foldl Resolved.next {}

def descent (p : Path) : Resolved := p.steps.foldl Resolved.next {}

/-- A path that never climbs above where it starts. -/
def Grounded (p : Path) : Prop := p.descent.ups = 0

instance (p : Path) : Decidable p.Grounded := inferInstanceAs (Decidable (_ = _))

theorem root_not_mem_steps (p : Path) : .root ∉ p.steps := fun h =>
  (written_of_mem_steps h).2.1 rfl

theorem resolved_eq (p : Path) :
    p.resolved = p.steps.foldl Resolved.next { absolute := p.isAbsolute } := by
  unfold resolved components
  split
  · rename_i ha
    rw [ha]
    rfl
  · rename_i ha
    rw [Bool.not_eq_true] at ha
    rw [ha]
    split <;> rfl

theorem Grounded.descends {p : Path} (h : p.Grounded) : Descends p.steps :=
  ⟨p.root_not_mem_steps, h⟩

theorem placeFrom_eq_resolved (p : Path) (d : Location) :
    p.placeFrom d = p.resolved.placeFrom d := by
  rw [resolved_eq, Resolved.foldl_next p.root_not_mem_steps, placeFrom_eq, ← steps_eq,
    foldl_next_place p.root_not_mem_steps, base]
  by_cases ha : p.isAbsolute = true
  · simp [Resolved.placeFrom, Resolved.andThen, ha]
  · simp [Resolved.placeFrom, Resolved.andThen, ha]

end Path

namespace Site

variable (s : Site) (p : Path)

theorem resolved_path : (s.path p).resolved = s.root.resolved.andThen p.descent := by
  rw [Path.resolved_eq, path_isAbsolute, path_steps, List.foldl_append, ← Path.resolved_eq,
    Resolved.foldl_next p.root_not_mem_steps, Path.descent]

/-- A path is below the root exactly if it goes down again by the names of the root that it has
climbed over. -/
theorem encloses_path_iff : s.root.resolved.Encloses (s.path p).resolved ↔
    (s.root.isAbsolute = true ∨ p.descent.ups ≤ s.root.resolved.names.length) ∧
      s.root.resolved.names.drop (s.root.resolved.names.length - p.descent.ups) <+:
        p.descent.names := by
  have ha : s.root.resolved.absolute = s.root.isAbsolute := by
    rw [Path.resolved_eq, Resolved.foldl_next s.root.root_not_mem_steps]
    rfl
  rw [resolved_path, Resolved.encloses_andThen, ha]

variable {p} in
theorem encloses_path_of_grounded (h : p.Grounded) :
    s.root.resolved.Encloses (s.path p).resolved := by
  rw [encloses_path_iff, show p.descent.ups = 0 from h]
  simp

end Site

end Changeover
