import Changeover.Proofs.Files.Place
import Changeover.Proofs.Text.Words
import Changeover.Site

/-!
# Paths below the root

A host path is written again from its components and joined to the root of the site. Nothing but its
steps is left of it, and they are walked after those of the root.
-/

namespace Changeover

namespace Path

open Changeover.Text

/-- What stands in a path for a component between two slashes. -/
structure Written (c : Component) : Prop where
  flat : '/' ∉ c.text.toList
  full : c.text.toList ≠ []
  steps : stepsOf c.text.toList = if c = .here then [] else [c]

theorem written_here : Written .here := ⟨by decide, by decide, by decide⟩

theorem written_of_mem_steps {p : Path} {c : Component} (h : c ∈ p.steps) :
    Written c ∧ c ≠ .root ∧ c ≠ .here := by
  obtain ⟨piece, hp, rfl⟩ := List.mem_map.mp h
  obtain ⟨hpiece, hbusy⟩ := List.mem_filter.mp hp
  by_cases hup : piece = ['.', '.']
  · subst hup
    exact ⟨⟨by decide, by decide, by decide⟩, by decide, by decide⟩
  · have hstep : step piece = .name (String.ofList piece) := by simp [step, hup]
    have hflat : '/' ∉ piece := flat_of_mem_pieces hpiece
    have hname : IsName (String.ofList piece) := by
      refine ⟨?_, ?_, ?_⟩
      · rwa [String.toList_ofList]
      · simpa using hbusy
      · rwa [String.toList_ofList]
    rw [hstep]
    refine ⟨⟨hname.flat, ?_, hname.steps⟩, by simp, by simp⟩
    intro hnil
    rw [Component.text, String.toList_ofList] at hnil
    simp [hnil, isIdle] at hbusy

theorem filter_components (p : Path) : p.components.filter (· != .root) =
    (if p.isAbsolute then [] else if p.startsHere then [.here] else []) ++ p.steps := by
  have hsteps : p.steps.filter (· != .root) = p.steps := by
    rw [List.filter_eq_self]
    intro c hc
    simpa using (written_of_mem_steps hc).2.1
  rw [components, List.filter_append, hsteps]
  congr 1
  split
  · rfl
  · split <;> rfl

theorem stepsOf_glue {cs : List Component} (h : ∀ c ∈ cs, Written c) :
    stepsOf (glue '/' (cs.map fun c => c.text.toList)) = cs.filter (· != .here) := by
  induction cs with
  | nil => rfl
  | cons c cs ih =>
    have hc := h c List.mem_cons_self
    have hrest := ih fun c' hc' => h c' (List.mem_cons_of_mem c hc')
    have hfirst : stepsOf c.text.toList = [c].filter (· != .here) := by
      rw [hc.steps]
      by_cases hhere : c = .here
      · simp [hhere]
      · simp [hhere]
    cases cs with
    | nil => exact hfirst
    | cons c' cs =>
      rw [List.map_cons] at hrest
      rw [List.map_cons, List.map_cons, glue, stepsOf_append, hfirst, hrest, ← List.filter_append]
      rfl

theorem belowRoot_chars (p : Path) : p.belowRoot.text.toList =
    glue '/' ((p.components.filter (· != .root)).map fun c => c.text.toList) := by
  rw [belowRoot, String.toList_intercalate, List.map_map, glue_eq_intercalate]
  rfl

theorem written_of_mem_filter {p : Path} {c : Component}
    (h : c ∈ p.components.filter (· != .root)) : Written c := by
  rw [filter_components, List.mem_append] at h
  rcases h with h | h
  · split at h
    · cases h
    · split at h
      · rw [List.mem_singleton.mp h]
        exact written_here
      · cases h
  · exact (written_of_mem_steps h).1

theorem stepsOf_belowRoot (p : Path) : stepsOf p.belowRoot.text.toList = p.steps := by
  rw [belowRoot_chars, stepsOf_glue fun c hc => written_of_mem_filter hc, filter_components,
    List.filter_append]
  have hsteps : p.steps.filter (· != .here) = p.steps := by
    rw [List.filter_eq_self]
    intro c hc
    simpa using (written_of_mem_steps hc).2.2
  rw [hsteps]
  split
  · rfl
  · split <;> rfl

theorem belowRoot_isAbsolute (p : Path) : p.belowRoot.isAbsolute = false := by
  rw [Bool.eq_false_iff, Ne, isAbsolute_iff, belowRoot_chars]
  cases hcs : p.components.filter (· != .root) with
  | nil => simp [glue]
  | cons c cs =>
    have hc : Written c := written_of_mem_filter (hcs ▸ List.mem_cons_self)
    obtain ⟨d, ds, hd⟩ := List.exists_cons_of_ne_nil hc.full
    intro hslash
    have hfirst : d = '/' := by
      cases cs with
      | nil => simpa [glue, hd] using hslash
      | cons c' cs => simpa [glue, hd] using hslash
    apply hc.flat
    rw [hd, hfirst]
    exact List.mem_cons_self

end Path

namespace Site

variable (s : Site) (p : Path)

theorem path_isAbsolute : (s.path p).isAbsolute = s.root.isAbsolute :=
  Path.isAbsolute_join p.belowRoot_isAbsolute

theorem path_steps : (s.path p).steps = s.root.steps ++ p.steps := by
  rw [Path.steps_eq, path, Path.stepsOf_join p.belowRoot_isAbsolute, p.stepsOf_belowRoot,
    ← Path.steps_eq]

theorem placeFrom_path (d : Location) :
    (s.path p).placeFrom d = p.steps.foldl Component.next (s.root.placeFrom d) := by
  rw [path, Path.placeFrom_join p.belowRoot_isAbsolute, Path.placeFrom_eq, Path.base,
    p.belowRoot_isAbsolute, p.stepsOf_belowRoot]
  rfl

end Site

end Changeover
