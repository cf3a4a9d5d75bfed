import Changeover.Files.System

/-!
# Where paths lead

Without links a path leads to one location whatever the tree is, if it leads anywhere. A name joined
to a path leads one level down, and so a path with a name leads one level below its parent.
-/

namespace Changeover

def Component.next (l : Location) : Component → Location
  | .root => []
  | .here => l
  | .up => l.dropLast
  | .name s => l ++ [s]

theorem foldl_next_subset (cs : List Component) (l : Location) {s : String}
    (h : s ∈ cs.foldl Component.next l) : s ∈ l ∨ .name s ∈ cs := by
  induction cs generalizing l with
  | nil => exact Or.inl h
  | cons c cs ih =>
    rcases ih (c.next l) h with hs | hs
    · cases c with
      | root => cases hs
      | here => exact Or.inl hs
      | up => exact Or.inl (List.dropLast_subset l hs)
      | name n =>
        rcases List.mem_append.mp hs with hs | hs
        · exact Or.inl hs
        · obtain rfl := List.mem_singleton.mp hs
          exact Or.inr List.mem_cons_self
    · exact Or.inr (List.mem_cons_of_mem c hs)

namespace Path

open Changeover.Text

/-- The location a path leads to from a working directory. -/
def placeFrom (d : Location) (p : Path) : Location := p.components.foldl Component.next d

def stepsOf (cs : List Char) : List Component :=
  ((cut (· == '/') cs).filter (!isIdle ·)).map step

theorem stepsOf_append (cs ds : List Char) :
    stepsOf (cs ++ '/' :: ds) = stepsOf cs ++ stepsOf ds := by
  rw [stepsOf, cut_append (· == '/') rfl, List.filter_append, List.map_append]
  rfl

theorem stepsOf_slash (cs : List Char) : stepsOf ('/' :: cs) = stepsOf cs :=
  stepsOf_append [] cs

theorem chars_of_isAbsolute {p : Path} (h : p.isAbsolute = true) :
    ∃ cs, p.text.toList = '/' :: cs := by
  unfold isAbsolute at h
  rw [beq_iff_eq] at h
  exact List.head?_eq_some_iff.mp h

/-- A leading slash or a leading `.` is no step. -/
theorem steps_eq (p : Path) : p.steps = stepsOf p.text.toList := by
  unfold steps pieces head
  split
  · obtain ⟨cs, hcs⟩ := chars_of_isAbsolute ‹_›
    rw [hcs]
    exact (stepsOf_slash cs).symm
  · split
    · rename_i hs
      have hfirst : (cut (· == '/') p.text.toList).head? = some ['.'] := by
        simp only [startsHere, Bool.and_eq_true, beq_iff_eq] at hs
        exact hs.2
      cases hcs : p.text.toList with
      | nil => rfl
      | cons c cs =>
        rw [hcs, cut] at hfirst
        split at hfirst
        · simp at hfirst
        · rename_i hc
          cases hq : cut (· == '/') cs with
          | nil => exact absurd hq (cut_ne_nil _ _)
          | cons q qs =>
            rw [hq] at hfirst
            obtain ⟨rfl, rfl⟩ : c = '.' ∧ q = [] := by simpa using hfirst
            simp [stepsOf, cut, hq, isIdle]
    · rfl

theorem components_of_isAbsolute {p : Path} (h : p.isAbsolute = true) :
    p.components = .root :: p.steps := by
  rw [components, if_pos h]
  rfl

/-- Where the steps of a path begin. -/
def base (d : Location) (p : Path) : Location := if p.isAbsolute then [] else d

theorem placeFrom_eq (d : Location) (p : Path) :
    p.placeFrom d = (stepsOf p.text.toList).foldl Component.next (p.base d) := by
  unfold placeFrom components base
  rw [steps_eq]
  split
  · rfl
  · split
    · rfl
    · rfl

theorem mem_placeFrom {p : Path} (h : p.isAbsolute = true) {d : Location} {s : String}
    (hs : s ∈ p.placeFrom d) : .name s ∈ p.steps := by
  rw [placeFrom_eq, base, if_pos h, ← steps_eq] at hs
  exact (foldl_next_subset p.steps [] hs).resolve_left List.not_mem_nil

theorem placeFrom_of_isAbsolute {p : Path} (h : p.isAbsolute = true) (d d' : Location) :
    p.placeFrom d = p.placeFrom d' := by
  rw [placeFrom_eq, placeFrom_eq, base, base, if_pos h, if_pos h]

theorem isAbsolute_iff {p : Path} : p.isAbsolute = true ↔ p.text.toList.head? = some '/' := by
  rw [isAbsolute, beq_iff_eq]

theorem join_chars {p q : Path} (hq : q.isAbsolute = false) (hp : p.text ≠ "") :
    ∃ cs, (p.join q).text.toList = cs ++ '/' :: q.text.toList ∧
      (p.text.toList = cs ++ ['/'] ∨ p.text.toList = cs ∧ cs ≠ []) := by
  by_cases hslash : p.text.toList.getLast? = some '/'
  · obtain ⟨cs, hcs⟩ := List.getLast?_eq_some_iff.mp hslash
    exact ⟨cs, by simp [join, hq, hcs], Or.inl hcs⟩
  · have hne : p.text.toList ≠ [] := by simpa using hp
    exact ⟨p.text.toList, by simp [join, hq, hslash, hp], Or.inr ⟨rfl, hne⟩⟩

theorem join_of_empty {p q : Path} (hq : q.isAbsolute = false) (hp : p.text = "") :
    p.join q = q := by
  simp [join, hq, hp]

theorem stepsOf_join {p q : Path} (hq : q.isAbsolute = false) :
    stepsOf (p.join q).text.toList = stepsOf p.text.toList ++ stepsOf q.text.toList := by
  by_cases hp : p.text = ""
  · rw [join_of_empty hq hp, hp]
    rfl
  · obtain ⟨cs, hjoin, hcs⟩ := join_chars hq hp
    rw [hjoin, stepsOf_append]
    rcases hcs with hcs | ⟨hcs, -⟩
    · rw [hcs, stepsOf_append]
      simp [stepsOf, cut, isIdle]
    · rw [hcs]

theorem isAbsolute_join {p q : Path} (hq : q.isAbsolute = false) :
    (p.join q).isAbsolute = p.isAbsolute := by
  by_cases hp : p.text = ""
  · rw [join_of_empty hq hp, hq]
    simp [isAbsolute, hp]
  · obtain ⟨cs, hjoin, hcs⟩ := join_chars hq hp
    rw [Bool.eq_iff_iff, isAbsolute_iff, isAbsolute_iff, hjoin]
    rcases hcs with hcs | ⟨hcs, hne⟩
    · rw [hcs]
      cases cs with
      | nil => rfl
      | cons c cs => rfl
    · rw [hcs]
      cases cs with
      | nil => exact absurd rfl hne
      | cons c cs => rfl

/-- Joining a relative path is to go on from where the first one leads. -/
theorem placeFrom_join {p q : Path} (hq : q.isAbsolute = false) (d : Location) :
    (p.join q).placeFrom d = q.placeFrom (p.placeFrom d) := by
  rw [placeFrom_eq d, stepsOf_join hq, List.foldl_append, base, isAbsolute_join hq,
    placeFrom_eq (p.placeFrom d), placeFrom_eq d, base, base, hq]
  rfl

/-! ### Names -/

/-- A text that is one step down when it is taken as a path. -/
structure IsName (s : String) : Prop where
  flat : '/' ∉ s.toList
  busy : isIdle s.toList = false
  down : s.toList ≠ ['.', '.']

instance (s : String) : Decidable (IsName s) :=
  decidable_of_iff ('/' ∉ s.toList ∧ isIdle s.toList = false ∧ s.toList ≠ ['.', '.'])
    ⟨fun ⟨hflat, hbusy, hdown⟩ => ⟨hflat, hbusy, hdown⟩, fun h => ⟨h.flat, h.busy, h.down⟩⟩

theorem IsName.steps {s : String} (h : IsName s) : stepsOf s.toList = [.name s] := by
  have hcut : cut (· == '/') s.toList = [s.toList] := by
    apply cut_of_not_sep
    intro c hc
    refine beq_eq_false_iff_ne.mpr ?_
    rintro rfl
    exact h.flat hc
  simp [stepsOf, hcut, h.busy, step, h.down]

theorem IsName.isAbsolute {s : String} (h : IsName s) : isAbsolute ⟨s⟩ = false := by
  rw [Bool.eq_false_iff, Ne, isAbsolute_iff]
  intro hs
  exact h.flat (List.mem_of_head? hs)

theorem placeFrom_join_name {s : String} (h : IsName s) (p : Path) (d : Location) :
    (p.join ⟨s⟩).placeFrom d = p.placeFrom d ++ [s] := by
  rw [placeFrom_join h.isAbsolute, placeFrom_eq (p.placeFrom d), h.steps, base, h.isAbsolute]
  rfl

theorem filter_trimmedPieces (ps : List (List Char)) :
    (trimmedPieces ps).filter (!isIdle ·) = ps.filter (!isIdle ·) := by
  have hskip (qs : List (List Char)) :
      (qs.dropWhile isIdle).filter (!isIdle ·) = qs.filter (!isIdle ·) := by
    induction qs with
    | nil => rfl
    | cons q qs ih =>
      by_cases hq : isIdle q = true
      · rw [List.dropWhile_cons_of_pos hq, ih, List.filter_cons_of_neg (by simp [hq])]
      · rw [List.dropWhile_cons_of_neg hq]
  rw [trimmedPieces, List.filter_reverse, hskip, List.filter_reverse, List.reverse_reverse]

theorem exists_last_of_trimmedPieces {ps : List (List Char)} (h : trimmedPieces ps ≠ []) :
    ∃ qs q, trimmedPieces ps = qs ++ [q] ∧ isIdle q = false := by
  obtain ⟨qs, q, hq⟩ := List.eq_nil_or_concat (trimmedPieces ps) |>.resolve_left h
  refine ⟨qs, q, by simpa using hq, ?_⟩
  have hne : ps.reverse.dropWhile isIdle ≠ [] := by
    intro hnil
    exact h (by rw [trimmedPieces, hnil, List.reverse_nil])
  have hhead := List.head_dropWhile_not isIdle hne
  have hfirst : (ps.reverse.dropWhile isIdle).head hne = q := by
    have hrev : ps.reverse.dropWhile isIdle = q :: qs.reverse := by
      rw [← List.reverse_reverse (ps.reverse.dropWhile isIdle)]
      change (trimmedPieces ps).reverse = _
      rw [hq]
      simp
    simp [hrev]
  rwa [hfirst] at hhead

/-! ### Parents -/

theorem stepsOf_glue_pieces {qs : List (List Char)} (h : ∀ q ∈ qs, '/' ∉ q) :
    stepsOf (glue '/' qs) = (qs.filter (!isIdle ·)).map step := by
  cases qs with
  | nil => rfl
  | cons q qs => rw [stepsOf, cut_glue (List.cons_ne_nil q qs) h]

theorem flat_of_mem_pieces {p : Path} {q : List Char} (h : q ∈ p.pieces) : '/' ∉ q := by
  intro hslash
  have hsep := not_sep_of_mem_cut h hslash
  simp at hsep

theorem pieces_of_startsHere {p : Path} (h : p.startsHere = true) :
    ∃ rest, p.pieces = [] :: rest := by
  simp only [startsHere, Bool.and_eq_true, Bool.not_eq_true', beq_iff_eq] at h
  obtain ⟨habs, hfirst⟩ := h
  have hhead : p.head = ['.'] := by simp [head, startsHere, habs, hfirst]
  obtain ⟨rest, hrest⟩ := List.head?_eq_some_iff.mp hfirst
  have htext := glue_cut '/' p.text.toList
  rw [hrest] at htext
  rw [pieces, hhead, ← htext]
  cases rest with
  | nil => exact ⟨[], rfl⟩
  | cons q qs => exact ⟨cut (· == '/') (glue '/' (q :: qs)), rfl⟩

section

variable {p : Path} {qs : List (List Char)}

theorem stepsOf_head_append (h : qs <+: p.pieces) :
    stepsOf (p.head ++ glue '/' qs) = (qs.filter (!isIdle ·)).map step := by
  have hflat : ∀ q ∈ qs, '/' ∉ q := fun q hq => flat_of_mem_pieces (h.subset hq)
  rw [← stepsOf_glue_pieces hflat]
  unfold head
  split
  · exact stepsOf_slash _
  · split
    · rename_i hhere
      obtain ⟨rest, hrest⟩ := pieces_of_startsHere hhere
      rw [hrest] at h
      rcases qs with - | ⟨q, - | ⟨r, qs⟩⟩
      · rfl
      · obtain rfl := (List.cons_prefix_cons.mp h).1
        rfl
      · obtain rfl := (List.cons_prefix_cons.mp h).1
        exact (stepsOf_append ['.'] _).trans (stepsOf_slash _).symm
    · rfl

theorem isAbsolute_head_append (h : qs <+: p.pieces) :
    isAbsolute ⟨String.ofList (p.head ++ glue '/' qs)⟩ = p.isAbsolute := by
  by_cases habs : p.isAbsolute = true
  · rw [head, if_pos habs, habs, isAbsolute_iff, String.toList_ofList]
    rfl
  · rw [Bool.not_eq_true] at habs
    by_cases hhere : p.startsHere = true
    · have hhead : p.head = ['.'] := by simp [head, habs, hhere]
      rw [hhead, habs, isAbsolute, String.toList_ofList]
      rfl
    · have hhead : p.head = [] := by simp [head, habs, hhere]
      rw [habs, Bool.eq_false_iff, Ne, isAbsolute_iff, hhead, String.toList_ofList]
      intro hslash
      -- a first piece before a slash is not empty, or the path would be absolute
      rcases qs with - | ⟨q, - | ⟨r, qs⟩⟩
      · cases hslash
      · exact flat_of_mem_pieces (h.subset List.mem_cons_self) (List.mem_of_head? hslash)
      · obtain ⟨rest, hrest⟩ := h
        cases q with
        | cons c q =>
          obtain rfl : c = '/' := Option.some.inj hslash
          have hmem : ('/' :: q) ∈ p.pieces := by simp [← hrest]
          exact flat_of_mem_pieces hmem List.mem_cons_self
        | nil =>
          have htext := glue_cut '/' p.text.toList
          rw [pieces, hhead, List.length_nil, List.drop_zero] at hrest
          rw [← hrest] at htext
          have hopen : p.text.toList.head? = some '/' := by
            rw [← htext]
            rfl
          rw [isAbsolute_iff.mpr hopen] at habs
          cases habs

end

theorem prefix_trimmedPieces (ps : List (List Char)) : trimmedPieces ps <+: ps := by
  rw [trimmedPieces, ← List.reverse_suffix, List.reverse_reverse]
  exact List.dropWhile_suffix _

theorem parent?_eq_some {p q : Path} (h : p.parent? = some q) :
    q.isAbsolute = p.isAbsolute ∧ q.steps = p.steps.dropLast := by
  unfold parent? at h
  simp only at h
  split at h
  · next hnil =>
    have hsteps : p.steps = [] := by
      rw [steps, ← filter_trimmedPieces, List.isEmpty_iff.mp hnil]
      rfl
    split at h
    · next hhere =>
      cases h
      rw [hsteps]
      have habs : p.isAbsolute = false := by
        simp only [startsHere, Bool.and_eq_true, Bool.not_eq_true'] at hhere
        exact hhere.1
      exact ⟨habs.symm, rfl⟩
    · cases h
  · next hnil =>
    cases h
    rw [List.isEmpty_iff] at hnil
    obtain ⟨qs, q, hq, hbusy⟩ := exists_last_of_trimmedPieces hnil
    have hsteps : p.steps = (qs.filter (!isIdle ·)).map step ++ [step q] := by
      rw [steps, ← filter_trimmedPieces, hq, List.filter_append, List.map_append]
      simp [hbusy]
    have hprefix : trimmedPieces qs <+: p.pieces :=
      (prefix_trimmedPieces qs).trans
        ((List.prefix_append qs [q]).trans (hq ▸ prefix_trimmedPieces p.pieces))
    rw [hq, List.dropLast_concat]
    refine ⟨isAbsolute_head_append hprefix, ?_⟩
    rw [steps_eq, String.toList_ofList, stepsOf_head_append hprefix, filter_trimmedPieces, hsteps,
      List.dropLast_concat]

theorem exists_parent {p : Path} (h : p.steps ≠ []) : ∃ q, p.parent? = some q := by
  unfold parent?
  simp only
  split
  · next hnil =>
    refine absurd ?_ h
    rw [steps, ← filter_trimmedPieces, List.isEmpty_iff.mp hnil]
    rfl
  · exact ⟨_, rfl⟩

section

variable {p : Path} {n : String}

theorem fileName?_eq_some_iff : p.fileName? = some n ↔ p.steps.getLast? = some (.name n) := by
  unfold fileName?
  split
  · next hs => simp [hs]
  · next hother =>
    refine ⟨fun h => ?_, fun h => absurd h (hother n)⟩
    cases h

theorem isName_of_fileName? (h : p.fileName? = some n) : IsName n := by
  obtain ⟨piece, hp, he⟩ := List.mem_map.mp (List.mem_of_getLast? (fileName?_eq_some_iff.mp h))
  obtain ⟨hpiece, hbusy⟩ := List.mem_filter.mp hp
  have hdown : piece ≠ ['.', '.'] := by
    rintro rfl
    simp [step] at he
  have hname : n = String.ofList piece := by
    simp only [step, beq_iff_eq, hdown, if_false, Component.name.injEq] at he
    exact he.symm
  subst hname
  refine ⟨?_, ?_, ?_⟩
  · rw [String.toList_ofList]
    exact flat_of_mem_pieces hpiece
  · rw [String.toList_ofList]
    simpa using hbusy
  · rwa [String.toList_ofList]

def parentOrRoot (p : Path) : Path := p.parent?.getD ⟨"/"⟩

theorem isAbsolute_parentOrRoot {p : Path} (h : p.isAbsolute = true) :
    p.parentOrRoot.isAbsolute = true := by
  unfold parentOrRoot
  cases hq : p.parent? with
  | none => rfl
  | some q => exact (parent?_eq_some hq).1.trans h

theorem parentOrRoot_of_fileName? (hn : p.fileName? = some n) :
    p.parentOrRoot.isAbsolute = p.isAbsolute ∧ p.steps = p.parentOrRoot.steps ++ [.name n] := by
  obtain ⟨cs, hcs⟩ := List.getLast?_eq_some_iff.mp (fileName?_eq_some_iff.mp hn)
  obtain ⟨q, hq⟩ := exists_parent (p := p) (by simp [hcs])
  obtain ⟨habs, hsteps⟩ := parent?_eq_some hq
  rw [parentOrRoot, hq, Option.getD_some, hsteps, hcs, List.dropLast_concat]
  exact ⟨habs, rfl⟩

theorem placeFrom_parent (hn : p.fileName? = some n) (d : Location) :
    p.placeFrom d = p.parentOrRoot.placeFrom d ++ [n] := by
  obtain ⟨habs, hsteps⟩ := parentOrRoot_of_fileName? hn
  have hbase : p.parentOrRoot.base d = p.base d := by rw [base, base, habs]
  rw [placeFrom_eq, placeFrom_eq, ← steps_eq, ← steps_eq, hsteps, hbase, List.foldl_append]
  rfl

end

end Path

end Changeover
