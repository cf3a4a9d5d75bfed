import Changeover.Proofs.Files.Directories

/-!
# Paths that differ at the end

Texts that differ only in what follows their last slash lead into the same directory. So where a
path with a long ending leads to a place, one with a short ending leads to a place beside it.
-/

namespace Changeover

namespace Text

theorem exists_cut_append (c : Char) (cs : List Char) :
    ∃ ps p, ∀ es, c ∉ es → cut (· == c) (cs ++ es) = ps ++ [p ++ es] := by
  induction cs with
  | nil =>
    refine ⟨[], [], ?_⟩
    intro es hes
    apply cut_of_not_sep
    intro d hd
    refine beq_eq_false_iff_ne.mpr ?_
    rintro rfl
    exact hes hd
  | cons d cs ih =>
    obtain ⟨ps, p, h⟩ := ih
    by_cases hd : (d == c) = true
    · refine ⟨[] :: ps, p, ?_⟩
      intro es hes
      simp only [List.cons_append, cut, hd, if_true, h es hes]
    · cases ps with
      | nil =>
        refine ⟨[], d :: p, ?_⟩
        intro es hes
        simp only [List.cons_append, cut, hd, h es hes, List.nil_append]
        rfl
      | cons q qs =>
        refine ⟨(d :: q) :: qs, p, ?_⟩
        intro es hes
        simp only [List.cons_append, cut, hd, h es hes]
        rfl

end Text

namespace Path

open Text FileSystem

/-- What can follow a text without a slash of its own, and makes a name of whatever it follows. -/
structure Ending (e : String) : Prop where
  flat : '/' ∉ e.toList
  long : 3 ≤ e.toList.length

namespace Ending

variable {e : String}

theorem not_idle (h : Ending e) (p : List Char) : isIdle (p ++ e.toList) = false := by
  have hlen : 3 ≤ (p ++ e.toList).length := by
    rw [List.length_append]
    exact Nat.le_add_left_of_le h.long
  rw [isIdle, Bool.or_eq_false_iff, beq_eq_false_iff_ne, beq_eq_false_iff_ne]
  constructor
  · intro heq
    simp [heq] at hlen
  · intro heq
    simp [heq] at hlen

theorem step_eq (h : Ending e) (p : List Char) :
    step (p ++ e.toList) = .name (String.ofList p ++ e) := by
  have hdown : p ++ e.toList ≠ ['.', '.'] := by
    intro heq
    have hlen := congrArg List.length heq
    have hlong := h.long
    simp at hlen
    omega
  have htext : String.ofList (p ++ e.toList) = String.ofList p ++ e := by simp
  rw [step, if_neg (by simpa using hdown), htext]

theorem isAbsolute_append (h : Ending e) (s : String) :
    isAbsolute ⟨s ++ e⟩ = isAbsolute ⟨s⟩ := by
  rw [Bool.eq_iff_iff, isAbsolute_iff, isAbsolute_iff, String.toList_append]
  cases hs : s.toList with
  | cons c cs => rfl
  | nil =>
    rw [List.nil_append]
    refine ⟨fun hslash => absurd (List.mem_of_head? hslash) h.flat, fun hslash => ?_⟩
    cases hslash

end Ending

theorem length_head_le (p : Path) : p.head.length ≤ 1 := by
  unfold head
  split
  · exact Nat.le_refl 1
  · split
    · exact Nat.le_refl 1
    · exact Nat.zero_le 1

/-- The pieces of a text between slashes, of which the last is open to what follows. -/
def Pieces (s : String) (ps : List (List Char)) (p : List Char) : Prop :=
  ∀ es, '/' ∉ es → cut (· == '/') (s.toList ++ es) = ps ++ [p ++ es]

namespace Pieces

variable {s e : String} {ps : List (List Char)} {p : List Char}

theorem cut_text (h : Pieces s ps p) (he : Ending e) :
    cut (· == '/') (s ++ e).toList = ps ++ [p ++ e.toList] := by
  rw [String.toList_append, h _ he.flat]

theorem steps (h : Pieces s ps p) (he : Ending e) : steps ⟨s ++ e⟩ =
    (ps.filter (!isIdle ·)).map step ++ [.name (String.ofList p ++ e)] := by
  rw [steps_eq, stepsOf, h.cut_text he]
  simp [he.not_idle, he.step_eq]

theorem startsHere (h : Pieces s ps p) (he : Ending e) :
    startsHere ⟨s ++ e⟩ = (!isAbsolute ⟨s⟩ && ps.head? == some ['.']) := by
  rw [Path.startsHere, h.cut_text he, he.isAbsolute_append]
  cases ps with
  | cons q qs => rfl
  | nil =>
    have hidle := he.not_idle p
    have hne : p ++ e.toList ≠ ['.'] := by
      intro heq
      rw [heq] at hidle
      cases hidle
    simp [hne]

theorem length_head (h : Pieces s ps p) (he : Ending e) :
    (head ⟨s ++ e⟩).length ≤ s.toList.length := by
  cases hs : s.toList with
  | cons c cs => exact Nat.le_trans (length_head_le _) (Nat.le_add_left 1 cs.length)
  | nil =>
    have hps : ps = [] := by
      have hwhole := h [] List.not_mem_nil
      rw [hs] at hwhole
      exact (List.append_eq_singleton_iff.mp hwhole.symm).elim And.left fun h => by simp at h
    have habs : isAbsolute ⟨s⟩ = false := by simp [isAbsolute, hs]
    simp [head, h.startsHere he, he.isAbsolute_append, habs, hps]

theorem last (h : Pieces s ps p) (he : Ending e) :
    ∃ q, (pieces ⟨s ++ e⟩).getLast? = some (q ++ e.toList) := by
  obtain ⟨qs, q, hq⟩ := exists_cut_append '/' (s.toList.drop (head ⟨s ++ e⟩).length)
  refine ⟨q, ?_⟩
  rw [pieces, String.toList_append, List.drop_append_of_le_length (h.length_head he), hq _ he.flat]
  simp

end Pieces

theorem exists_walkSteps (s : String) :
    ∃ cs r, ∀ e, Ending e → walkSteps ⟨s ++ e⟩ = cs ++ [.name (r ++ e)] := by
  obtain ⟨ps, p, h⟩ : ∃ ps p, Pieces s ps p := exists_cut_append '/' s.toList
  refine ⟨(if isAbsolute ⟨s⟩ then [.root]
    else if !isAbsolute ⟨s⟩ && ps.head? == some ['.'] then [.here] else []) ++
      (ps.filter (!isIdle ·)).map step, String.ofList p, ?_⟩
  intro e he
  obtain ⟨q, hq⟩ := h.last he
  rw [walkSteps, hq]
  simp [components, h.steps he, h.startsHere he, he.isAbsolute_append, walkSteps.isIdleEnd,
    he.not_idle]

theorem join_append {e : String} (h : Ending e) (p : Path) (s : String) :
    p.join ⟨s ++ e⟩ = ⟨(p.join ⟨s⟩).text ++ e⟩ := by
  simp only [join, h.isAbsolute_append]
  split
  · rfl
  · split
    · rw [String.append_assoc]
    · simp only [String.append_assoc]

end Path

namespace FileSystem

open Changeover.Path

theorem Fits.ending {s e e' : String} (h : Fits ⟨s ++ e'⟩) (he : Ending e)
    (hnul : '\x00' ∉ e.toList) (hsize : e.utf8ByteSize ≤ e'.utf8ByteSize) : Fits ⟨s ++ e⟩ := by
  obtain ⟨htext, -, hshort⟩ := h
  refine ⟨?_, ?_, ?_⟩
  · simp only [String.toList_append, List.contains_eq_mem, List.mem_append, decide_eq_false_iff_not,
      not_or] at htext ⊢
    exact ⟨htext.1, hnul⟩
  · have hlong := he.long
    rw [Bool.eq_false_iff, Ne, String.isEmpty_iff]
    intro hempty
    have htoList := congrArg String.toList hempty
    simp only [String.toList_append, String.toList_empty, List.append_eq_nil_iff] at htoList
    simp [htoList.2] at hlong
  · rw [String.utf8ByteSize_append] at hshort ⊢
    omega

/-- Where a text leads to a place, it leads with a shorter ending to one beside it. -/
theorem locate_ending {fs : FileSystem} {s e e' : String} {l : Location}
    (h : fs.locate ⟨s ++ e'⟩ = .ok l) (he : Ending e) (he' : Ending e') (hnul : '\x00' ∉ e.toList)
    (hsize : e.utf8ByteSize ≤ e'.utf8ByteSize) :
    ∃ m r, l = m ++ [r ++ e'] ∧ fs.locate ⟨s ++ e⟩ = .ok (m ++ [r ++ e]) ∧
      fs.tree.node? m = some .directory := by
  obtain ⟨cs, r, hsteps⟩ := exists_walkSteps s
  obtain ⟨hfits, hwalk⟩ := follow_eq_ok_iff.mp h
  rw [hsteps e' he'] at hwalk
  obtain ⟨m, hm, hlast⟩ := walk_append hwalk
  obtain ⟨hend, hdir⟩ := walk_step_ok hlast
  have hdir : fs.tree.node? m = some .directory := by simpa using hdir
  have hshort : (r ++ e').utf8ByteSize ≤ 255 :=
    walk_names_short (l := [r ++ e']) hlast _ (List.mem_singleton_self _)
  refine ⟨m, r, ?_, ?_, hdir⟩
  · cases hend
    rfl
  · refine follow_eq_ok_iff.mpr ⟨hfits.ending he hnul hsize, ?_⟩
    have hfit : ¬ (r ++ e).utf8ByteSize > 255 := by
      rw [String.utf8ByteSize_append] at hshort ⊢
      omega
    rw [hsteps e he, walk_append_of_ok hm, walk, enter_eq_ok_iff.mpr hdir]
    simp only [bind, Except.bind, if_neg hfit]
    rfl

end FileSystem

end Changeover
