import Changeover.Text.Blank
import Mathlib.Data.List.Basic

/-!
# Words, lines and items

Words are not changed by white space around them, and lines come apart at their ends. Items are what
stands between separators, whichever way a text is made of them.
-/

namespace Changeover.Text

variable {c : Char} {cs w gap line : List Char}

/-! ### Words -/

theorem wordsOf_blank_append (h : ∀ c ∈ gap, isBlank c = true) (cs : List Char) :
    wordsOf (gap ++ cs) = wordsOf cs := by
  induction gap with
  | nil => rfl
  | cons c gap ih =>
    have hc : isBlank c = true := h c List.mem_cons_self
    rw [List.cons_append, wordsOf, cut, if_pos hc]
    exact ih fun d hd => h d (List.mem_cons_of_mem c hd)

theorem wordsOf_word (hne : w ≠ []) (hw : ∀ c ∈ w, isBlank c = false) : wordsOf w = [w] := by
  have hfull : w.isEmpty = false := List.isEmpty_eq_false_iff.mpr hne
  rw [wordsOf, cut_of_not_sep hw]
  simp [hfull]

theorem wordsOf_append_blank (hc : isBlank c = true) (cs ds : List Char) :
    wordsOf (cs ++ c :: ds) = wordsOf cs ++ wordsOf ds := by
  rw [wordsOf, cut_append isBlank hc, List.filter_append]
  rfl

theorem wordsOf_word_append (hne : w ≠ []) (hw : ∀ c ∈ w, isBlank c = false)
    (hgap : ∀ c ∈ gap, isBlank c = true) (hcs : gap = [] → cs = []) :
    wordsOf (w ++ (gap ++ cs)) = w :: wordsOf cs := by
  cases gap with
  | nil =>
    rw [hcs rfl, List.append_nil, List.append_nil, wordsOf_word hne hw]
    rfl
  | cons c gap =>
    rw [List.cons_append, wordsOf_append_blank (hgap c List.mem_cons_self), wordsOf_word hne hw,
      wordsOf_blank_append fun d hd => hgap d (List.mem_cons_of_mem c hd)]
    rfl

theorem wordsOf_dropReturn (line : List Char) : wordsOf (dropReturn line) = wordsOf line := by
  unfold dropReturn
  split
  · next h =>
    have hline := List.dropLast_append_getLast? '\r' h
    conv_rhs => rw [← hline, wordsOf_append_blank (by decide)]
    exact (List.append_nil _).symm
  · rfl

/-! ### Lines -/

theorem cut_of_not_mem (h : c ∉ line) : cut (· == c) line = [line] := by
  apply cut_of_not_sep
  intro d hd
  refine beq_eq_false_iff_ne.mpr ?_
  rintro rfl
  exact h hd

theorem linesOf_line (h : '\n' ∉ line) (cs : List Char) :
    linesOf (line ++ '\n' :: cs) = dropReturn line :: linesOf cs := by
  have hne := cut_ne_nil (· == '\n') cs
  simp only [linesOf]
  rw [cut_append (· == '\n') (beq_self_eq_true _), cut_of_not_mem h, List.singleton_append,
    List.dropLast_cons_of_ne_nil hne, List.getLast?_cons_of_ne_nil hne]
  rfl

theorem linesOf_unfinished (h : '\n' ∉ line) :
    linesOf line = [line].filter (!·.isEmpty) := by
  rw [linesOf, cut_of_not_mem h]
  rfl

/-! ### Items -/

theorem glue_eq_intercalate (c : Char) (ps : List (List Char)) :
    glue c ps = [c].intercalate ps := by
  induction ps with
  | nil => rfl
  | cons p ps ih =>
    cases ps with
    | nil => simp [glue]
    | cons q qs => simp [glue, ih]

theorem any_splitAt_iff {s item : String} : (splitAt c s).any (· == item) = true ↔
    ∃ items : List String, item ∈ items ∧ (∀ i ∈ items, c ∉ i.toList) ∧
      s = (String.singleton c).intercalate items := by
  rw [List.any_eq_true]
  constructor
  · rintro ⟨_, hitem, heq⟩
    obtain rfl := beq_iff_eq.mp heq
    refine ⟨splitAt c s, hitem, ?_, ?_⟩
    · intro i hi hc
      obtain ⟨piece, hpiece, rfl⟩ := List.mem_map.mp hi
      rw [String.toList_ofList] at hc
      have hsep := not_sep_of_mem_cut hpiece hc
      simp at hsep
    · apply String.toList_injective
      rw [String.toList_intercalate, splitAt, List.map_map]
      have hself : String.toList ∘ String.ofList = id := funext fun _ => String.toList_ofList
      rw [hself, List.map_id, String.toList_singleton, ← glue_eq_intercalate, glue_cut]
  · rintro ⟨items, hitem, hfree, rfl⟩
    refine ⟨item, ?_, beq_self_eq_true item⟩
    have hne : items.map String.toList ≠ [] :=
      List.ne_nil_of_mem (List.mem_map_of_mem hitem)
    rw [splitAt, String.toList_intercalate, String.toList_singleton, ← glue_eq_intercalate,
      cut_glue hne (List.forall_mem_map.mpr hfree), List.map_map]
    exact List.mem_map.mpr ⟨item, hitem, String.ofList_toList⟩

end Changeover.Text
