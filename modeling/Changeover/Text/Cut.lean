/-!
# Cutting text at separators

`cut` splits a list of characters at every separator and keeps empty pieces, so nothing is lost:
with a single separator, `glue` puts the text back together. Lines, words and path segments are
all read off these pieces.
-/

namespace Changeover.Text

/-- The pieces between separators; one piece more than there are separators. -/
def cut (sep : Char → Bool) : List Char → List (List Char)
  | [] => [[]]
  | c :: cs =>
    if sep c then [] :: cut sep cs
    else match cut sep cs with
      | [] => [[c]]
      | p :: ps => (c :: p) :: ps

def glue (c : Char) : List (List Char) → List Char
  | [] => []
  | [p] => p
  | p :: q :: ps => p ++ c :: glue c (q :: ps)

theorem cut_ne_nil (sep : Char → Bool) (cs : List Char) : cut sep cs ≠ [] := by
  cases cs with
  | nil => simp [cut]
  | cons c cs =>
    simp only [cut]
    split
    · simp
    · split <;> simp

theorem not_sep_of_mem_cut {sep : Char → Bool} {cs p : List Char} {c : Char}
    (hp : p ∈ cut sep cs) (hc : c ∈ p) : sep c = false := by
  induction cs generalizing p with
  | nil => simp_all [cut]
  | cons d ds ih =>
    simp only [cut] at hp
    split at hp
    · rcases List.mem_cons.mp hp with rfl | hp
      · simp at hc
      · exact ih hp hc
    · next hd =>
      split at hp
      · simp_all
      · next q qs hq =>
        rcases List.mem_cons.mp hp with rfl | hp
        · rcases List.mem_cons.mp hc with rfl | hc
          · simpa using hd
          · exact ih (hq ▸ List.mem_cons_self) hc
        · exact ih (hq ▸ List.mem_cons_of_mem q hp) hc

theorem glue_cut (c : Char) (cs : List Char) : glue c (cut (· == c) cs) = cs := by
  induction cs with
  | nil => simp [cut, glue]
  | cons d ds ih =>
    simp only [cut]
    split
    · next h =>
      have hd : d = c := by simpa using h
      cases hq : cut (· == c) ds with
      | nil => exact absurd hq (cut_ne_nil _ _)
      | cons p ps => rw [hq] at ih; simp [glue, ih, hd]
    · cases hq : cut (· == c) ds with
      | nil => exact absurd hq (cut_ne_nil _ _)
      | cons p ps =>
        rw [hq] at ih
        cases ps with
        | nil => simpa [glue] using ih
        | cons q qs => simpa [glue] using ih

theorem cut_append (sep : Char → Bool) {c : Char} (hc : sep c = true) (cs ds : List Char) :
    cut sep (cs ++ c :: ds) = cut sep cs ++ cut sep ds := by
  induction cs with
  | nil => simp [cut, hc]
  | cons d cs ih =>
    simp only [List.cons_append, cut]
    split
    · rw [ih, List.cons_append]
    · rw [ih]
      cases hq : cut sep cs with
      | nil => exact absurd hq (cut_ne_nil _ _)
      | cons p ps => rfl

theorem cut_of_not_sep {sep : Char → Bool} {cs : List Char} (h : ∀ c ∈ cs, sep c = false) :
    cut sep cs = [cs] := by
  induction cs with
  | nil => rfl
  | cons c cs ih =>
    have hc := h c List.mem_cons_self
    simp [cut, hc, ih fun d hd => h d (List.mem_cons_of_mem c hd)]

theorem cut_glue {c : Char} {ps : List (List Char)} (hne : ps ≠ [])
    (h : ∀ p ∈ ps, c ∉ p) : cut (· == c) (glue c ps) = ps := by
  have hfree : ∀ p ∈ ps, cut (· == c) p = [p] := by
    intro p hp
    apply cut_of_not_sep
    intro d hd
    refine beq_eq_false_iff_ne.mpr ?_
    rintro rfl
    exact h p hp hd
  clear h
  induction ps with
  | nil => exact absurd rfl hne
  | cons p ps ih =>
    cases ps with
    | nil => exact hfree p List.mem_cons_self
    | cons q qs =>
      have hrest := ih (List.cons_ne_nil q qs) fun r hr => hfree r (List.mem_cons_of_mem p hr)
      rw [glue, cut_append (· == c) (beq_self_eq_true c), hfree p List.mem_cons_self, hrest]
      rfl

def dropReturn (line : List Char) : List Char :=
  if line.getLast? = some '\r' then line.dropLast else line

/-- Lines without their ends. A line ends with a line feed or with a carriage return and a line
feed; an unfinished last line counts if it is not empty, and keeps a final carriage return. -/
def linesOf (cs : List Char) : List (List Char) :=
  let pieces := cut (· == '\n') cs
  pieces.dropLast.map dropReturn ++ (pieces.getLast?.toList.filter (!·.isEmpty))

def lines (s : String) : List String := (linesOf s.toList).map String.ofList

def splitAt (c : Char) (s : String) : List String := (cut (· == c) s.toList).map String.ofList

end Changeover.Text
