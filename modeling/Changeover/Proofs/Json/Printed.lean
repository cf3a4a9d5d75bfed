import Changeover.Json.Reader

/-!
# Printed documents are read back

The compact text of a document without numbers is read as that document. Inside quotes each
character is written as one part of a string, which is read as the character again; a value is read
no further than it was written, and the text is long enough for all the steps that reading takes.
-/

namespace Changeover.JsonTree

/-! ### Strings -/

/-- What is written for a character inside quotes is one part of a string, which stands for it. -/
def Spells (w : List Char) (c : Char) : Prop := ∃ p,
  (∀ cs, pieces (w ++ cs) = (pieces cs).map fun q => (p :: q.1, q.2)) ∧
    ∀ ps, joinPieces (p :: ps) = (joinPieces ps).map (c :: ·)

theorem spells_letter {e c : Char} (hu : e ≠ 'u') (hc : escaped? e = some c) :
    Spells ['\\', e] c := by
  refine ⟨.char c, fun cs => ?_, fun ps => rfl⟩
  rw [List.cons_append, List.cons_append, List.nil_append, pieces, hc]
  · cases pieces cs <;> rfl
  · simp_all

theorem spells_unit {n : Nat} (hn : n < 0x20) :
    Spells ('\\' :: 'u' :: hexDigits n) (Char.ofNat n) := by
  have hdigits : ∀ n < 0x20, hexValue4? (Nat.digitChar (n / 4096 % 16))
      (Nat.digitChar (n / 256 % 16)) (Nat.digitChar (n / 16 % 16)) (Nat.digitChar (n % 16)) =
        some n := by decide
  refine ⟨.unit n, fun cs => ?_, fun ps => ?_⟩
  · simp only [hexDigits, List.cons_append, List.nil_append, pieces, hdigits n hn]
    cases pieces cs <;> rfl
  · have hhigh : isHigh n = false := by
      rw [isHigh, Bool.and_eq_false_iff, decide_eq_false_iff_not]
      omega
    have hlow : isLow n = false := by
      rw [isLow, Bool.and_eq_false_iff, decide_eq_false_iff_not]
      omega
    rw [joinPieces.eq_def]
    simp [hhigh, hlow]

theorem spells_self {c : Char} (hq : c ≠ '"') (hb : c ≠ '\\') (hc : ¬ c.toNat < 0x20) :
    Spells [c] c := by
  refine ⟨.char c, fun cs => ?_, fun ps => rfl⟩
  have hplain : ¬ (decide (c.toNat < 0x20) || c == '\\') = true := by simp [hb, hc]
  rw [List.cons_append, List.nil_append, pieces]
  · rw [if_neg hplain]
    cases pieces cs <;> rfl
  · exact hq
  · intro _ _ _ _ _ h _
    exact hb h
  · exact fun _ _ h _ => hb h

theorem spells_escape (c : Char) : Spells (escape c) c := by
  have hletter {d e : Char} (h : (c == d) = true) (hu : e ≠ 'u') (he : escaped? e = some d) :
      Spells ['\\', e] c := beq_iff_eq.mp h ▸ spells_letter hu he
  unfold escape
  split
  · exact hletter ‹_› (by decide) rfl
  split
  · exact hletter ‹_› (by decide) rfl
  split
  · exact hletter ‹_› (by decide) rfl
  split
  · exact hletter ‹_› (by decide) rfl
  split
  · exact hletter ‹_› (by decide) rfl
  split
  · exact hletter ‹_› (by decide) rfl
  split
  · exact hletter ‹_› (by decide) rfl
  split
  · rename_i hc
    have hunit := spells_unit hc
    rwa [Char.ofNat_toNat] at hunit
  · rename_i hq hb _ _ _ _ _ hc
    exact spells_self (by simpa using hq) (by simpa using hb) hc

theorem exists_pieces (cs : List Char) : ∃ ps, joinPieces ps = some cs ∧
    ∀ rest, pieces (cs.flatMap escape ++ '"' :: rest) = some (ps, rest) := by
  induction cs with
  | nil => exact ⟨[], rfl, fun rest => by simp [pieces]⟩
  | cons c cs ih =>
    obtain ⟨ps, hjoin, hpieces⟩ := ih
    obtain ⟨p, hwritten, hstands⟩ := spells_escape c
    refine ⟨p :: ps, ?_, fun rest => ?_⟩
    · rw [hstands, hjoin]
      rfl
    · rw [List.flatMap_cons, List.append_assoc, hwritten, hpieces]
      rfl

theorem string?_escaped (s : String) (rest : List Char) :
    string? (s.toList.flatMap escape ++ '"' :: rest) = some (some s, rest) := by
  obtain ⟨ps, hjoin, hpieces⟩ := exists_pieces s.toList
  simp only [string?, hpieces, Option.map_some, hjoin, String.ofList_toList]

/-! ### Values -/

/-- The value is read from its compact text, and no further. -/
def ReadBack (t : JsonTree) : Prop := ∀ n rest, t.compact.length ≤ n →
  value? n (t.compact ++ rest) = some (t, rest)

theorem skipGaps_cons {c : Char} (h : isGap c = false) (cs : List Char) :
    skipGaps (c :: cs) = c :: cs := List.dropWhile_cons_of_neg (by simp [h])

theorem compact_text (s : String) :
    (text s).compact = '"' :: (s.toList.flatMap escape ++ ['"']) := by
  rw [text, compact]
  exact List.cons_append

theorem readBack_text (s : String) : ReadBack (text s) := by
  intro n rest hn
  rw [compact_text] at hn ⊢
  cases n with
  | zero => cases hn
  | succ n =>
    rw [List.cons_append, List.append_assoc, List.singleton_append, value?.eq_def]
    simp only [skipGaps_cons (show isGap '"' = false from rfl), string?_escaped, Option.map_some]
    rfl

theorem readBack_bool (b : Bool) : ReadBack (.bool b) := by
  intro n rest hn
  cases n with
  | zero => cases b <;> cases hn
  | succ n =>
    rw [value?.eq_def]
    cases b with
    | false =>
      have htext : (bool false).compact ++ rest = 'f' :: 'a' :: 'l' :: 's' :: 'e' :: rest := rfl
      simp only [htext, skipGaps_cons (show isGap 'f' = false from rfl)]
    | true =>
      have htext : (bool true).compact ++ rest = 't' :: 'r' :: 'u' :: 'e' :: rest := rfl
      simp only [htext, skipGaps_cons (show isGap 't' = false from rfl)]

/-! ### Objects -/

section

variable {k : String} {t : JsonTree} {ms : List (String × JsonTree)} {n : Nat} {rest : List Char}

def writtenMembers (ms : List (String × JsonTree)) : List Char :=
  spread [','] (compactMembers (ms.map fun m => (some m.1, m.2)))

theorem writtenMembers_cons (k : String) (t : JsonTree) (ms : List (String × JsonTree)) :
    writtenMembers ((k, t) :: ms) = (text k).compact ++ ':' :: (t.compact ++
      if ms = [] then [] else ',' :: writtenMembers ms) := by
  cases ms with
  | nil => simp [writtenMembers, compactMembers, spread, text, compact]
  | cons m ms => simp [writtenMembers, compactMembers, spread, text, compact]

theorem members?_member (ht : t.ReadBack) (hn : t.compact.length ≤ n) (cs : List Char) :
    members? (n + 1) ((text k).compact ++ ':' :: (t.compact ++ '}' :: cs)) =
        some ([(some k, t)], cs) ∧
      members? (n + 1) ((text k).compact ++ ':' :: (t.compact ++ ',' :: cs)) =
        (members? n cs).map fun q => ((some k, t) :: q.1, q.2) := by
  have hquote := skipGaps_cons (show isGap '"' = false from rfl)
  have hcolon := skipGaps_cons (show isGap ':' = false from rfl)
  rw [compact_text, List.cons_append, List.append_assoc, List.singleton_append]
  constructor
  · rw [members?.eq_def]
    simp only [hquote, hcolon, string?_escaped, ht n _ hn,
      skipGaps_cons (show isGap '}' = false from rfl)]
  · rw [List.cons_append, List.append_assoc, List.singleton_append, members?.eq_def]
    simp only [hquote, hcolon, string?_escaped, ht n _ hn,
      skipGaps_cons (show isGap ',' = false from rfl)]

theorem members?_written (hne : ms ≠ []) (h : ∀ m ∈ ms, m.2.ReadBack)
    (hn : (writtenMembers ms).length ≤ n) (rest : List Char) :
    members? n (writtenMembers ms ++ '}' :: rest) =
      some (ms.map fun m => (some m.1, m.2), rest) := by
  induction ms generalizing n with
  | nil => exact absurd rfl hne
  | cons m ms ih =>
    obtain ⟨k, t⟩ := m
    have ht : t.ReadBack := h (k, t) List.mem_cons_self
    rw [writtenMembers_cons] at hn ⊢
    cases n with
    | zero => simp at hn
    | succ n =>
      simp only [List.append_assoc, List.cons_append, List.length_append, List.length_cons] at hn ⊢
      have hmember := members?_member (k := k) ht (show t.compact.length ≤ n by omega)
      by_cases hms : ms = []
      · subst hms
        rw [if_pos rfl, List.nil_append, (hmember rest).1]
        rfl
      · rw [if_neg hms] at hn ⊢
        rw [List.length_cons] at hn
        have hrest := ih hms (fun m hm => h m (List.mem_cons_of_mem _ hm)) (n := n) (by omega)
        rw [List.cons_append, (hmember _).2, hrest]
        rfl

theorem compact_record (ms : List (String × JsonTree)) :
    (record ms).compact = '{' :: (writtenMembers ms ++ ['}']) := by
  rw [record, compact]
  exact List.cons_append

theorem readBack_record (h : ∀ m ∈ ms, m.2.ReadBack) : (record ms).ReadBack := by
  intro n rest hn
  rw [compact_record] at hn ⊢
  cases n with
  | zero => cases hn
  | succ n =>
    rw [List.length_cons, List.length_append] at hn
    rw [List.cons_append, List.append_assoc, List.singleton_append, value?.eq_def]
    simp only [skipGaps_cons (show isGap '{' = false from rfl)]
    cases ms with
    | nil =>
      simp only [writtenMembers, List.map_nil, compactMembers, spread, List.nil_append,
        skipGaps_cons (show isGap '}' = false from rfl)]
      rfl
    | cons m ms =>
      have hmembers := members?_written (List.cons_ne_nil m ms) h (n := n) (by omega) rest
      obtain ⟨cs, hcs⟩ : ∃ cs, writtenMembers (m :: ms) = '"' :: cs := by
        rw [writtenMembers_cons, compact_text]
        exact ⟨_, rfl⟩
      rw [hcs, List.cons_append] at hmembers ⊢
      simp only [skipGaps_cons (show isGap '"' = false from rfl), hmembers, Option.map_some]
      rfl

end

/-- What is printed of a document that is read back is parsed as this document. -/
theorem parse?_print {t : JsonTree} (h : t.ReadBack) : parse? t.print = some t := by
  have hread := h (2 * t.compact.length + 2) [] (by omega)
  rw [List.append_nil] at hread
  rw [parse?, print, String.length_ofList, String.toList_ofList, hread]
  rfl

end Changeover.JsonTree
