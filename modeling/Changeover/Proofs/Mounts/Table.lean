import Changeover.Action.Mounts
import Changeover.Proofs.Text.Words

/-!
# The mount table check is exact

A mount table is laid out row by row, with white space of any kind between and around the fields of
a row, line ends of both kinds, and a last line that need not end. Whatever the layout, the check
finds the records, and what it says depends on them alone.
-/

namespace Changeover.MountTable

open Text

/-! ### Layouts -/

/-- White space inside a line. -/
structure Gap where
  chars : List Char
  blank : ∀ c ∈ chars, isBlank c = true
  inside : '\n' ∉ chars

/-- Text without white space. -/
structure Field where
  text : String
  full : text.toList ≠ []
  solid : ∀ c ∈ text.toList, isBlank c = false

/-- Fields with white space between them. A row may have no fields at all. -/
structure Row where
  lead : Gap
  cells : List (Field × Gap)
  apart : ∀ cell ∈ cells.dropLast, cell.2.chars ≠ []

inductive LineEnd where
  | feed
  | returnFeed

/-- Rows of a table, of which the last may be unfinished. -/
structure Layout where
  lines : List (Row × LineEnd)
  last : Option Row

namespace Row

def fields (r : Row) : List String := r.cells.map (·.1.text)

def chars (r : Row) : List Char :=
  r.lead.chars ++ r.cells.flatMap fun cell => cell.1.text.toList ++ cell.2.chars

end Row

def LineEnd.chars : LineEnd → List Char
  | .feed => ['\n']
  | .returnFeed => ['\r', '\n']

namespace Layout

def text (t : Layout) : String := String.ofList
  (t.lines.flatMap (fun l => l.1.chars ++ l.2.chars) ++ t.last.elim [] Row.chars)

def rows (t : Layout) : List Row := t.lines.map (·.1) ++ t.last.toList

/-- The rows with at least four fields; no others are records. -/
def records (t : Layout) : List (List String) :=
  (t.rows.map Row.fields).filter (4 ≤ ·.length)

end Layout

/-- The second field is this point, and `ro` is an item of the fourth. -/
def MountsReadOnly (point : String) (record : List String) : Prop :=
  record[1]? = some point ∧ ∃ options, record[3]? = some options ∧ ∃ items : List String,
    "ro" ∈ items ∧ (∀ i ∈ items, ',' ∉ i.toList) ∧ options = ",".intercalate items

/-! ### Fields of a row -/

variable {point : String}

theorem Row.wordsOf_cells {cells : List (Field × Gap)}
    (h : ∀ cell ∈ cells.dropLast, cell.2.chars ≠ []) :
    wordsOf (cells.flatMap fun cell => cell.1.text.toList ++ cell.2.chars) =
      cells.map (·.1.text.toList) := by
  induction cells with
  | nil => rfl
  | cons cell cells ih =>
    obtain ⟨field, gap⟩ := cell
    have hcells : gap.chars = [] → cells = [] := by
      intro hgap
      cases cells with
      | nil => rfl
      | cons next cells => exact absurd hgap (h (field, gap) List.mem_cons_self)
    have hrest : ∀ cell ∈ cells.dropLast, cell.2.chars ≠ [] := by
      intro cell hcell
      cases cells with
      | nil => cases hcell
      | cons next cells => exact h cell (List.mem_cons_of_mem _ hcell)
    rw [List.flatMap_cons, List.append_assoc, wordsOf_word_append field.full field.solid gap.blank,
      ih hrest, List.map_cons]
    intro hgap
    rw [hcells hgap]
    rfl

theorem Row.words_chars (r : Row) : words (String.ofList r.chars) = r.fields := by
  rw [words, String.toList_ofList, chars, wordsOf_blank_append r.lead.blank,
    wordsOf_cells r.apart, List.map_map]
  exact List.map_congr_left fun cell _ => String.ofList_toList

theorem Row.feed_not_mem (r : Row) : '\n' ∉ r.chars := by
  intro h
  rcases List.mem_append.mp h with h | h
  · exact r.lead.inside h
  · obtain ⟨cell, -, h⟩ := List.mem_flatMap.mp h
    rcases List.mem_append.mp h with h | h
    · have hblank := cell.1.solid '\n' h
      cases hblank
    · exact cell.2.inside h

/-! ### Rows of a table -/

/-- A finished row is a line, from which at most a carriage return is missing or left. -/
theorem exists_linesOf_row (r : Row) (e : LineEnd) (cs : List Char) : ∃ line,
    linesOf (r.chars ++ e.chars ++ cs) = line :: linesOf cs ∧ wordsOf line = wordsOf r.chars := by
  cases e with
  | feed =>
    refine ⟨dropReturn r.chars, ?_, wordsOf_dropReturn r.chars⟩
    rw [LineEnd.chars, List.append_assoc, List.singleton_append, linesOf_line r.feed_not_mem]
  | returnFeed =>
    have hfree : '\n' ∉ r.chars ++ ['\r'] := by
      simpa using r.feed_not_mem
    refine ⟨dropReturn (r.chars ++ ['\r']), ?_, ?_⟩
    · rw [← linesOf_line hfree]
      simp [LineEnd.chars]
    · rw [wordsOf_dropReturn, wordsOf_append_blank (by decide)]
      exact List.append_nil _

section

variable {P : List (List Char) → Prop}

theorem exists_linesOf_rows (ls : List (Row × LineEnd)) (cs : List Char) :
    (∃ line ∈ linesOf (ls.flatMap (fun l => l.1.chars ++ l.2.chars) ++ cs), P (wordsOf line)) ↔
      (∃ l ∈ ls, P (wordsOf l.1.chars)) ∨ ∃ line ∈ linesOf cs, P (wordsOf line) := by
  induction ls with
  | nil => simp
  | cons l ls ih =>
    obtain ⟨line, hlines, hwords⟩ := exists_linesOf_row l.1 l.2
      (ls.flatMap (fun l => l.1.chars ++ l.2.chars) ++ cs)
    rw [List.flatMap_cons, List.append_assoc, hlines, List.exists_mem_cons_iff,
      List.exists_mem_cons_iff, hwords, ih, or_assoc]

theorem exists_linesOf_last (hP : ¬ P []) (last : Option Row) :
    (∃ line ∈ linesOf (last.elim [] Row.chars), P (wordsOf line)) ↔
      ∃ r ∈ last.toList, P (wordsOf r.chars) := by
  cases last with
  | none => simp [linesOf, cut]
  | some r =>
    rw [Option.elim_some, linesOf_unfinished r.feed_not_mem]
    by_cases hr : r.chars = []
    · simpa [hr, wordsOf, cut] using hP
    · simp [hr]

end

theorem exists_mem_lines_iff {P : List String → Prop} (hP : ¬ P []) (t : Layout) :
    (∃ line ∈ lines t.text, P (words line)) ↔ ∃ r ∈ t.rows, P r.fields := by
  have hwords (line : List Char) : words (String.ofList line) =
      (wordsOf line).map String.ofList := by
    rw [words, String.toList_ofList]
  have hfields (r : Row) : (wordsOf r.chars).map String.ofList = r.fields := by
    rw [← hwords, r.words_chars]
  rw [lines, Layout.text, String.toList_ofList]
  simp only [List.mem_map, exists_exists_and_eq_and, hwords]
  rw [exists_linesOf_rows (P := fun ws => P (ws.map String.ofList)),
    exists_linesOf_last (P := fun ws => P (ws.map String.ofList)) hP]
  simp only [hfields, Layout.rows, List.mem_append, List.mem_map, or_and_right, exists_or,
    exists_exists_and_eq_and]

/-! ### The check -/

theorem four_le_length {record : List String} (h : MountsReadOnly point record) :
    4 ≤ record.length := by
  obtain ⟨-, options, hoptions, -⟩ := h
  obtain ⟨hlt, -⟩ := List.getElem?_eq_some_iff.mp hoptions
  exact hlt

theorem isReadOnlyLine_iff {line : String} :
    isReadOnlyLine point line = true ↔ MountsReadOnly point (words line) := by
  unfold isReadOnlyLine
  split
  · next h =>
    rw [Bool.and_eq_true, any_splitAt_iff, beq_iff_eq, h]
    constructor
    · rintro ⟨rfl, hoptions⟩
      exact ⟨rfl, _, rfl, hoptions⟩
    · rintro ⟨hpoint, _, ⟨⟩, hoptions⟩
      exact ⟨Option.some.inj hpoint, hoptions⟩
  · next h =>
    constructor
    · intro hfalse
      cases hfalse
    · intro hmounts
      have hlen := four_le_length hmounts
      match hwords : words line, hlen with
      | device :: target :: kind :: options :: rest, _ => exact (h _ _ _ _ _ hwords).elim

theorem isReadOnly_iff (t : Layout) (point : String) :
    isReadOnly t.text point = true ↔ ∃ record ∈ t.records, MountsReadOnly point record := by
  rw [isReadOnly, List.any_eq_true]
  simp only [isReadOnlyLine_iff]
  rw [exists_mem_lines_iff fun h => absurd (four_le_length h) (by decide)]
  constructor
  · rintro ⟨r, hr, h⟩
    refine ⟨r.fields, List.mem_filter.mpr ⟨List.mem_map_of_mem hr, ?_⟩, h⟩
    exact decide_eq_true (four_le_length h)
  · rintro ⟨_, hrecord, h⟩
    obtain ⟨r, hr, rfl⟩ := List.mem_map.mp (List.mem_filter.mp hrecord).1
    exact ⟨r, hr, h⟩

/-- The check finds the records that mount the point read-only, and nothing else of a table matters:
neither rows that are too short, nor white space, nor how lines end. -/
theorem isReadOnly_exact (point : String) :
    (∀ t : Layout, isReadOnly t.text point = true ↔
      ∃ record ∈ t.records, MountsReadOnly point record) ∧
    ∀ t t' : Layout, t.records = t'.records →
      isReadOnly t.text point = isReadOnly t'.text point := by
  refine ⟨fun t => isReadOnly_iff t point, fun t t' h => ?_⟩
  rw [Bool.eq_iff_iff, isReadOnly_iff, isReadOnly_iff, h]

def noGap : Gap := ⟨[], by simp, by decide⟩

def tabGap : Gap := ⟨['\t'], by simp [isBlank], by decide⟩

def sysField : Field := ⟨"/sys", by decide, by simp [isBlank]⟩

def sysRow (lead : Gap) : Row where
  lead
  cells :=
    let kind : Field := ⟨"sysfs", by decide, by simp [isBlank]⟩
    [(kind, tabGap), (sysField, tabGap), (kind, tabGap),
      (⟨"rw,ro", by decide, by simp [isBlank]⟩, lead)]
  apart := by simp [tabGap]

def untidyTable : Layout where
  lines := [(⟨noGap, [], by decide⟩, .feed), (⟨tabGap, [(sysField, noGap)], by decide⟩, .returnFeed)]
  last := some (sysRow tabGap)

def tidyTable : Layout := ⟨[(sysRow noGap, .feed)], none⟩

theorem isReadOnly_exact_untidy : untidyTable.records = tidyTable.records ∧
    isReadOnly untidyTable.text "/sys" = isReadOnly tidyTable.text "/sys" :=
  ⟨rfl, (isReadOnly_exact "/sys").2 untidyTable tidyTable rfl⟩

end Changeover.MountTable
