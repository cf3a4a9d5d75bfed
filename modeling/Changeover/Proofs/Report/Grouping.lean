import Changeover.Report.Summary
import Mathlib.Data.List.Induction
import Mathlib.Data.List.Perm.Basic

/-!
# What the summary says

The lines of a summary are put into their groups one by one, as the report is read. What comes out
is the stable grouping of all that is above success: for each level that occurs, from the most
severe down, its lines in the order of the report. Nothing is lost, and the summary speaks of
problems exactly if the highest level of the report is above success.
-/

namespace Changeover

namespace Level

variable {a b : Level}

theorem ne_of_lt (h : a < b) : a ≠ b := by
  rintro rfl
  exact Nat.lt_irrefl a.rank h

theorem lt_asymm (h : a < b) : ¬ b < a := Nat.lt_asymm h

theorem max_eq_success_iff : max a b = success ↔ a = success ∧ b = success := by
  cases a <;> cases b <;> decide

theorem foldl_max_eq_success_iff {ls : List Level} :
    ls.foldl max a = success ↔ a = success ∧ ∀ l ∈ ls, l = success := by
  induction ls generalizing a with
  | nil => simp
  | cons l ls ih => rw [List.foldl_cons, ih, max_eq_success_iff, List.forall_mem_cons, and_assoc]

theorem not_success_lt_iff : ¬ success < a ↔ a = success := by
  cases a <;> decide

/-- The levels that a summary tells of, most severe first. -/
def problems : List Level := [error, overridable, skip, warning]

theorem mem_problems_iff : a ∈ problems ↔ success < a := by
  cases a <;> decide

theorem problems_descending : problems.Pairwise fun a b => b < a := by decide

end Level

namespace Report

/-- A result or a message, with the action it comes from. -/
structure Item where
  action : String
  level : Level
  finding : Finding
  deriving DecidableEq

def Item.line (i : Item) : Line := Report.line i.action i.level i.finding

def Item.text (i : Item) : String := i.line.text

/-- What an entry says: its result, then its messages. -/
def itemsOf (e : ReportEntry) : List Item :=
  ⟨e.action, e.result.level, e.result.finding⟩ ::
    e.messages.map fun m => ⟨e.action, m.level, m.finding⟩

/-- All that is above success, in the order of the report. -/
def problems (r : Report) : List Item :=
  (r.entries.flatMap itemsOf).filter (Level.success < ·.level)

def ofLevel (items : List Item) (l : Level) : List Item := items.filter (·.level == l)

/-! ### Groups -/

/-- The lines of one level, as a group. -/
def groupOf (ls : List Line) (k : Level) : Group := ⟨k, (ls.filter (·.level == k)).map (·.text)⟩

/-- The groups of those levels that occur. -/
def groupsOf (levels : List Level) (ls : List Line) : List Group :=
  (levels.filter fun k => ls.any (·.level == k)).map (groupOf ls)

section

variable {levels : List Level} {ls : List Line} {l : Line} {k : Level}

theorem groupsOf_cons : groupsOf (k :: levels) ls =
    if ls.any (·.level == k) then groupOf ls k :: groupsOf levels ls else groupsOf levels ls := by
  unfold groupsOf
  rw [List.filter_cons]
  split
  · rw [List.map_cons]
  · rfl

@[simp] theorem groupOf_level (ls : List Line) (k : Level) : (groupOf ls k).level = k := rfl

theorem groupOf_snoc_of_ne (h : l.level ≠ k) : groupOf (ls ++ [l]) k = groupOf ls k := by
  simp [groupOf, h]

theorem groupOf_snoc_self :
    groupOf (ls ++ [l]) l.level = ⟨l.level, (groupOf ls l.level).texts ++ [l.text]⟩ := by
  simp [groupOf]

theorem any_snoc_of_ne (h : l.level ≠ k) :
    (ls ++ [l]).any (·.level == k) = ls.any (·.level == k) := by
  simp [h]

theorem any_snoc_self : (ls ++ [l]).any (·.level == l.level) = true := by simp

theorem groupsOf_snoc_of_not_mem (h : l.level ∉ levels) :
    groupsOf levels (ls ++ [l]) = groupsOf levels ls := by
  induction levels with
  | nil => rfl
  | cons k levels ih =>
    rw [List.mem_cons, not_or] at h
    rw [groupsOf_cons, groupsOf_cons, any_snoc_of_ne h.1, groupOf_snoc_of_ne h.1, ih h.2]

theorem addLine_of_lt {gs : List Group} (h : ∀ g ∈ gs, g.level < l.level) :
    addLine gs l = ⟨l.level, [l.text]⟩ :: gs := by
  cases gs with
  | nil => rfl
  | cons g gs =>
    have hlt := h g List.mem_cons_self
    rw [addLine, if_neg (Level.ne_of_lt hlt).symm, if_pos hlt]

theorem level_mem_of_mem_groupsOf {g : Group} (h : g ∈ groupsOf levels ls) :
    g.level ∈ levels := by
  obtain ⟨k, hk, rfl⟩ := List.mem_map.mp h
  exact List.mem_of_mem_filter hk

/-- A line is put into the group of its level, or between those above and below if there is none
yet. -/
theorem addLine_groupsOf (hdown : levels.Pairwise fun a b => b < a) (hl : l.level ∈ levels) :
    addLine (groupsOf levels ls) l = groupsOf levels (ls ++ [l]) := by
  induction levels with
  | nil => cases hl
  | cons k levels ih =>
    obtain ⟨hbelow, hdown⟩ := List.pairwise_cons.mp hdown
    rw [groupsOf_cons, groupsOf_cons]
    by_cases hk : l.level = k
    · subst hk
      have hout : l.level ∉ levels := fun hin => Level.ne_of_lt (hbelow _ hin) rfl
      rw [groupsOf_snoc_of_not_mem hout, groupOf_snoc_self, if_pos any_snoc_self]
      split
      · rw [addLine, groupOf_level, if_pos rfl]
      · -- the first line of its level
        rename_i hnone
        have hempty : (groupOf ls l.level).texts = [] := by simpa [groupOf] using hnone
        rw [addLine_of_lt fun g hg => hbelow _ (level_mem_of_mem_groupsOf hg), hempty]
        rfl
    · have hlt := hbelow _ ((List.mem_cons.mp hl).resolve_left hk)
      rw [any_snoc_of_ne hk, groupOf_snoc_of_ne hk,
        ← ih hdown ((List.mem_cons.mp hl).resolve_left hk)]
      split
      · rw [addLine, groupOf_level, if_neg hk, if_neg (Level.lt_asymm hlt)]
      · rfl

theorem foldl_addLine (hdown : levels.Pairwise fun a b => b < a) (hl : ∀ l ∈ ls, l.level ∈ levels) :
    ls.foldl addLine [] = groupsOf levels ls := by
  induction ls using List.reverseRecOn with
  | nil => simp [groupsOf]
  | append_singleton ls l ih =>
    rw [List.foldl_append, ih fun m hm => hl m (List.mem_append_left _ hm)]
    exact addLine_groupsOf hdown (hl l (List.mem_append_right _ (List.mem_singleton_self l)))

/-! ### The summary of a report -/

variable (r : Report)

theorem entryLines_eq : entryLines = fun e => (itemsOf e).map Item.line := by
  funext e
  rw [entryLines, itemsOf, List.map_cons, List.map_map]
  rfl

theorem lines_eq_items : (r.entries.flatMap entryLines).filter (Level.success < ·.level) =
    r.problems.map Item.line := by
  rw [entryLines_eq, ← List.map_flatMap, List.filter_map]
  rfl

theorem groupOf_items (items : List Item) (l : Level) :
    groupOf (items.map Item.line) l = ⟨l, (ofLevel items l).map Item.text⟩ := by
  rw [groupOf, List.filter_map, List.map_map]
  rfl

/-- The levels above success at which there is something to report, most severe first. -/
def problemLevels : List Level := Level.problems.filter fun l => r.problems.any (·.level == l)

theorem groups_eq : r.groups =
    r.problemLevels.map fun l => ⟨l, (ofLevel r.problems l).map Item.text⟩ := by
  have hall : ∀ l ∈ r.problems.map Item.line, l.level ∈ Level.problems := by
    intro l hl
    obtain ⟨i, hi, rfl⟩ := List.mem_map.mp hl
    exact Level.mem_problems_iff.mpr (of_decide_eq_true (List.mem_filter.mp hi).2)
  have hgroup : groupOf (r.problems.map Item.line) =
      fun l => ⟨l, (ofLevel r.problems l).map Item.text⟩ := funext (groupOf_items r.problems)
  rw [groups, lines_eq_items, foldl_addLine Level.problems_descending hall, groupsOf, problemLevels, hgroup]
  simp only [List.any_map]
  rfl

theorem level_mem_problemLevels {i : Item} (h : i ∈ r.problems) : i.level ∈ r.problemLevels := by
  refine List.mem_filter.mpr ⟨?_, List.any_eq_true.mpr ⟨i, h, beq_self_eq_true _⟩⟩
  exact Level.mem_problems_iff.mpr (of_decide_eq_true (List.mem_filter.mp h).2)

theorem problemLevels_eq_nil_iff : r.problemLevels = [] ↔ r.problems = [] := by
  constructor
  · intro h
    refine List.eq_nil_iff_forall_not_mem.mpr fun i hi => ?_
    have hl := level_mem_problemLevels r hi
    rw [h] at hl
    cases hl
  · intro h
    simp [problemLevels, h]

theorem flatMap_ofLevel_perm {levels : List Level} (hn : levels.Nodup) {items : List Item}
    (hl : ∀ i ∈ items, i.level ∈ levels) : (levels.flatMap (ofLevel items)).Perm items := by
  induction levels generalizing items with
  | nil =>
    have hnone : items = [] := List.eq_nil_iff_forall_not_mem.mpr fun i hi => nomatch hl i hi
    rw [hnone]
    exact .nil
  | cons k levels ih =>
    obtain ⟨hk, hn⟩ := List.nodup_cons.mp hn
    have hothers : ∀ l ∈ levels, ofLevel items l = ofLevel (items.filter (!·.level == k)) l := by
      intro l hin
      have hne : l ≠ k := fun h => hk (h ▸ hin)
      rw [ofLevel, ofLevel, List.filter_filter]
      refine List.filter_congr fun i _ => ?_
      by_cases hi : i.level = l
      · simp [hi, hne]
      · simp [hi]
    have hrest : (levels.flatMap (ofLevel items)).Perm (items.filter (!·.level == k)) := by
      rw [List.flatMap_congr hothers]
      refine ih hn fun i hi => ?_
      obtain ⟨hin, hne⟩ := List.mem_filter.mp hi
      exact (List.mem_cons.mp (hl i hin)).resolve_left (by simpa using hne)
    have hparts := List.filter_append_perm (fun i : Item => i.level == k) items
    rw [List.flatMap_cons]
    exact (hrest.append_left _).trans hparts

theorem summary_eq : r.summary = if r.problems = [] then noProblems else
    String.join (r.problemLevels.map fun l =>
      "========== " ++ l.name ++ " ==========\n" ++
        String.join ((ofLevel r.problems l).map fun i => i.text ++ "\n") ++ "\n") := by
  have hsummary : r.summary =
      if r.groups = [] then noProblems else String.join (r.groups.map block) := by
    unfold summary
    cases r.groups <;> rfl
  have hblock : ∀ l, block ⟨l, (ofLevel r.problems l).map Item.text⟩ =
      "========== " ++ l.name ++ " ==========\n" ++
        String.join ((ofLevel r.problems l).map fun i => i.text ++ "\n") ++ "\n" := by
    intro l
    rw [block, List.map_map]
    rfl
  simp only [hsummary, groups_eq, List.map_eq_nil_iff, problemLevels_eq_nil_iff, List.map_map,
    Function.comp_def, hblock]

theorem summary_eq_noProblems_iff : r.summary = noProblems ↔ r.problems = [] := by
  rw [summary_eq, ite_eq_left_iff]
  constructor
  · intro h
    by_contra hne
    have hheader := h hne
    obtain ⟨l, ls, hls⟩ := List.exists_cons_of_ne_nil (mt (problemLevels_eq_nil_iff r).mp hne)
    -- the first header opens with another letter than the line that there are no problems
    rw [hls] at hheader
    have hfirst := congrArg (fun s => s.toList.head?) hheader
    simp [noProblems] at hfirst
  · exact fun h hne => absurd h hne

theorem problems_eq_nil_iff : r.problems = [] ↔ r.maxLevel = .success := by
  have hlevels : ∀ e, levelsOf e = (itemsOf e).map (·.level) := by
    intro e
    rw [levelsOf, itemsOf, List.map_cons, List.map_map]
    rfl
  rw [maxLevel, Level.foldl_max_eq_success_iff, problems, List.filter_eq_nil_iff]
  simp only [hlevels, decide_eq_true_eq, Level.not_success_lt_iff, List.mem_flatMap,
    List.mem_map, true_and]
  constructor
  · rintro h l ⟨e, he, i, hi, rfl⟩
    exact h i ⟨e, he, hi⟩
  · rintro h i ⟨e, he, hi⟩
    exact h i.level ⟨e, he, i, hi, rfl⟩

end

/-- The summary is the stable grouping of all that is above success, and it tells of no problems
exactly if there is nothing above success. -/
theorem summary_groups_problems (r : Report) :
    (r.summary = if r.problems = [] then noProblems else
      String.join (r.problemLevels.map fun l =>
        "========== " ++ l.name ++ " ==========\n" ++
          String.join ((ofLevel r.problems l).map fun i => i.text ++ "\n") ++ "\n")) ∧
    (r.summary = noProblems ↔ r.problems = []) ∧
    (r.problems = [] ↔ r.maxLevel = .success) ∧
    (r.problemLevels.flatMap (ofLevel r.problems)).Perm r.problems := by
  refine ⟨r.summary_eq, r.summary_eq_noProblems_iff, r.problems_eq_nil_iff, ?_⟩
  have hdown : r.problemLevels.Nodup :=
    (Level.problems_descending.imp fun h => (Level.ne_of_lt h).symm).filter _
  exact flatMap_ofLevel_perm hdown fun i hi => r.level_mem_problemLevels hi

end Report

end Changeover
