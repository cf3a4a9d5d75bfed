import Changeover.Proofs.Files.Directories
import Changeover.Proofs.Files.Resolved

/-!
# Operations below a root

A path that goes on from a root and never climbs above it leads below the root, and file operations
on it change nothing elsewhere. Making its directories may also make those on the way to the root.
-/

namespace Changeover

namespace Path

def LeadsThrough (root : Path) (d m : Location) : Prop :=
  ∃ cs, cs <+: root.steps ∧ m = cs.foldl Component.next (root.base d)

/-- Wherever a part of the path leads, it is below the root or on the way to it. -/
def Along (root p : Path) : Prop := ∀ cs, cs <+: p.steps → ∀ d,
  root.placeFrom d <+: cs.foldl Component.next (p.base d) ∨
    root.LeadsThrough d (cs.foldl Component.next (p.base d))

/-- The path leads below the root and by no detour. -/
structure Within (root p : Path) : Prop where
  along : root.Along p
  place : ∀ d, root.placeFrom d <+: p.placeFrom d

variable {root p q : Path}

theorem placeFrom_steps (p : Path) (d : Location) :
    p.placeFrom d = p.steps.foldl Component.next (p.base d) := by
  rw [placeFrom_eq, ← steps_eq]

theorem base_congr (h : p.isAbsolute = q.isAbsolute) (d : Location) : p.base d = q.base d := by
  rw [base, base, h]

theorem exists_opening (p : Path) (d : Location) :
    ∃ cs, p.components = cs ++ p.steps ∧ cs.foldl Component.next d = p.base d := by
  refine ⟨_, rfl, ?_⟩
  unfold base
  split
  · rfl
  · split <;> rfl

theorem Along.place (h : root.Along p) (d : Location) :
    root.placeFrom d <+: p.placeFrom d ∨ root.LeadsThrough d (p.placeFrom d) := by
  rw [placeFrom_steps p]
  exact h p.steps List.prefix_rfl d

theorem Along.parent (h : root.Along p) (hq : p.parent? = some q) : root.Along q := by
  obtain ⟨habs, hsteps⟩ := parent?_eq_some hq
  intro cs hcs d
  rw [hsteps] at hcs
  rw [base_congr habs]
  exact h cs (hcs.trans (List.dropLast_prefix p.steps)) d

theorem Within.join_name {s : String} (h : root.Within p) (hs : IsName s) :
    root.Within (p.join ⟨s⟩) := by
  have hplace (d : Location) : root.placeFrom d <+: (p.join ⟨s⟩).placeFrom d := by
    rw [placeFrom_join_name hs]
    exact (h.place d).trans (List.prefix_append _ [s])
  refine ⟨fun cs hcs d => ?_, hplace⟩
  have hsteps : (p.join ⟨s⟩).steps = p.steps ++ [.name s] := by
    rw [steps_eq, stepsOf_join hs.isAbsolute, hs.steps, ← steps_eq]
  rw [hsteps, List.prefix_concat_iff] at hcs
  rcases hcs with rfl | hcs
  · rw [← hsteps, ← placeFrom_steps]
    exact .inl (hplace d)
  · rw [base_congr (isAbsolute_join hs.isAbsolute)]
    exact h.along cs hcs d

theorem within_of_top (h : root.resolved = { absolute := true }) (p : Path) : root.Within p := by
  have htop (d : Location) : root.placeFrom d = [] := by
    rw [placeFrom_eq_resolved, h]
    rfl
  refine ⟨fun cs _ d => .inl ?_, fun d => ?_⟩
  · rw [htop]
    exact List.nil_prefix
  · rw [htop]
    exact List.nil_prefix

end Path

theorem Site.within_of_grounded (s : Site) {p : Path} (h : p.Grounded) :
    s.root.Within (s.path p) := by
  constructor
  · intro cs hcs d
    rw [path_steps] at hcs
    rcases List.prefix_or_prefix_of_prefix hcs (List.prefix_append s.root.steps p.steps) with
      hway | ⟨ds, rfl⟩
    · exact .inr ⟨cs, hway, by rw [Path.base_congr (s.path_isAbsolute p)]⟩
    · rw [List.prefix_append_right_inj] at hcs
      rw [Path.base_congr (s.path_isAbsolute p), List.foldl_append, ← Path.placeFrom_steps]
      exact .inl ((h.descends.of_prefix hcs).below _)
  · intro d
    rw [Path.placeFrom_eq_resolved, Path.placeFrom_eq_resolved]
    exact (s.encloses_path_of_grounded h).place d

theorem FileTree.node?_prune {l m : Location} (h : ¬ l <+: m) (t : FileTree) :
    (t.prune l).node? m = t.node? m := by
  have hnot : l.isPrefixOf m = false := by
    rw [Bool.eq_false_iff, Ne, List.isPrefixOf_iff_prefix]
    exact h
  unfold node? prune
  split
  · rfl
  · rw [List.find?_filter]
    congr 2
    funext e
    by_cases he : e.1 = m
    · simp [he, hnot]
    · simp [he]

namespace FileSystem

/-- Nothing was changed but below the root, and directories on the way to it may be new. -/
structure Confined (root : Path) (fs fs' : FileSystem) : Prop where
  cwd : fs'.directory = fs.directory
  outside : ∀ m, ¬ root.placeFrom fs.directory <+: m → fs'.tree.node? m = fs.tree.node? m ∨
    root.LeadsThrough fs.directory m ∧ fs.tree.node? m = none ∧
      fs'.tree.node? m = some .directory

variable {root p q : Path} {fs fs' fs'' : FileSystem}

namespace Confined

theorem refl (root : Path) (fs : FileSystem) : Confined root fs fs := ⟨rfl, fun _ _ => .inl rfl⟩

theorem trans (h : Confined root fs fs') (h' : Confined root fs' fs'') : Confined root fs fs'' := by
  refine ⟨h'.cwd.trans h.cwd, fun m hm => ?_⟩
  have hlater := h'.outside m
  rw [h.cwd] at hlater
  rcases h.outside m hm with hsame | ⟨hway, hfree, hmade⟩
  · rcases hlater hm with hsame' | ⟨hway, hfree, hmade⟩
    · exact .inl (hsame'.trans hsame)
    · exact .inr ⟨hway, hsame.symm.trans hfree, hmade⟩
  · rcases hlater hm with hsame' | ⟨-, hfree', -⟩
    · exact .inr ⟨hway, hfree, hsame'.trans hmade⟩
    · rw [hmade] at hfree'
      cases hfree'

theorem of_place (hp : root.Within p) (hcwd : fs'.directory = fs.directory)
    (h : ∀ m, ¬ fs.place p <+: m → fs'.tree.node? m = fs.tree.node? m) :
    Confined root fs fs' :=
  ⟨hcwd, fun m hm => .inl (h m fun hpm => hm ((hp.place fs.directory).trans hpm))⟩

end Confined

/-- Where the root is there, all that is on the way to it is there as well. -/
theorem node?_of_leadsThrough (hroot : fs.isDirectory root = true) {m : Location}
    (hway : root.LeadsThrough fs.directory m) (hm : ¬ root.placeFrom fs.directory <+: m) :
    fs.tree.node? m = some .directory := by
  obtain ⟨cs, ⟨ds, hds⟩, rfl⟩ := hway
  obtain ⟨opening, hopening, hbase⟩ := root.exists_opening fs.directory
  obtain ⟨-, hwalk⟩ := follow_eq_ok_iff.mp (follow_of_isDirectory hroot)
  rw [hopening, ← hds, ← List.append_assoc] at hwalk
  obtain ⟨n, hn, hrest⟩ := walk_append hwalk
  have hplace := walk_place hn
  rw [List.foldl_append, hbase] at hplace
  subst hplace
  cases ds with
  | nil =>
    have hend : root.placeFrom fs.directory = cs.foldl Component.next (root.base fs.directory) := by
      rw [Path.placeFrom_steps, ← hds, List.append_nil]
    exact absurd (hend ▸ List.prefix_rfl) hm
  | cons c ds =>
    refine (walk_step_ok hrest).2.resolve_left ?_
    rintro rfl
    exact root.root_not_mem_steps (hds ▸ List.mem_append_right cs List.mem_cons_self)

namespace Confined

theorem unchanged (h : Confined root fs fs') (hroot : fs.isDirectory root = true) {m : Location}
    (hm : ¬ root.placeFrom fs.directory <+: m) : fs'.tree.node? m = fs.tree.node? m := by
  rcases h.outside m hm with hsame | ⟨hway, hfree, -⟩
  · exact hsame
  · rw [node?_of_leadsThrough hroot hway hm] at hfree
    cases hfree

end Confined

/-! ### Operations -/

theorem confined_writeWith {c : ByteArray} {x? : Option Bool} (hp : root.Within p)
    (h : fs.writeWith p c x? = .ok fs') : Confined root fs fs' := by
  obtain ⟨x, rfl, -⟩ := writeWith_ok h
  refine .of_place hp rfl fun m hm => FileTree.node?_put_of_ne ?_ _ _
  rintro rfl
  exact hm List.prefix_rfl

theorem Copied.confined {c : ByteArray} {x : Bool} (hq : root.Within q)
    (h : fs.Copied p q c x fs') : Confined root fs fs' := by
  refine .of_place hq h.cwd fun m hm => (h.node m).trans (FileTree.node?_put_of_ne ?_ _ _)
  rintro rfl
  exact hm List.prefix_rfl

theorem confined_removeFile (hp : root.Within p) (h : fs.removeFile p = .ok fs') :
    Confined root fs fs' := by
  obtain ⟨c, x, -, rfl⟩ := removeFile_ok h
  refine .of_place hp rfl fun m hm => FileTree.node?_erase_of_ne ?_ _
  rintro rfl
  exact hm List.prefix_rfl

theorem confined_removeTree (hp : root.Within p) (fs : FileSystem) :
    Confined root fs (fs.removeTree p).2 := by
  unfold removeTree
  split
  · exact .refl root fs
  · next l hl =>
    obtain rfl := locate_place hl
    split
    · exact .refl root fs
    · exact .refl root fs
    · split
      · refine .of_place hp rfl fun m hm => ?_
        have hne : m ≠ fs.place p := by
          rintro rfl
          exact hm List.prefix_rfl
        exact (FileTree.node?_put_of_ne hne _ _).trans (FileTree.node?_prune hm _)
      · exact .of_place hp rfl fun m hm => FileTree.node?_prune hm _

theorem confined_makeDirectory (hp : root.Along p) (h : fs.makeDirectory p = .ok fs') :
    Confined root fs fs' := by
  obtain ⟨-, rfl, hfree, -⟩ := makeDirectory_eq h
  refine ⟨rfl, fun m hm => ?_⟩
  by_cases hmp : m = fs.place p
  · subst hmp
    have hway := (hp.place fs.directory).resolve_left hm
    exact .inr ⟨hway, hfree, FileTree.node?_put_self (FileTree.ne_nil_of_free hfree) _ _⟩
  · exact .inl (FileTree.node?_put_of_ne hmp _ _)

theorem confined_makeParents (n : Nat) (hp : root.Along p) (fs : FileSystem) :
    Confined root fs (makeParents n p fs).2 := by
  induction n generalizing p fs with
  | zero => exact .refl root fs
  | succ n ih =>
    unfold makeParents
    split
    · exact .refl root fs
    · split
      · next hmade => exact confined_makeDirectory hp hmade
      · split
        · exact .refl root fs
        · next parent hparent =>
          have hup := ih (hp.parent hparent) fs
          split
          · next hr =>
            rw [hr] at hup
            exact hup
          · next hr =>
            rw [hr] at hup
            split
            · next hmade => exact hup.trans (confined_makeDirectory hp hmade)
            · split
              · exact hup
              · exact hup
      · split
        · exact .refl root fs
        · exact .refl root fs

theorem confined_makeDirectories (hp : root.Along p) (fs : FileSystem) :
    Confined root fs (fs.makeDirectories p).2 := confined_makeParents _ hp fs

end FileSystem

end Changeover
