import Changeover.Proofs.Files.Reach

/-!
# Directories that are there

Once a directory was made it need not be made again: asking for it changes nothing, for as long as
no directory is taken away.
-/

namespace Changeover.FileSystem

variable {t : FileTree} {fs fs' : FileSystem} {p : Path} {l m r : Location}

theorem walk_append_of_ok {cs ds : List Component} (h : walk t m cs = .ok l) :
    walk t m (cs ++ ds) = walk t l ds := by
  induction cs generalizing m with
  | nil =>
    cases h
    rfl
  | cons c cs ih =>
    rw [List.cons_append, walk_cons_of_ok h]
    exact ih (walk_step_ok h).1

theorem walk_here (h : t.node? l = some .directory) : walk t l [.here] = .ok l := by
  simp only [walk, enter_eq_ok_iff.mpr h]
  rfl

theorem isDirectory_iff : fs.isDirectory p = true ↔
    fs.locate p = .ok (fs.place p) ∧ fs.tree.node? (fs.place p) = some .directory := by
  unfold isDirectory
  cases hl : fs.locate p with
  | error e =>
    rw [stat_of_error hl]
    simp [Except.toOption]
  | ok l =>
    obtain rfl := locate_place hl
    rw [stat_of_locate hl]
    cases hn : fs.tree.node? (fs.place p) with
    | none => simp [Except.toOption]
    | some n =>
      cases n with
      | file c x => simp [Except.toOption, Node.isDirectory, Node.isFile]
      | directory => simp [Except.toOption, Node.isDirectory, Node.isFile]

theorem isDirectory_of_follow (h : fs.follow p p.components = .ok l)
    (hl : fs.tree.node? l = some .directory) : fs.isDirectory p = true := by
  obtain ⟨hfits, hwalk⟩ := follow_eq_ok_iff.mp h
  have hlocate : fs.locate p = .ok l := by
    refine follow_eq_ok_iff.mpr ⟨hfits, ?_⟩
    rcases walkSteps_cases p with hsteps | hsteps
    · rw [hsteps, hwalk]
    · rw [hsteps, walk_append_of_ok hwalk, walk_here hl]
  obtain rfl := locate_place hlocate
  exact isDirectory_iff.mpr ⟨hlocate, hl⟩

theorem follow_of_isDirectory (h : fs.isDirectory p = true) :
    fs.follow p p.components = .ok (fs.place p) := by
  obtain ⟨hlocate, -⟩ := isDirectory_iff.mp h
  obtain ⟨hfits, hwalk⟩ := follow_eq_ok_iff.mp hlocate
  refine follow_eq_ok_iff.mpr ⟨hfits, ?_⟩
  rcases walkSteps_cases p with hsteps | hsteps
  · rw [hsteps] at hwalk
    exact hwalk
  · rw [hsteps] at hwalk
    obtain ⟨n, hn, -⟩ := walk_append hwalk
    rw [hn, walk_place hn]
    rfl

theorem isDirectory_mono (hcwd : fs'.directory = fs.directory)
    (hdirs : ∀ m, fs.tree.node? m = some .directory → fs'.tree.node? m = some .directory)
    (h : fs.isDirectory p = true) : fs'.isDirectory p = true := by
  obtain ⟨hlocate, hnode⟩ := isDirectory_iff.mp h
  rw [isDirectory_iff, place_congr hcwd]
  exact ⟨locate_mono hcwd hdirs hlocate, hdirs _ hnode⟩

theorem isDirectory_of_makeDirectory (h : fs.makeDirectory p = .ok fs') :
    fs'.isDirectory p = true := by
  have hgrows := makeDirectory_ok h
  obtain ⟨hfollow, rfl, hfree, -⟩ := makeDirectory_eq h
  obtain ⟨hfits, hwalk⟩ := follow_eq_ok_iff.mp hfollow
  refine isDirectory_of_follow (l := fs.place p) (follow_eq_ok_iff.mpr ⟨hfits, ?_⟩) ?_
  · exact walk_mono (fun _ hm => hgrows.keepsDirectory hm) hwalk
  · exact FileTree.node?_put_self (FileTree.ne_nil_of_free hfree) _ _

/-- Nothing need be made, because the path is empty or the directory is there. -/
def Opened (fs : FileSystem) (p : Path) : Prop :=
  p.text.isEmpty = true ∨ fs.isDirectory p = true

theorem opened_of_makeDirectories (h : fs.makeDirectories p = (.ok (), fs')) :
    fs'.Opened p := by
  unfold makeDirectories makeParents at h
  split at h
  · next hempty => exact .inl hempty
  · split at h
    · next hmade =>
      cases h
      exact .inr (isDirectory_of_makeDirectory hmade)
    · split at h
      · cases h
      · split at h
        · cases h
        · split at h
          · next hmade =>
            cases h
            exact .inr (isDirectory_of_makeDirectory hmade)
          · split at h
            · next hdir =>
              cases h
              exact .inr hdir
            · cases h
    · split at h
      · next hdir =>
        cases h
        exact .inr hdir
      · cases h

theorem Opened.makeDirectories (h : fs.Opened p) : fs.makeDirectories p = (.ok (), fs) := by
  unfold FileSystem.makeDirectories makeParents
  split
  · rfl
  · next hempty =>
    have hdir := h.resolve_left hempty
    have hexists : fs.makeDirectory p = .error .alreadyExists := by
      unfold makeDirectory
      simp only [follow_of_isDirectory hdir, bind, Except.bind, (isDirectory_iff.mp hdir).2]
      rfl
    rw [hexists]
    exact if_pos hdir

theorem Opened.mono (h : fs.Opened p) (hcwd : fs'.directory = fs.directory)
    (hdirs : ∀ m, fs.tree.node? m = some .directory → fs'.tree.node? m = some .directory) :
    fs'.Opened p := h.imp_right (isDirectory_mono hcwd hdirs)

end Changeover.FileSystem
