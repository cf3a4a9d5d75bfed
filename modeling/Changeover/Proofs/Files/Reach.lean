import Changeover.Proofs.Files.Operations

/-!
# Paths that can lead to a file

An absolute path that does not go up leads to a file if and only if one stands at its location,
provided that its text can be a path, its names are short, and it does not ask for a directory.
-/

namespace Changeover

/-- The location of a path that does not depend on the working directory. -/
def Path.location (p : Path) : Location := p.placeFrom []

theorem FileSystem.place_of_isAbsolute {p : Path} (h : p.isAbsolute = true) (fs : FileSystem) :
    fs.place p = p.location := Path.placeFrom_of_isAbsolute h _ _

/-- A path that leads to the file at `l` whenever there is one. -/
structure Path.Reaches (p : Path) (l : Location) : Prop where
  fits : FileSystem.Fits p
  steps : FileSystem.walkSteps p = .root :: l.map .name
  short : ∀ s ∈ l, s.utf8ByteSize ≤ 255

theorem foldl_next_names (l m : Location) :
    (l.map Component.name).foldl Component.next m = m ++ l := by
  induction l generalizing m with
  | nil => simp
  | cons s l ih =>
    rw [List.map_cons, List.foldl_cons, ih]
    simp [Component.next]

namespace FileSystem

variable {t : FileTree} {fs : FileSystem} {p : Path} {l m r : Location}

theorem walk_names (hc : t.Closed) (hn : t.node? (m ++ l) ≠ none)
    (hs : ∀ s ∈ l, s.utf8ByteSize ≤ 255) : walk t m (l.map .name) = .ok (m ++ l) := by
  induction l generalizing m with
  | nil => simp [walk]
  | cons s l ih =>
    have hdir : t.node? m = some .directory := hc.above (List.cons_ne_nil s l) hn
    have henter : enter t m = .ok () := enter_eq_ok_iff.mpr hdir
    have hshort : ¬ s.utf8ByteSize > 255 := by
      have := hs s List.mem_cons_self
      omega
    have hassoc : m ++ s :: l = (m ++ [s]) ++ l := by simp
    rw [hassoc] at hn ⊢
    simp only [List.map_cons, walk, henter, if_neg hshort]
    exact ih hn fun s' hs' => hs s' (List.mem_cons_of_mem s hs')

theorem walk_names_short (h : walk t m (l.map .name) = .ok r) :
    ∀ s ∈ l, s.utf8ByteSize ≤ 255 := by
  induction l generalizing m with
  | nil => simp
  | cons s l ih =>
    have hrest := (walk_step_ok h).1
    intro s' hs'
    rcases List.mem_cons.mp hs' with rfl | hs'
    · rw [List.map_cons, walk] at h
      cases he : enter t m with
      | error e =>
        rw [he] at h
        cases h
      | ok u =>
        rw [he] at h
        by_cases hlong : s'.utf8ByteSize > 255
        · rw [if_pos hlong] at h
          cases h
        · omega
    · exact ih hrest s' hs'

theorem walk_append {cs ds : List Component} (h : walk t m (cs ++ ds) = .ok r) :
    ∃ n, walk t m cs = .ok n ∧ walk t n ds = .ok r := by
  induction cs generalizing m with
  | nil => exact ⟨m, by rw [walk], h⟩
  | cons c cs ih =>
    obtain ⟨n, hn, hr⟩ := ih (walk_step_ok h).1
    refine ⟨n, ?_, hr⟩
    rw [walk_cons_of_ok h]
    exact hn

end FileSystem

def FileSystem.fileAt (fs : FileSystem) (p : Path) : Option (ByteArray × Bool) :=
  match fs.stat p with
  | .ok (.file c x) => some (c, x)
  | _ => none

theorem FileSystem.fileAt_of_isFile {fs : FileSystem} {p : Path} (h : fs.isFile p = true) :
    fs.fileAt p = fs.tree.file? (fs.place p) := by
  obtain ⟨hlocate, c, x, hnode⟩ := isFile_iff.mp h
  rw [FileTree.file?_eq_some.mpr hnode, fileAt, stat_of_locate hlocate, hnode]

theorem FileSystem.fileAt_of_not_isFile {fs : FileSystem} {p : Path}
    (h : fs.isFile p = false) : fs.fileAt p = none := by
  unfold fileAt
  split
  · rename_i c x hstat
    simp [isFile, hstat, Except.toOption, Node.isFile] at h
  · rfl

namespace Path

open FileSystem

variable {fs : FileSystem} {p : Path} {l : Location}

theorem Reaches.place (h : p.Reaches l) (d : Location) : p.placeFrom d = l := by
  rw [← walkSteps_place, h.steps, List.foldl_cons, foldl_next_names]
  rfl

theorem Reaches.location_eq (h : p.Reaches l) : p.location = l := h.place []

theorem Reaches.isFile (h : p.Reaches l) (hc : fs.tree.Closed) {c : ByteArray} {x : Bool}
    (hf : fs.tree.node? l = some (.file c x)) : fs.isFile p = true := by
  have hplace : fs.place p = l := h.place _
  rw [isFile_iff, hplace]
  refine ⟨follow_eq_ok_iff.mpr ⟨h.fits, ?_⟩, c, x, hf⟩
  rw [h.steps, walk]
  exact walk_names hc (by simp [hf]) h.short

theorem Reaches.fileAt (h : p.Reaches l) (hc : fs.tree.Closed) :
    fs.fileAt p = fs.tree.file? l := by
  have hplace : fs.place p = l := h.place _
  cases hf : fs.isFile p with
  | true => rw [fileAt_of_isFile hf, hplace]
  | false =>
    rw [fileAt_of_not_isFile hf]
    cases hv : fs.tree.file? l with
    | none => rfl
    | some v =>
      rw [h.isFile hc (FileTree.file?_eq_some.mp hv)] at hf
      cases hf

theorem exists_names {cs : List Component} (h : ∀ c ∈ cs, ∃ s, c = .name s) :
    ∃ l : Location, cs = l.map .name := by
  induction cs with
  | nil => exact ⟨[], rfl⟩
  | cons c cs ih =>
    obtain ⟨s, rfl⟩ := h c List.mem_cons_self
    obtain ⟨l, rfl⟩ := ih fun c hc => h c (List.mem_cons_of_mem _ hc)
    exact ⟨s :: l, rfl⟩

theorem components_eq (ha : p.isAbsolute = true) (hup : .up ∉ p.steps) :
    p.components = .root :: p.location.map .name := by
  have hnames : ∀ c ∈ p.steps, ∃ s, c = .name s := by
    intro c hc
    obtain ⟨piece, -, rfl⟩ := List.mem_map.mp hc
    unfold step at hc ⊢
    split
    · rename_i hdots
      rw [if_pos hdots] at hc
      exact absurd hc hup
    · exact ⟨_, rfl⟩
  obtain ⟨l, hl⟩ := exists_names hnames
  have hcomponents : p.components = .root :: l.map .name := by
    rw [components_of_isAbsolute ha, hl]
  have hlocation : p.location = l := by
    rw [location, placeFrom, hcomponents, List.foldl_cons, foldl_next_names]
    rfl
  rw [hlocation, hcomponents]

theorem reaches_of_isFile (ha : p.isAbsolute = true) (hup : .up ∉ p.steps)
    (h : fs.isFile p = true) : p.Reaches p.location := by
  obtain ⟨hlocate, c, x, hnode⟩ := isFile_iff.mp h
  obtain ⟨hfits, hwalk⟩ := follow_eq_ok_iff.mp hlocate
  have hcomponents := components_eq ha hup
  have hsteps : walkSteps p = p.components := by
    rcases walkSteps_cases p with hs | hs
    · exact hs
    · -- a step in place at the end would need a directory
      rw [hs] at hwalk
      obtain ⟨n, hn, hlast⟩ := walk_append hwalk
      obtain ⟨hend, hdir⟩ := walk_step_ok hlast
      have hstay : n = fs.place p := by
        cases hend
        rfl
      rcases hdir with hdir | hdir
      · cases hdir
      · rw [hstay, hnode] at hdir
        cases hdir
  refine ⟨hfits, hsteps.trans hcomponents, ?_⟩
  rw [hsteps, hcomponents, walk] at hwalk
  exact walk_names_short hwalk

theorem fileAt_of_not_reaches (ha : p.isAbsolute = true) (hup : .up ∉ p.steps)
    (h : ¬ p.Reaches p.location) : fs.fileAt p = none := by
  apply fileAt_of_not_isFile
  rw [Bool.eq_false_iff]
  intro hfile
  exact h (reaches_of_isFile ha hup hfile)

end Path

end Changeover
