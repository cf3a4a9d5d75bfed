import Changeover.Proofs.Files.Below
import Changeover.Proofs.Files.Digests
import Changeover.Proofs.Files.Saving
import Mathlib.Logic.Relation

/-!
# Spellings of a path

Slashes and dots can be added to a path without changing its components, and two absolute paths have
the same components exactly if they differ by such additions. A host path below the root is the one
spelling without additions, so it is told by its components, and so is the place where a saved file
has its copy.
-/

namespace Changeover

namespace Path

open Changeover.Text

/-- Texts of paths of which the second has one slash or one `.` more that stands for nothing. -/
inductive Padded : List Char → List Char → Prop
  | repeated (cs ds : List Char) : Padded (cs ++ '/' :: ds) (cs ++ '/' :: '/' :: ds)
  | here (cs ds : List Char) : Padded (cs ++ '/' :: ds) (cs ++ '/' :: '.' :: '/' :: ds)
  | trailing (cs : List Char) : cs ≠ [] → Padded cs (cs ++ ['/'])

/-- Paths that differ in nothing but such additions. -/
def Respelled (p q : Path) : Prop := Relation.EqvGen Padded p.text.toList q.text.toList

theorem Padded.steps {cs ds : List Char} (h : Padded cs ds) : stepsOf cs = stepsOf ds := by
  cases h with
  | repeated cs ds => rw [stepsOf_append, stepsOf_append, stepsOf_slash]
  | here cs ds =>
    have hdot : stepsOf ('.' :: '/' :: ds) = stepsOf ds := stepsOf_append ['.'] ds
    rw [stepsOf_append, stepsOf_append, hdot]
  | trailing _ _ =>
    rw [stepsOf_append]
    exact (List.append_nil _).symm

variable {p q : Path}

theorem components_eq_iff (hp : p.isAbsolute = true) (hq : q.isAbsolute = true) :
    p.components = q.components ↔ p.steps = q.steps := by
  rw [components_of_isAbsolute hp, components_of_isAbsolute hq, List.cons.injEq]
  exact and_iff_right rfl

theorem stepsOf_congr {cs ds : List Char} (h : Relation.EqvGen Padded cs ds) :
    stepsOf cs = stepsOf ds := by
  induction h with
  | rel _ _ h => exact h.steps
  | refl _ => rfl
  | symm _ _ _ ih => exact ih.symm
  | trans _ _ _ _ _ ih ih' => exact ih.trans ih'

theorem Respelled.steps (h : Respelled p q) : p.steps = q.steps := by
  rw [steps_eq, steps_eq]
  exact stepsOf_congr h

/-! ### The spelling without additions -/

section

variable {piece : List Char}

theorem padded_idle (h : isIdle piece = true) (cs ds : List Char) :
    Relation.EqvGen Padded (cs ++ '/' :: ds) (cs ++ '/' :: piece ++ '/' :: ds) := by
  rw [isIdle, Bool.or_eq_true, beq_iff_eq, beq_iff_eq] at h
  rw [List.append_assoc]
  rcases h with rfl | rfl
  · exact .rel _ _ (.repeated cs ds)
  · exact .rel _ _ (.here cs ds)

theorem padded_idle_end (h : isIdle piece = true) (cs : List Char) :
    Relation.EqvGen Padded (cs ++ ['/']) (cs ++ '/' :: piece) := by
  have hslash : Padded (cs ++ '/' :: piece) (cs ++ '/' :: piece ++ ['/']) :=
    .trailing _ (by simp)
  exact (padded_idle h cs []).trans _ _ _ (.symm _ _ (.rel _ _ hslash))

end

theorem padded_glue (cs : List Char) (ps : List (List Char)) :
    Relation.EqvGen Padded (cs ++ '/' :: glue '/' (ps.filter (!isIdle ·)))
      (cs ++ '/' :: glue '/' ps) := by
  induction ps generalizing cs with
  | nil => exact .refl _
  | cons p ps ih =>
    by_cases hp : isIdle p = true
    · rw [List.filter_cons_of_neg (by simpa using hp)]
      cases ps with
      | nil => exact padded_idle_end hp cs
      | cons q qs =>
        refine (ih cs).trans _ _ _ ?_
        simpa [glue] using padded_idle hp cs (glue '/' (q :: qs))
    · rw [List.filter_cons_of_pos (by simpa using hp)]
      cases ps with
      | nil => exact .refl _
      | cons q qs =>
        have hrest := ih (cs ++ '/' :: p)
        cases hbusy : (q :: qs).filter (!isIdle ·) with
        | nil =>
          -- nothing but additions follows, so the slash before them is one too
          have hslash : Padded (cs ++ '/' :: p) (cs ++ '/' :: p ++ ['/']) :=
            .trailing _ (by simp)
          rw [hbusy] at hrest
          simpa [glue] using (Relation.EqvGen.rel _ _ hslash).trans _ _ _ hrest
        | cons r rs =>
          rw [hbusy] at hrest
          simpa [glue] using hrest

theorem belowRoot_of_isAbsolute (hp : p.isAbsolute = true) :
    p.belowRoot.text.toList = glue '/' (p.pieces.filter (!isIdle ·)) := by
  have htext (piece : List Char) : (step piece).text.toList = piece := by
    unfold step
    split
    · rename_i hup
      exact (beq_iff_eq.mp hup).symm
    · exact String.toList_ofList
  rw [belowRoot_chars, filter_components, if_pos hp, List.nil_append, steps, List.map_map]
  exact congrArg (glue '/') (List.map_id'' htext _)

theorem respelled_belowRoot (hp : p.isAbsolute = true) :
    Relation.EqvGen Padded ('/' :: p.belowRoot.text.toList) p.text.toList := by
  obtain ⟨cs, hcs⟩ := chars_of_isAbsolute hp
  have hhead : p.head = ['/'] := by rw [head, if_pos hp]
  have hpieces : glue '/' p.pieces = cs := by
    rw [pieces, hhead, hcs]
    exact glue_cut '/' cs
  rw [belowRoot_of_isAbsolute hp, hcs, ← hpieces]
  exact padded_glue [] p.pieces

theorem belowRoot_congr (hp : p.isAbsolute = true) (hq : q.isAbsolute = true)
    (h : p.steps = q.steps) : p.belowRoot = q.belowRoot := by
  rw [belowRoot, belowRoot, (components_eq_iff hp hq).mpr h]

/-- Additions are all that the components of a path do not tell. -/
theorem steps_eq_iff_respelled (hp : p.isAbsolute = true) (hq : q.isAbsolute = true) :
    p.steps = q.steps ↔ Respelled p q := by
  refine ⟨fun h => ?_, Respelled.steps⟩
  have hnormal := respelled_belowRoot hq
  rw [← belowRoot_congr hp hq h] at hnormal
  exact (respelled_belowRoot hp).symm.trans _ _ _ hnormal

/-! ### Components of joined paths -/

theorem head?_cut_append (cs ds : List Char) :
    (cut (· == '/') (cs ++ '/' :: ds)).head? = (cut (· == '/') cs).head? := by
  rw [cut_append (· == '/') rfl]
  exact List.head?_append_of_ne_nil _ (cut_ne_nil _ _)

theorem startsHere_join (hq : q.isAbsolute = false) (hhere : q.startsHere = false) :
    (p.join q).startsHere = p.startsHere := by
  by_cases hp : p.text = ""
  · rw [join_of_empty hq hp, hhere]
    simp [startsHere, hp, cut]
  · obtain ⟨cs, hjoin, hcs⟩ := join_chars hq hp
    rw [startsHere, startsHere, isAbsolute_join hq, hjoin, head?_cut_append]
    rcases hcs with hcs | ⟨hcs, -⟩
    · rw [hcs, head?_cut_append]
    · rw [hcs]

theorem components_join (hq : q.isAbsolute = false) (hhere : q.startsHere = false) :
    (p.join q).components = p.components ++ q.steps := by
  rw [components, isAbsolute_join hq, startsHere_join hq hhere, steps_eq, stepsOf_join hq,
    ← steps_eq, ← steps_eq, ← List.append_assoc]
  rfl

theorem belowRoot_startsHere (hp : p.isAbsolute = true) : p.belowRoot.startsHere = false := by
  have hfirst : (cut (· == '/') p.belowRoot.text.toList).head? ≠ some ['.'] := by
    rw [belowRoot_of_isAbsolute hp]
    intro hdot
    cases hps : p.pieces.filter (!isIdle ·) with
    | nil =>
      rw [hps] at hdot
      cases hdot
    | cons q qs =>
      have hflat : ∀ r ∈ p.pieces.filter (!isIdle ·), '/' ∉ r :=
        fun r hr => flat_of_mem_pieces (List.mem_of_mem_filter hr)
      rw [cut_glue (by simp [hps]) hflat, hps] at hdot
      have hbusy : q ∈ p.pieces.filter (!isIdle ·) := hps ▸ List.mem_cons_self
      obtain rfl : q = ['.'] := Option.some.inj hdot
      have hidle := (List.mem_filter.mp hbusy).2
      cases hidle
  simp [startsHere, hfirst]

end Path

/-! ### Copies -/

namespace SavedFile

/-- The message whose digest names the directory that the copy of a path is kept in. -/
def directoryMessage (path : Path) : List UInt8 := path.parentOrRoot.text.toUTF8.toList

/-- The copy of a path has one place, and every save of the path keeps it there. -/
structure KeepsCopy (backup path copy : Path) : Prop where
  named : copyOf? backup path = some copy
  saved : ∀ f : SavedFile, f.path = path → f.backupDirectory = backup → f.state = .pending →
    ∀ fs, (f.enable fs).2.1.enabled = true → (f.enable fs).2.1.copy = some copy

theorem Enabling.copy_eq {f f' : SavedFile} {fs fs' : FileSystem} {r : Except Fault Unit}
    (h : Enabling f fs r f' fs') (hpending : f.state = .pending) (he : f'.enabled = true) :
    f'.copy = copyOf? f.backupDirectory f.path := by
  cases h with
  | idle _ => simp [enabled, hpending] at he
  | refused _ => simp [enabled, hpending] at he
  | saved hcopy _ _ _ => exact hcopy.symm

theorem exists_keepsCopy {path : Path} {n : String} (hn : path.fileName? = some n)
    (backup : Path) : ∃ copy, KeepsCopy backup path copy := by
  obtain ⟨copy, hcopy⟩ : ∃ copy, copyOf? backup path = some copy :=
    ⟨_, by rw [copyOf?, hn, Option.map_some]⟩
  refine ⟨copy, hcopy, ?_⟩
  rintro f rfl rfl hpending fs henabled
  exact ((enabling hpending fs).copy_eq hpending henabled).trans hcopy

variable {backup path path' copy copy' : Path}

theorem KeepsCopy.unique (h : KeepsCopy backup path copy) (h' : KeepsCopy backup path copy') :
    copy = copy' :=
  Option.some.inj (h.named.symm.trans h'.named)

/-- Copies that meet are of paths with the same steps, unless two parents are a collision. -/
theorem KeepsCopy.steps (h : KeepsCopy backup path copy) (h' : KeepsCopy backup path' copy')
    {d : Location} (hsame : copy.placeFrom d = copy'.placeFrom d)
    (hapart : ¬ Sha256.Collision (directoryMessage path) (directoryMessage path')) :
    path.steps = path'.steps := by
  obtain ⟨name, hname, hname', hdigest⟩ := same_place_copyOf h.named h'.named hsame
  have htext := (Sha256.eq_or_collision hdigest).resolve_right hapart
  have hparent : path.parentOrRoot = path'.parentOrRoot := by rwa [Path.mk.injEq]
  rw [(Path.parentOrRoot_of_fileName? hname).2, (Path.parentOrRoot_of_fileName? hname').2, hparent]

end SavedFile

/-! ### Host paths -/

namespace Site

variable (s : Site) {p q : Path}

theorem components_path (hp : p.isAbsolute = true) :
    (s.path p).components = s.root.components ++ p.steps := by
  rw [path, Path.components_join p.belowRoot_isAbsolute (Path.belowRoot_startsHere hp),
    Path.steps_eq p.belowRoot, p.stepsOf_belowRoot]

theorem path_eq_iff (hp : p.isAbsolute = true) (hq : q.isAbsolute = true) :
    s.path p = s.path q ↔ p.steps = q.steps := by
  constructor
  · intro h
    have hcomponents := congrArg Path.components h
    rw [s.components_path hp, s.components_path hq] at hcomponents
    exact List.append_cancel_left hcomponents
  · intro h
    rw [path, path, Path.belowRoot_congr hp hq h]

theorem fileName?_path {n : String} (hn : p.fileName? = some n) :
    (s.path p).fileName? = some n := by
  obtain ⟨cs, hcs⟩ := List.getLast?_eq_some_iff.mp (Path.fileName?_eq_some_iff.mp hn)
  rw [Path.fileName?_eq_some_iff, path_steps, hcs, ← List.append_assoc]
  exact List.getLast?_concat

/-- The path below the root is a normal form: it is the same for two host paths exactly if their
components are, that is, if only slashes and dots that stand for nothing make a difference between
them. So all spellings of a file share the place of its copy, and copies of other files never come
to stand there, unless the parents of the two are a collision. -/
theorem path_normalForm (hp : p.isAbsolute = true) (hq : q.isAbsolute = true) :
    (s.path p = s.path q ↔ p.components = q.components) ∧
    (p.components = q.components ↔ p.Respelled q) ∧
    (∃ cs, p.components = .root :: cs ∧ (s.path p).components = s.root.components ++ cs) ∧
    (∀ n, p.fileName? = some n → (s.path p).fileName? = some n) ∧
    ∀ backup, (s.path p).fileName?.isSome → (s.path q).fileName?.isSome →
      ∃ c c', SavedFile.KeepsCopy backup (s.path p) c ∧ SavedFile.KeepsCopy backup (s.path q) c' ∧
        (p.components = q.components → c = c') ∧
        (p.components ≠ q.components →
          ¬ Sha256.Collision (SavedFile.directoryMessage (s.path p))
            (SavedFile.directoryMessage (s.path q)) →
          ∀ d, c.placeFrom d ≠ c'.placeFrom d) := by
  rw [Path.components_eq_iff hp hq]
  refine ⟨s.path_eq_iff hp hq, Path.steps_eq_iff_respelled hp hq,
    ⟨p.steps, Path.components_of_isAbsolute hp, s.components_path hp⟩,
    fun n hn => s.fileName?_path hn, ?_⟩
  intro backup hname hname'
  obtain ⟨n, hn⟩ := Option.isSome_iff_exists.mp hname
  obtain ⟨n', hn'⟩ := Option.isSome_iff_exists.mp hname'
  obtain ⟨c, hc⟩ := SavedFile.exists_keepsCopy hn backup
  obtain ⟨c', hc'⟩ := SavedFile.exists_keepsCopy hn' backup
  refine ⟨c, c', hc, hc', ?_, ?_⟩
  · intro hsteps
    rw [(s.path_eq_iff hp hq).mpr hsteps] at hc
    exact hc.unique hc'
  · intro hother hapart d hsame
    have hmapped := hc.steps hc' hsame hapart
    rw [path_steps, path_steps] at hmapped
    exact hother ((Path.components_eq_iff hp hq).mpr (List.append_cancel_left hmapped))

def untidySite : Site where
  root := ⟨"/srv//host/"⟩
  manager := .ledger {}

/-- Two spellings of one file, and a file of the same name in another directory. -/
theorem path_normalForm_untidySite :
    untidySite.path ⟨"/etc//yum/./a.conf/."⟩ = untidySite.path ⟨"//etc/yum/a.conf"⟩ ∧
    Path.Respelled ⟨"/etc//yum/./a.conf/."⟩ ⟨"//etc/yum/a.conf"⟩ ∧
    ∃ c c', SavedFile.KeepsCopy untidySite.backupDirectory
        (untidySite.path ⟨"/etc//yum/./a.conf/."⟩) c ∧
      SavedFile.KeepsCopy untidySite.backupDirectory (untidySite.path ⟨"//etc/yum/a.conf"⟩) c ∧
      SavedFile.KeepsCopy untidySite.backupDirectory (untidySite.path ⟨"/etc/a.conf"⟩) c' ∧
      c.placeFrom [] ≠ c'.placeFrom [] := by
  obtain ⟨htext, hrespelled, -, -, hcopies⟩ := untidySite.path_normalForm
    (p := ⟨"/etc//yum/./a.conf/."⟩) (q := ⟨"//etc/yum/a.conf"⟩) (by decide) (by decide)
  obtain ⟨-, -, -, -, hother⟩ := untidySite.path_normalForm
    (p := ⟨"//etc/yum/a.conf"⟩) (q := ⟨"/etc/a.conf"⟩) (by decide) (by decide)
  obtain ⟨c, b, hc, hb, hsame, -⟩ := hcopies untidySite.backupDirectory (by decide) (by decide)
  obtain ⟨b', c', hb', hc', -, hapart⟩ :=
    hother untidySite.backupDirectory (by decide) (by decide)
  obtain rfl : c = b := hsame (by decide)
  obtain rfl : c = b' := hb.unique hb'
  refine ⟨htext.mpr (by decide), hrespelled.mp (by decide), c, c', hc, hb, hc', ?_⟩
  exact hapart (by decide) (by decide +kernel) []

end Site

end Changeover
