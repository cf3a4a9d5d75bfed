import Changeover.PidLock
import Changeover.Proofs.Files.Endings

/-!
# Drafts

A draft stands in the directory of the lock file, beside it: their paths differ in the last name
only, and there in what follows the name of the lock. So the draft can be made only where the lock
file could stand too, and once it is gone nothing shows that it was there.
-/

namespace Changeover

/-! ### Trees with and without a draft -/

namespace FileTree

variable {t : FileTree} {l m : Location}

theorem entries_of_free (h : t.node? l = none) : t.entries.filter (·.1 != l) = t.entries := by
  have hne := ne_nil_of_free h
  rw [node?, if_neg hne, Option.map_eq_none_iff, List.find?_eq_none] at h
  refine List.filter_eq_self.mpr ?_
  intro e he
  simpa using h e he

theorem put_put_self (t : FileTree) (l : Location) (n n' : Node) :
    (t.put l n).put l n' = t.put l n' := by
  simp [put, List.filter_filter]

theorem erase_put_self (h : t.node? l = none) (n : Node) : (t.put l n).erase l = t := by
  simp [put, erase, entries_of_free h]

theorem erase_put_put (h : t.node? l = none) (hm : m ≠ l) (n n' : Node) :
    ((t.put l n).put m n').erase l = t.put m n' := by
  have hswap : (t.entries.filter (·.1 != m)).filter (·.1 != l) = t.entries.filter (·.1 != m) := by
    conv => rhs; rw [← entries_of_free h]
    rw [List.filter_filter, List.filter_filter]
    apply List.filter_congr
    intro e _
    exact Bool.and_comm _ _
  simp [put, erase, entries_of_free h, hm, hm.symm, hswap]

end FileTree

/-! ### New files -/

namespace FileSystem

def withFile (fs : FileSystem) (l : Location) (text : ByteArray) : FileSystem :=
  { fs with tree := fs.tree.put l (.file text false) }

variable {fs fs' : FileSystem} {p : Path} {l m : Location}

theorem keepsDirectory_withFile (h : fs.tree.node? l = none) (text : ByteArray)
    (hm : fs.tree.node? m = some .directory) :
    (fs.withFile l text).tree.node? m = some .directory := by
  have hne : m ≠ l := by
    rintro rfl
    rw [h] at hm
    cases hm
  exact (FileTree.node?_put_of_ne hne _ _).trans hm

theorem locate_withFile (h : fs.tree.node? l = none) (text : ByteArray)
    (hp : fs.locate p = .ok m) : (fs.withFile l text).locate p = .ok m := by
  refine locate_mono ?_ ?_ hp
  · rfl
  · exact fun _ hm => keepsDirectory_withFile h text hm

theorem holds_of_locate (h : fs.locate p = .ok (fs.place p)) :
    fs.holds p = (fs.tree.node? (fs.place p)).isSome := by
  rw [holds, stat_of_locate h]
  cases fs.tree.node? (fs.place p) <;> rfl

theorem locate_of_holds (h : fs.holds p = true) : fs.locate p = .ok (fs.place p) := by
  cases hl : fs.locate p with
  | ok l => rw [← locate_place hl]
  | error e =>
    rw [holds, stat_of_error hl] at h
    cases h

theorem createNew_ok (h : fs.createNew p = .ok fs') :
    fs.locate p = .ok (fs.place p) ∧ fs.tree.node? (fs.place p) = none ∧
      fs.tree.node? (fs.place p).dropLast = some .directory ∧
      fs' = fs.withFile (fs.place p) .empty := by
  unfold createNew at h
  split at h
  · cases h
  · next hholds =>
    obtain ⟨x, rfl, hlocate, -, habove, hx, -⟩ := writeWith_ok h
    rw [holds_of_locate hlocate, Option.not_isSome_iff_eq_none] at hholds
    rw [hx false rfl]
    exact ⟨hlocate, hholds, habove hholds, rfl⟩

theorem createNew_free (hlocate : fs.locate p = .ok (fs.place p))
    (hfree : fs.tree.node? (fs.place p) = none)
    (habove : fs.tree.node? (fs.place p).dropLast = some .directory) :
    fs.createNew p = .ok (fs.withFile (fs.place p) .empty) := by
  simp only [createNew, holds_of_locate hlocate, hfree, writeWith, hlocate, habove, bind,
    Except.bind]
  rfl

theorem walk_ne_alreadyExists {t : FileTree} {cs : List Component} :
    walk t l cs ≠ .error .alreadyExists := by
  have hgo {l : Location} {k : Unit → Except OsError Location}
      (h : (enter t l >>= k) = .error .alreadyExists) : k () = .error .alreadyExists := by
    unfold enter at h
    split at h
    · cases h
    · cases h
    · exact h
  intro h
  induction cs generalizing l with
  | nil => cases h
  | cons c cs ih =>
    cases c with
    | root => exact ih h
    | here => exact ih (hgo h)
    | up => exact ih (hgo h)
    | name s =>
      have hname := hgo h
      split at hname
      · cases hname
      · exact ih hname

theorem holds_of_createNew (h : fs.createNew p = .error .alreadyExists) : fs.holds p = true := by
  unfold createNew at h
  split at h
  · next hholds => exact hholds
  · exfalso
    unfold writeWith at h
    cases hl : fs.locate p with
    | error e =>
      rw [hl] at h
      cases h
      unfold locate follow at hl
      split at hl
      · cases hl
      · split at hl
        · cases hl
        · split at hl
          · cases hl
          · exact walk_ne_alreadyExists hl
    | ok l =>
      simp only [hl, bind, Except.bind] at h
      split at h
      · cases h
      · cases h
      · split at h <;> cases h

end FileSystem

namespace PidLock

open FileSystem Changeover.Path

theorem ending_pid : Ending ".pid" := ⟨by decide, by decide⟩

theorem Token.ending (t : Token) : Ending (t.text ++ ".pid") := by
  constructor
  · rw [String.toList_append, Token.text, String.toList_ofList, List.mem_append, not_or]
    refine ⟨?_, ending_pid.flat⟩
    intro hslash
    have halpha := t.alphanumeric _ hslash
    revert halpha
    decide
  · rw [String.toList_append, List.length_append]
    exact Nat.le_add_left_of_le ending_pid.long

/-- A draft can be made, and beside it is the place of the lock file. -/
structure Aside (fs : FileSystem) (draft path : Path) : Prop where
  here : fs.locate draft = .ok (fs.place draft)
  free : fs.tree.node? (fs.place draft) = none
  there : fs.locate path = .ok (fs.place path)
  above : fs.tree.node? (fs.place path).dropLast = some .directory
  apart : fs.place path ≠ fs.place draft

section

variable {directory draft path : Path} {name : String} {fs fs' : FileSystem} {t : Token}

theorem beside_of_locate {l : Location} (h : fs.locate (draftPath directory name t) = .ok l) :
    fs.locate (filePath directory name) = .ok (fs.place (filePath directory name)) ∧
      fs.tree.node? (fs.place (filePath directory name)).dropLast = some .directory ∧
      fs.place (filePath directory name) ≠ l := by
  have hdraft : draftPath directory name t =
      ⟨(directory.join ⟨name⟩).text ++ (t.text ++ ".pid")⟩ := by
    rw [draftPath, filePath, String.append_assoc, join_append t.ending]
  have hpath : filePath directory name = ⟨(directory.join ⟨name⟩).text ++ ".pid"⟩ :=
    join_append ending_pid directory name
  have hsize : ".pid".utf8ByteSize ≤ (t.text ++ ".pid").utf8ByteSize := by
    rw [String.utf8ByteSize_append]
    exact Nat.le_add_left _ _
  rw [hdraft] at h
  obtain ⟨m, r, rfl, hlocate, hdir⟩ := locate_ending h ending_pid t.ending (by decide) hsize
  rw [← hpath] at hlocate
  rw [← locate_place hlocate]
  refine ⟨hlocate, ?_, ?_⟩
  · rw [List.dropLast_concat]
    exact hdir
  · intro heq
    have hlen := congrArg String.length (List.singleton_inj.mp (List.append_cancel_left heq))
    have htoken : t.text.length = 6 := by rw [Token.text, String.length_ofList, t.length]
    simp only [String.length_append, htoken] at hlen
    omega

theorem aside_of_createNew (h : fs.createNew (draftPath directory name t) = .ok fs') :
    Aside fs (draftPath directory name t) (filePath directory name) ∧
      fs' = fs.withFile (fs.place (draftPath directory name t)) .empty := by
  obtain ⟨hlocate, hfree, -, hmade⟩ := createNew_ok h
  obtain ⟨hthere, habove, hapart⟩ := beside_of_locate hlocate
  exact ⟨⟨hlocate, hfree, hthere, habove, hapart⟩, hmade⟩

theorem createDraft_ok {names : Nat → Path} {n i : Nat}
    (h : createDraft names fs n i = .ok (draft, fs')) :
    ∃ j, draft = names j ∧ fs.createNew draft = .ok fs' := by
  induction n generalizing i with
  | zero => cases h
  | succ n ih =>
    unfold createDraft at h
    split at h
    · next hmade =>
      cases h
      exact ⟨i, rfl, hmade⟩
    · exact ih h
    · cases h

/-- A draft can still be made as long as directories stay and no place of a draft has changed. -/
theorem createDraft_mono {names : Nat → Path} {n i : Nat} (hcwd : fs'.directory = fs.directory)
    (hdirs : ∀ m, fs.tree.node? m = some .directory → fs'.tree.node? m = some .directory)
    (hsame : ∀ j l, fs.locate (names j) = .ok l → fs'.tree.node? l = fs.tree.node? l)
    (h : ∃ r, createDraft names fs n i = .ok r) : ∃ r, createDraft names fs' n i = .ok r := by
  obtain ⟨r, h⟩ := h
  induction n generalizing i with
  | zero => cases h
  | succ n ih =>
    unfold createDraft at h ⊢
    have hplace := place_congr hcwd (names i)
    split at h
    · next hmade =>
      obtain ⟨hlocate, hfree, habove, -⟩ := createNew_ok hmade
      have hnew : fs'.createNew (names i) = .ok (fs'.withFile (fs'.place (names i)) .empty) := by
        apply createNew_free
        · rw [hplace]
          exact locate_mono hcwd hdirs hlocate
        · rw [hplace, hsame i _ hlocate, hfree]
        · rw [hplace]
          exact hdirs _ habove
      rw [hnew]
      exact ⟨_, rfl⟩
    · next htaken =>
      have hholds := holds_of_createNew htaken
      have hagain : fs'.createNew (names i) = .error .alreadyExists := by
        have hlocate := locate_of_holds hholds
        have hlocate' : fs'.locate (names i) = .ok (fs'.place (names i)) := by
          rw [hplace]
          exact locate_mono hcwd hdirs hlocate
        rw [holds_of_locate hlocate, ← hsame i _ hlocate, ← hplace, ← holds_of_locate hlocate']
          at hholds
        rw [createNew, if_pos hholds]
      rw [hagain]
      exact ih h
    · cases h

end

namespace Aside

variable {fs : FileSystem} {draft path : Path} (h : Aside fs draft path)

include h

theorem node_draft (text : ByteArray) :
    (fs.withFile (fs.place draft) text).tree.node? (fs.place draft) = some (.file text false) :=
  FileTree.node?_put_self (FileTree.ne_nil_of_free h.free) _ _

theorem locate_draft (text : ByteArray) :
    (fs.withFile (fs.place draft) text).locate draft = .ok (fs.place draft) :=
  locate_withFile h.free text h.here

theorem locate_path (text : ByteArray) :
    (fs.withFile (fs.place draft) text).locate path = .ok (fs.place path) :=
  locate_withFile h.free text h.there

theorem node_path (text : ByteArray) :
    (fs.withFile (fs.place draft) text).tree.node? (fs.place path) =
      fs.tree.node? (fs.place path) :=
  FileTree.node?_put_of_ne h.apart _ _

theorem stat_path (text : ByteArray) :
    (fs.withFile (fs.place draft) text).stat path = fs.stat path := by
  rw [stat_of_locate (h.locate_path text), stat_of_locate h.there, h.node_path]

theorem recognise_path (text : ByteArray) (pid : Nat) :
    recognise (fs.withFile (fs.place draft) text) path pid = recognise fs path pid := by
  simp only [recognise, readPid, readText, FileSystem.read, h.stat_path]

theorem removeFile (text : ByteArray) :
    (fs.withFile (fs.place draft) text).removeFile draft = .ok fs := by
  have herase : (fs.withFile (fs.place draft) text).tree.erase (fs.place draft) = fs.tree :=
    FileTree.erase_put_self h.free _
  simp only [FileSystem.removeFile, h.locate_draft, h.node_draft, bind, Except.bind, herase]
  rfl

theorem write (text : ByteArray) :
    (fs.withFile (fs.place draft) .empty).write draft text =
      .ok (fs.withFile (fs.place draft) text) := by
  have hput : (fs.withFile (fs.place draft) .empty).tree.put (fs.place draft) (.file text false) =
      (fs.withFile (fs.place draft) text).tree := FileTree.put_put_self _ _ _ _
  simp only [FileSystem.write, writeWith, h.locate_draft, h.node_draft, bind, Except.bind,
    Option.getD_none, hput]
  rfl

theorem link_taken (text : ByteArray) (hpath : fs.holds path = true) :
    (fs.withFile (fs.place draft) text).link draft path = .error .alreadyExists := by
  have hholds : (fs.withFile (fs.place draft) text).holds path = true := by
    rw [holds, h.stat_path]
    exact hpath
  simp only [link, stat_of_locate (h.locate_draft text), h.node_draft, hholds, bind, Except.bind]
  rfl

theorem link_free (text : ByteArray) (hpath : fs.tree.node? (fs.place path) = none) :
    ∃ fs', (fs.withFile (fs.place draft) text).link draft path = .ok fs' ∧
      fs'.removeFile draft = .ok (fs.withFile (fs.place path) text) := by
  have hnone : (fs.withFile (fs.place draft) text).tree.node? (fs.place path) = none := by
    rw [h.node_path, hpath]
  have hholds : (fs.withFile (fs.place draft) text).holds path = false := by
    rw [holds, h.stat_path, stat_of_locate h.there, hpath]
    rfl
  have habove := keepsDirectory_withFile h.free text h.above
  refine ⟨(fs.withFile (fs.place draft) text).withFile (fs.place path) text, ?_, ?_⟩
  · simp only [link, stat_of_locate (h.locate_draft text), h.node_draft, hholds, writeWith,
      h.locate_path, hnone, habove, bind, Except.bind]
    rfl
  · have hnode : ((fs.withFile (fs.place draft) text).withFile (fs.place path) text).tree.node?
        (fs.place draft) = some (.file text false) :=
      (FileTree.node?_put_of_ne h.apart.symm _ _).trans (h.node_draft text)
    have herase : ((fs.withFile (fs.place draft) text).withFile (fs.place path) text).tree.erase
        (fs.place draft) = (fs.withFile (fs.place path) text).tree :=
      FileTree.erase_put_put h.free h.apart _ _
    simp only [FileSystem.removeFile, locate_withFile hnone text (h.locate_draft text), hnode,
      bind, Except.bind, herase]
    rfl

end Aside

/-! ### What an acquisition comes to -/

/-- The end of an acquisition where a draft can be made. Only a link leaves something behind. -/
inductive Taken (c : Circumstances) (path : Path) (pid : Nat) (fs : FileSystem) :
    Except LockError PidLock × FileSystem → Prop
  | unfilled {e : OsError} : c.filling = some e → Taken c path pid fs (.error (.io path e), fs)
  | unlinked {e : OsError} : c.linking = some e → Taken c path pid fs (.error (.io path e), fs)
  | made : fs.tree.node? (fs.place path) = none → Taken c path pid fs
    (.ok ⟨path, pid⟩, fs.withFile (fs.place path) (content pid).toUTF8)
  | recognised : fs.holds path = true ∨ c.linking = some .alreadyExists →
    Taken c path pid fs (recognise fs path pid, fs)

section

variable {directory draft path : Path} {name : String} {fs fs₁ fs₂ : FileSystem}

theorem Aside.taken (h : Aside fs draft path) (c : Circumstances) (pid : Nat) {r}
    (hr : publish c draft path pid (fs.withFile (fs.place draft) .empty) = r) :
    Taken c path pid fs (r.1, (r.2.removeFile draft).toOption.getD r.2) := by
  have hfilled := h.removeFile (content pid).toUTF8
  unfold publish hinder at hr
  cases hfilling : c.filling with
  | some e =>
    simp only [hfilling] at hr
    rw [← hr, h.removeFile]
    exact .unfilled hfilling
  | none =>
    simp only [hfilling, h.write] at hr
    cases hlinking : c.linking with
    | some e =>
      simp only [hlinking] at hr
      split at hr
      · next hlink => cases hlink
      · next hlink =>
        cases hlink
        rw [← hr, hfilled, h.recognise_path]
        exact .recognised (.inr hlinking)
      · next e' _ hlink =>
        cases hlink
        rw [← hr, hfilled]
        exact .unlinked hlinking
    | none =>
      cases hnode : fs.tree.node? (fs.place path) with
      | none =>
        obtain ⟨fs', hlink, hremove⟩ := h.link_free (content pid).toUTF8 hnode
        simp only [hlinking, hlink] at hr
        rw [← hr, hremove]
        exact .made hnode
      | some n =>
        have hholds : fs.holds path = true := by rw [holds_of_locate h.there, hnode]; rfl
        simp only [hlinking, h.link_taken _ hholds] at hr
        rw [← hr, hfilled, h.recognise_path]
        exact .recognised (.inl hholds)

/-- Once the directory is there and a draft can be made, an acquisition takes its course. -/
theorem acquireUnder_taken {c : Circumstances} (pid : Nat)
    (hmade : fs.makeDirectories directory = (.ok (), fs₁))
    (hdraft : ∃ r, createDraft (fun i => draftPath directory name (c.draw i)) fs₁ draftLimit 0 =
      .ok r) :
    Taken c (filePath directory name) pid fs₁ (acquireUnder c fs directory name pid) := by
  obtain ⟨⟨draft, fs₂⟩, hdraft⟩ := hdraft
  obtain ⟨j, rfl, hnew⟩ := createDraft_ok hdraft
  obtain ⟨haside, rfl⟩ := aside_of_createNew hnew
  unfold acquireUnder
  simp only [hmade, hdraft]
  exact haside.taken c pid rfl

/-- An acquisition makes directories, and goes on only if a draft can be made. -/
theorem acquireUnder_cases (c : Circumstances) (fs : FileSystem) (directory : Path) (name : String)
    (pid : Nat) : ∃ fs₁, fs.Grows fs₁ ∧
      ((∃ e, acquireUnder c fs directory name pid = (.error e, fs₁)) ∨
        fs.makeDirectories directory = (.ok (), fs₁) ∧
          ∃ r, createDraft (fun i => draftPath directory name (c.draw i)) fs₁ draftLimit 0 =
            .ok r) := by
  have hgrows := makeDirectories_grows fs directory
  rcases hmade : fs.makeDirectories directory with ⟨r, fs₁⟩
  rw [hmade] at hgrows
  refine ⟨fs₁, hgrows, ?_⟩
  cases r with
  | error e =>
    refine .inl ⟨.io (filePath directory name) e, ?_⟩
    unfold acquireUnder
    simp only [hmade]
  | ok _ =>
    cases hdraft : createDraft (fun i => draftPath directory name (c.draw i)) fs₁ draftLimit 0 with
    | error e =>
      refine .inl ⟨.io (filePath directory name) e, ?_⟩
      unfold acquireUnder
      simp only [hmade, hdraft]
    | ok r => exact .inr ⟨rfl, r, rfl⟩

theorem located_of_createDraft {c : Circumstances} {n i : Nat}
    (h : ∃ r, createDraft (fun i => draftPath directory name (c.draw i)) fs n i = .ok r) :
    fs.locate (filePath directory name) = .ok (fs.place (filePath directory name)) ∧
      fs.tree.node? (fs.place (filePath directory name)).dropLast = some .directory := by
  obtain ⟨⟨draft, fs'⟩, hdraft⟩ := h
  obtain ⟨j, rfl, hnew⟩ := createDraft_ok hdraft
  obtain ⟨hlocate, habove, -⟩ := beside_of_locate (createNew_ok hnew).1
  exact ⟨hlocate, habove⟩

end

end PidLock

end Changeover
