import Changeover.Proofs.Files.Saving
import Changeover.Proofs.Rollback.Installed

/-!
# What a rollback moves where

One location is watched. What stands at the copy of a file is put back to the file, and the file may
itself be the copy of another one, so the rollback can move the content of many places to the
watched one. As long as nothing but saved files and copies is changed, those places hold nothing or
what the watched one held, and any rollback leaves the watched one alone, whatever else it does.
-/

namespace Changeover

/-- Changes that are made for `paths` or do not touch files at all. -/
def Change.Regular (backup : Path) (paths : List Path) : Change → Prop
  | .file f => f.path ∈ paths ∧ f.path.isAbsolute = true ∧
      (f.state = .enabled → f.copy = SavedFile.copyOf? backup f.path)
  | .absent f => f.path.isAbsolute = true ∧ .up ∉ f.path.steps
  | .packages s => s.manager.LeavesFiles
  | .rehearsed _ => True

/-- Undoing the changes may move what stands at the location to `q`. -/
inductive Due (d q : Location) : List Change → Location → Prop
  | here : Due d q [] q
  | later {c : Change} {cs : List Change} {l : Location} : Due d q cs l → Due d q (c :: cs) l
  | copied {f : SavedFile} {copy : Path} {cs : List Change} : f.state = .enabled →
    f.copy = some copy → Due d q cs (f.path.placeFrom d) →
    Due d q (.file f :: cs) (copy.placeFrom d)

namespace Due

variable {d q l : Location} {backup p copy : Path} {paths : List Path} {cs : List Change}

theorem self (d q : Location) (cs : List Change) : Due d q cs q := by
  induction cs with
  | nil => exact .here
  | cons c cs ih => exact .later ih

theorem source (hdigests : SavedFile.DigestsApart paths)
    (hreg : ∀ c ∈ cs, c.Regular backup paths) (hp : p ∈ paths)
    (hc : SavedFile.copyOf? backup p = some copy) (hout : copy.placeFrom d ≠ q)
    (hl : copy.placeFrom d = l) (h : Due d q cs l) : Due d q cs (p.placeFrom d) := by
  induction h with
  | here => exact absurd hl hout
  | later _ ih => exact .later (ih (fun c hc => hreg c (List.mem_cons_of_mem _ hc)) hl)
  | @copied f copy' cs he hcopy hdue _ =>
    obtain ⟨hf, -, hfc⟩ := hreg (.file f) List.mem_cons_self
    have hc' := (hfc he).symm.trans hcopy
    rw [SavedFile.place_of_same_copy hc hc' hl (hdigests p hp f.path hf)]
    exact .later hdue

theorem not_own (hdigests : SavedFile.DigestsApart paths)
    (hreg : ∀ c ∈ cs, c.Regular backup paths) (hp : p ∈ paths)
    (hc : SavedFile.copyOf? backup p = some copy) (hout : copy.placeFrom d ≠ q)
    (hl : copy.placeFrom d = l) (h : Due d q cs l) : p.placeFrom d ≠ l := by
  induction h with
  | here => exact absurd hl hout
  | later _ ih => exact ih (fun c hc => hreg c (List.mem_cons_of_mem _ hc)) hl
  | @copied f copy' cs he hcopy hdue ih =>
    obtain ⟨hf, -, hfc⟩ := hreg (.file f) List.mem_cons_self
    have hc' := (hfc he).symm.trans hcopy
    have hsame := SavedFile.place_of_same_copy hc hc' hl (hdigests p hp f.path hf)
    intro hown
    have hl' : copy.placeFrom d = f.path.placeFrom d := hl.trans (hown.symm.trans hsame)
    exact ih (fun c hc => hreg c (List.mem_cons_of_mem _ hc)) hl' hsame

end Due

/-- Whether `q` is the place for the copy of a file on the stack. -/
def Taken (d : Location) (backup : Path) (q : Location) (cs : List Change) : Prop :=
  ∃ f, .file f ∈ cs ∧ ∃ copy, SavedFile.copyOf? backup f.path = some copy ∧ copy.placeFrom d = q

theorem Taken.cons {d q : Location} {backup : Path} {c : Change} {cs : List Change}
    (h : Taken d backup q cs) : Taken d backup q (c :: cs) := by
  obtain ⟨f, hf, hcopy⟩ := h
  exact ⟨f, List.mem_cons_of_mem c hf, hcopy⟩

theorem Taken.push {d q : Location} {backup : Path} {u : UndoStack Change}
    (ht : Taken d backup q u.changes) (c : Change) (h : Host) :
    Taken d backup q (u.push c h).2.1.changes := by
  rcases u.changes_push c h with hsame | ⟨c', hcons⟩
  · rw [hsame]
    exact ht
  · rw [hcons]
    exact ht.cons

theorem Due.eq_or_taken {d q l : Location} {backup : Path} {paths : List Path} {cs : List Change}
    (hreg : ∀ c ∈ cs, c.Regular backup paths) (h : Due d q cs l) : l = q ∨ Taken d backup l cs := by
  induction h with
  | here => exact .inl rfl
  | later _ ih => exact (ih fun c hc => hreg c (List.mem_cons_of_mem _ hc)).imp_right .cons
  | @copied f copy cs he hcopy _ _ =>
    have hc := (hreg (.file f) List.mem_cons_self).2.2 he
    exact .inr ⟨f, List.mem_cons_self, copy, hc.symm.trans hcopy, rfl⟩

/-- How pushing a file that is to be saved can end. -/
inductive SavedFile.Pushed (f : SavedFile) (u : UndoStack Change) (h : Host) :
    Except (Stop UndoError) Unit → UndoStack Change → Host → Prop
  | refused {why : Fault} {e : Stop UndoError} {f' : SavedFile} {fs : FileSystem} :
    f.Enabling h.files (.error why) f' fs → Pushed f u h (.error e) u { h with files := fs }
  | tracked {f' : SavedFile} {fs : FileSystem} : f.Enabling h.files (.ok ()) f' fs →
    Pushed f u h (.ok ()) { u with entries := .change (.file f') :: u.entries }
      { h with files := fs }

theorem SavedFile.pushed {f : SavedFile} (hf : f.state = .pending) (u : UndoStack Change)
    (h : Host) : f.Pushed u h (u.push (.file f) h).1 (u.push (.file f) h).2.1
      (u.push (.file f) h).2.2 := by
  have hends := SavedFile.enabling hf h.files
  rcases he : f.enable h.files with ⟨r, f', fs⟩
  rw [he] at hends
  have henable := Change.enable_file he
  cases r with
  | error why =>
    rw [UndoStack.push_of_error henable]
    exact .refused hends
  | ok _ =>
    rw [UndoStack.push_of_ok henable]
    exact .tracked hends

theorem SavedFile.Enabling.not_taken {d q : Location} {backup : Path} {f f' : SavedFile}
    {fs fs' : FileSystem} {r : Except Fault Unit} {cs : List Change} (he : f.Enabling fs r f' fs')
    (ht : ¬ Taken d backup q (.file f' :: cs)) (copy : Path)
    (hc : SavedFile.copyOf? backup f.path = some copy) : copy.placeFrom d ≠ q := by
  rw [← he.path] at hc
  exact fun hq => ht ⟨f', List.mem_cons_self, copy, hc, hq⟩

/-- At the watched location stands what stood there, and no change on the stack will move or put
anything else there. -/
structure Safe (d : Location) (backup : Path) (paths : List Path) (q : Location)
    (v : Option (ByteArray × Bool)) (cs : List Change) (fs : FileSystem) : Prop where
  cwd : fs.directory = d
  regular : ∀ c ∈ cs, c.Regular backup paths
  spared : ¬ Taken d backup q cs
  here : fs.tree.file? q = v
  due : ∀ l, Due d q cs l → fs.tree.file? l = none ∨ fs.tree.file? l = v
  absent : ∀ f, .absent f ∈ cs → f.state = .enabled → f.path.Reaches q → v = none

namespace Safe

variable {d q : Location} {backup : Path} {paths : List Path} {v : Option (ByteArray × Bool)}
  {c : Change} {cs : List Change} {fs fs' : FileSystem}

theorem vary (h : Safe d backup paths q v cs fs) (hcwd : fs'.directory = fs.directory)
    (hq : fs'.tree.file? q = v)
    (hdue : ∀ l, Due d q cs l → fs'.tree.file? l = fs.tree.file? l ∨ fs'.tree.file? l = none ∨
      fs'.tree.file? l = v) : Safe d backup paths q v cs fs' := by
  refine ⟨hcwd.trans h.cwd, h.regular, h.spared, hq, ?_, h.absent⟩
  intro l hl
  rcases hdue l hl with hsame | hnone | hv
  · rw [hsame]
    exact h.due l hl
  · exact Or.inl hnone
  · exact Or.inr hv

theorem congr (h : Safe d backup paths q v cs fs) (hcwd : fs'.directory = fs.directory)
    (hfile : ∀ l, fs'.tree.file? l = fs.tree.file? l) : Safe d backup paths q v cs fs' :=
  h.vary hcwd ((hfile q).trans h.here) fun l _ => Or.inl (hfile l)

theorem grows (h : Safe d backup paths q v cs fs) (hg : fs.Grows fs') :
    Safe d backup paths q v cs fs' := h.congr hg.cwd hg.file?

theorem tail (h : Safe d backup paths q v (c :: cs) fs) : Safe d backup paths q v cs fs :=
  ⟨h.cwd, fun c' hc => h.regular c' (List.mem_cons_of_mem c hc), fun ht => h.spared ht.cons, h.here,
    fun l hl => h.due l (.later hl), fun f hf => h.absent f (List.mem_cons_of_mem c hf)⟩

/-! ### Undoing -/

theorem remove {p : Path} (h : Safe d backup paths q v cs fs) (hr : fs.removeFile p = .ok fs')
    (hq : q = fs.place p → v = none) : Safe d backup paths q v cs fs' := by
  obtain ⟨b, x, hnode, rfl⟩ := FileSystem.removeFile_ok hr
  have hne : fs.place p ≠ [] := FileTree.ne_nil_of_node? (t := fs.tree) (by simp [hnode])
  refine h.vary rfl ?_ fun l _ => ?_
  · rw [FileTree.file?_erase hne]
    split
    · rename_i hqp
      exact (hq hqp).symm
    · exact h.here
  · rw [FileTree.file?_erase hne]
    split
    · exact Or.inr (Or.inl rfl)
    · exact Or.inl rfl

theorem remove_copy {copy : Path} (h : Safe d backup paths q v cs fs)
    (hout : copy.placeFrom d ≠ q) (hr : fs.removeFile copy = .ok fs') :
    Safe d backup paths q v cs fs' := by
  refine h.remove hr fun hown => ?_
  rw [FileSystem.place, h.cwd] at hown
  exact absurd hown.symm hout

theorem copy_ne {f : SavedFile} {copy : Path} (h : Safe d backup paths q v (.file f :: cs) fs)
    (hc : SavedFile.copyOf? backup f.path = some copy) : copy.placeFrom d ≠ q := fun hq =>
  h.spared ⟨f, List.mem_cons_self, copy, hc, hq⟩

section

variable {f : SavedFile} {copy : Path} {x : Bool} {b : ByteArray}

/-- Putting a file back moves to a due location what was due as well. -/
theorem put_back (h : Safe d backup paths q v (.file f :: cs) fs)
    (hdigests : SavedFile.DigestsApart paths) (he : f.state = .enabled) (hcopy : f.copy = some copy)
    (hcopied : fs.Copied copy f.path b x fs') : Safe d backup paths q v cs fs' := by
  obtain ⟨hf, hfa, hfc⟩ := h.regular _ List.mem_cons_self
  have hc := (hfc he).symm.trans hcopy
  have hregular : ∀ c ∈ cs, c.Regular backup paths := h.tail.regular
  have hplace : fs.place f.path = f.path.placeFrom d := by rw [FileSystem.place, h.cwd]
  have hcplace : fs.place copy = copy.placeFrom d := by rw [FileSystem.place, h.cwd]
  have hput : ∀ l, Due d q cs l → fs'.tree.file? l =
      if l = f.path.placeFrom d then v else fs.tree.file? l := by
    intro l hl
    by_cases hown : l = f.path.placeFrom d
    · subst hown
      have hne : f.path.placeFrom d ≠ copy.placeFrom d := by
        intro heq
        exact Due.not_own hdigests hregular hf hc (h.copy_ne hc) heq.symm hl rfl
      have hsource := FileTree.file?_eq_some.mpr hcopied.source
      rw [hcplace] at hsource
      have hv : some (b, x) = v := by
        have hdue := h.due _ (.copied he hcopy hl)
        rw [hsource] at hdue
        simpa using hdue
      rw [hcopied.file? (by rw [hplace, hcplace]; exact hne), hplace, hv]
    · rw [if_neg hown, hcopied.file?_of_ne (by rw [hplace]; exact hown)]
  have hvary : ∀ l, Due d q cs l → fs'.tree.file? l = fs.tree.file? l ∨ fs'.tree.file? l = v := by
    intro l hl
    rw [hput l hl]
    split
    · exact Or.inr rfl
    · exact Or.inl rfl
  refine h.tail.vary hcopied.cwd ?_ fun l hl => (hvary l hl).imp_right Or.inr
  rcases hvary q (Due.self d q cs) with hsame | hv
  · rw [hsame, h.here]
  · exact hv

end

theorem restore_file {f f' : SavedFile} {r : Except Fault Unit}
    (h : Safe d backup paths q v (.file f :: cs) fs) (hdigests : SavedFile.DigestsApart paths)
    (hr : f.Restoring fs r f' fs') : Safe d backup paths q v cs fs' := by
  cases hr with
  | idle _ => exact h.tail
  | refused _ _ _ _ => exact h.tail
  | kept he hcopy hcopied => exact h.put_back hdigests he hcopy hcopied
  | restored he hcopy hcopied hremoved =>
    obtain ⟨-, -, hfc⟩ := h.regular _ List.mem_cons_self
    have hout := h.copy_ne ((hfc he).symm.trans hcopy)
    exact (h.put_back hdigests he hcopy hcopied).remove_copy hout hremoved

theorem restore_absent {f f' : AbsentFile} {r : Except Fault Unit}
    (h : Safe d backup paths q v (.absent f :: cs) fs) (hr : f.Restoring fs r f' fs') :
    Safe d backup paths q v cs fs' := by
  cases hr with
  | idle _ => exact h.tail
  | refused _ => exact h.tail
  | gone _ _ => exact h.tail
  | removed he hfile hremoved =>
    obtain ⟨ha, hdown⟩ := h.regular _ List.mem_cons_self
    refine h.tail.remove hremoved fun hown => ?_
    have hreach := Path.reaches_of_isFile ha hdown hfile
    rw [← FileSystem.place_of_isAbsolute ha fs, ← hown] at hreach
    exact h.absent f List.mem_cons_self he hreach

theorem restore {h : Host} (hs : Safe d backup paths q v (c :: cs) h.files)
    (hdigests : SavedFile.DigestsApart paths) :
    Safe d backup paths q v cs (Reversible.restore c h).2.2.files := by
  cases c with
  | file f =>
    rw [(Change.restore_file f h).1]
    exact hs.restore_file hdigests (SavedFile.restoring f h.files)
  | absent f =>
    rw [(Change.restore_absent f h).1]
    exact hs.restore_absent (AbsentFile.restoring f h.files)
  | packages s =>
    have hfiles := (PackageSet.restoring s h).files (hs.regular _ List.mem_cons_self)
    change Safe d backup paths q v cs (s.restore h).2.2.files
    rw [hfiles]
    exact hs.tail
  | rehearsed c =>
    obtain ⟨journal, hworld⟩ := Change.restore_rehearsed c h
    rw [hworld]
    exact hs.tail

theorem restoreEach {h : Host} (hs : Safe d backup paths q v cs h.files)
    (hdigests : SavedFile.DigestsApart paths) :
    Safe d backup paths q v [] (UndoStack.restoreEach cs h).2.2.files :=
  UndoStack.restoreEach_induct
    (P := fun (cs : List Change) (w : Host) => Safe d backup paths q v cs w.files)
    (fun c cs w hw => by
      rw [UndoStack.restoreOne_world]
      exact hw.restore hdigests) cs h hs

/-! ### Saving -/

theorem cons (h : Safe d backup paths q v cs fs) (hreg : c.Regular backup paths)
    (hfile : ∀ f, c = .file f → f.state ≠ .enabled ∧
      ∀ copy, SavedFile.copyOf? backup f.path = some copy → copy.placeFrom d ≠ q)
    (habsent : ∀ f, c = .absent f → f.state = .enabled → f.path.Reaches q → v = none) :
    Safe d backup paths q v (c :: cs) fs := by
  refine ⟨h.cwd, ?_, ?_, h.here, ?_, ?_⟩
  · intro c' hc'
    rcases List.mem_cons.mp hc' with rfl | hc'
    · exact hreg
    · exact h.regular c' hc'
  · rintro ⟨f, hf, copy, hcopy, hq⟩
    rcases List.mem_cons.mp hf with hf | hf
    · exact (hfile f hf.symm).2 copy hcopy hq
    · exact h.spared ⟨f, hf, copy, hcopy, hq⟩
  · intro l hl
    cases hl with
    | later hl => exact h.due l hl
    | copied he _ _ => exact absurd he (hfile _ rfl).1
  · intro f hf
    rcases List.mem_cons.mp hf with hf | hf
    · exact habsent f hf.symm
    · exact h.absent f hf

theorem save_refused {f f' : SavedFile} {e : Fault} (h : Safe d backup paths q v cs fs)
    (he : f.Enabling fs (.error e) f' fs') : Safe d backup paths q v cs fs' := by
  cases he with
  | refused hg => exact h.grows hg

theorem due_copied {f : SavedFile} {copy : Path} {b : ByteArray} {x : Bool} {l : Location}
    (h : Safe d backup paths q v cs fs) (hdigests : SavedFile.DigestsApart paths)
    (hf : f.path ∈ paths) (hcopy : SavedFile.copyOf? backup f.path = some copy)
    (hout : copy.placeFrom d ≠ q)
    (hcopied : fs.Copied f.path copy b x fs')
    (hl : Due d q cs l ∨ l = copy.placeFrom d ∧ Due d q cs (f.path.placeFrom d)) :
    fs'.tree.file? l = none ∨ fs'.tree.file? l = v := by
  have hplace : fs.place f.path = f.path.placeFrom d := by rw [FileSystem.place, h.cwd]
  have hcplace : fs.place copy = copy.placeFrom d := by rw [FileSystem.place, h.cwd]
  by_cases hlc : l = copy.placeFrom d
  · subst hlc
    have hdue : Due d q cs (f.path.placeFrom d) := by
      rcases hl with hl | ⟨-, hdue⟩
      · exact Due.source hdigests h.regular hf hcopy hout rfl hl
      · exact hdue
    have hne : copy.placeFrom d ≠ f.path.placeFrom d := fun heq =>
      Due.not_own hdigests h.regular hf hcopy hout heq hdue rfl
    have hsource := FileTree.file?_eq_some.mpr hcopied.source
    rw [hcopied.file? (by rw [hcplace, hplace]; exact hne), hcplace, if_pos rfl, ← hsource,
      hplace]
    exact h.due _ hdue
  · rw [hcopied.file?_of_ne (by rw [hcplace]; exact hlc)]
    rcases hl with hl | ⟨hl, -⟩
    · exact h.due l hl
    · exact absurd hl hlc

theorem save {f f' : SavedFile} (h : Safe d backup paths q v cs fs)
    (hdigests : SavedFile.DigestsApart paths) (hf : f.path ∈ paths) (ha : f.path.isAbsolute = true)
    (hstate : f.state = .pending) (hb : f.backupDirectory = backup)
    (hout : ∀ copy, SavedFile.copyOf? backup f.path = some copy → copy.placeFrom d ≠ q)
    (he : f.Enabling fs (.ok ()) f' fs') : Safe d backup paths q v (.file f' :: cs) fs' := by
  cases he with
  | idle _ =>
    refine h.cons ⟨hf, ha, fun hon => ?_⟩ ?_ (by simp)
    · rw [hstate] at hon
      cases hon
    · rintro _ ⟨⟩
      exact ⟨by simp [hstate], hout⟩
  | @saved copy b x fs₁ _ hcopy _ hg hcopied =>
    rw [hb] at hcopy
    have h₁ := h.grows hg
    have hcplace : fs₁.place copy = copy.placeFrom d := by rw [FileSystem.place, h₁.cwd]
    refine ⟨hcopied.cwd.trans h₁.cwd, ?_, ?_, ?_, ?_, ?_⟩
    · intro c hc
      rcases List.mem_cons.mp hc with rfl | hc
      · exact ⟨hf, ha, fun _ => hcopy.symm⟩
      · exact h.regular c hc
    · rintro ⟨f', hf', copy', hcopy', hq⟩
      rcases List.mem_cons.mp hf' with hf' | hf'
      · cases hf'
        exact hout copy' hcopy' hq
      · exact h.spared ⟨f', hf', copy', hcopy', hq⟩
    · rw [hcopied.file?_of_ne (by rw [hcplace]; exact (hout copy hcopy).symm)]
      exact h₁.here
    · intro l hl
      refine h₁.due_copied hdigests hf hcopy (hout copy hcopy) hcopied ?_
      cases hl with
      | later hl => exact Or.inl hl
      | copied _ hcopy' hdue =>
        cases hcopy'
        exact Or.inr ⟨rfl, hdue⟩
    · intro f' hf'
      rcases List.mem_cons.mp hf' with hf' | hf'
      · cases hf'
      · exact h.absent f' hf'

theorem write {p : Path} {c : ByteArray} (h : Safe d backup paths q v cs fs)
    (hout : ∀ l, Due d q cs l → p.placeFrom d ≠ l) (hw : fs.write p c = .ok fs') :
    Safe d backup paths q v cs fs' := by
  obtain ⟨x, rfl, -, hfree, -⟩ := FileSystem.writeWith_ok hw
  have hsame (l : Location) (hl : Due d q cs l) :
      (fs.tree.put (fs.place p) (.file c x)).file? l = fs.tree.file? l := by
    rw [FileTree.file?_put (FileTree.ne_nil_of_node? hfree), if_neg]
    rw [FileSystem.place, h.cwd]
    exact (hout l hl).symm
  exact h.vary rfl ((hsame q (Due.self d q cs)).trans h.here) fun l hl => .inl (hsame l hl)

/-- Copying a file back from its copy makes good for whatever was done to the file. All that counts
is that the copy is still there and that due locations hold what they held. -/
theorem restore_agreeing {f : SavedFile} {copy : Path} {fs₁ : FileSystem}
    (h : Safe d backup paths q v (.file f :: cs) fs) (he : f.state = .enabled)
    (hcopy : f.copy = some copy) (hapart : copy.placeFrom d ≠ f.path.placeFrom d)
    (hheld : fs.tree.file? (copy.placeFrom d) = fs.tree.file? (f.path.placeFrom d))
    (hcwd : fs₁.directory = d) (hthere : fs₁.isFile copy = true)
    (hfile : fs₁.isFile f.path = true)
    (hcopied : fs₁.tree.file? (copy.placeFrom d) = fs.tree.file? (copy.placeFrom d))
    (hagree : ∀ l, Due d q cs l → l ≠ f.path.placeFrom d →
      fs₁.tree.file? l = fs.tree.file? l) : Safe d backup paths q v cs (f.restore fs₁).2.2 := by
  have hout : copy.placeFrom d ≠ q :=
    h.copy_ne (((h.regular _ List.mem_cons_self).2.2 he).symm.trans hcopy)
  obtain ⟨c, x, fs₂, h₂, hend⟩ :=
    (SavedFile.restoring f fs₁).copies_back he hcopy hthere hfile
  have hplace : fs₁.place f.path = f.path.placeFrom d := by rw [FileSystem.place, hcwd]
  have hcplace : fs₁.place copy = copy.placeFrom d := by rw [FileSystem.place, hcwd]
  have hsource := FileTree.file?_eq_some.mpr h₂.source
  rw [hcplace, hcopied, hheld] at hsource
  have hsame (l : Location) (hl : Due d q cs l) : fs₂.tree.file? l = fs.tree.file? l := by
    rw [h₂.file? (by rw [hplace, hcplace]; exact hapart.symm), hplace]
    split
    · rename_i hown
      rw [hown, hsource]
    · rename_i hown
      exact hagree l hl hown
  have hback : Safe d backup paths q v cs fs₂ :=
    h.tail.vary (h₂.cwd.trans (hcwd.trans h.cwd.symm))
      ((hsame q (Due.self d q cs)).trans h.here) fun l hl => .inl (hsame l hl)
  rcases hend with hend | hremoved
  · rw [hend]
    exact hback
  · exact hback.remove_copy hout hremoved

/-- A saved file may be rewritten while the change that saved it is the latest one. -/
theorem rewrite {f f' : SavedFile} {fs'' : FileSystem} {b : ByteArray}
    (h : Safe d backup paths q v cs fs) (hdigests : SavedFile.DigestsApart paths)
    (hf : f.path ∈ paths) (ha : f.path.isAbsolute = true) (hstate : f.state = .pending)
    (hb : f.backupDirectory = backup)
    (hout : ∀ copy, SavedFile.copyOf? backup f.path = some copy → copy.placeFrom d ≠ q)
    (hapart : ∀ copy, SavedFile.copyOf? backup f.path = some copy →
      copy.placeFrom d ≠ f.path.placeFrom d)
    (hfile : fs.isFile f.path = true) (he : f.Enabling fs (.ok ()) f' fs')
    (hw : fs'.write f.path b = .ok fs'') : Safe d backup paths q v cs (f'.restore fs'').2.2 := by
  have hsafe := h.save hdigests hf ha hstate hb hout he
  obtain ⟨copy, hcopy, rfl, hthere, hhere, hheld⟩ :=
    he.copies hfile (by rw [hb, h.cwd]; exact hapart)
  rw [h.cwd] at hheld
  have hne := hapart copy (hb ▸ hcopy)
  obtain ⟨y, hfs, -, hfree, -⟩ := FileSystem.writeWith_ok hw
  have hsame (l : Location) (hl : l ≠ f.path.placeFrom d) :
      fs''.tree.file? l = fs'.tree.file? l := by
    rw [hfs, FileTree.file?_put (FileTree.ne_nil_of_node? hfree), FileSystem.place, hsafe.cwd,
      if_neg hl]
  exact hsafe.restore_agreeing rfl rfl hne hheld (by rw [hfs]; exact hsafe.cwd)
    (FileSystem.isFile_writeWith hw hthere) (FileSystem.isFile_writeWith hw hhere)
    (hsame _ hne) fun l _ hl => hsame l hl

end Safe

end Changeover
