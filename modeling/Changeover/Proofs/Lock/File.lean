import Changeover.Proofs.Lock.Draft

/-!
# What the lock file says

Of the files only what is read from the lock file counts. Once it has been made in its directory, it
can be read, removed and made again, and each acquisition and release is told by what it says.
-/

namespace Changeover

namespace Text

theorem not_isBlank_of_isDigit {c : Char} (h : c.isDigit = true) : isBlank c = false := by
  obtain ⟨hlow, hhigh⟩ := Char.isDigit_iff_toNat.mp h
  simp only [Char.reduceToNat] at hlow hhigh
  simp only [isBlank, Bool.or_eq_false_iff, Bool.and_eq_false_iff, decide_eq_false_iff_not,
    beq_eq_false_iff_ne]
  omega

theorem dropWhile_isBlank {cs : List Char} (h : ∀ c ∈ cs, isBlank c = false) :
    cs.dropWhile isBlank = cs := by
  cases cs with
  | nil => rfl
  | cons c cs =>
    have hc := h c List.mem_cons_self
    rw [List.dropWhile_cons_of_neg (by simp [hc])]

theorem trimmed_append_blank {cs : List Char} {b : Char} (h : ∀ c ∈ cs, isBlank c = false)
    (hb : isBlank b = true) : trimmed (cs ++ [b]) = cs := by
  have hend : trimEnd (cs ++ [b]) = cs := by
    rw [trimEnd, List.reverse_append, List.reverse_singleton, List.singleton_append,
      List.dropWhile_cons_of_pos hb, dropWhile_isBlank, List.reverse_reverse]
    intro c hc
    exact h c (List.mem_reverse.mp hc)
  cases cs with
  | nil => simp [trimmed, trimEnd, hb]
  | cons c cs =>
    have hc := h c List.mem_cons_self
    rw [trimmed, List.cons_append, List.dropWhile_cons_of_neg (by simp [hc])]
    exact hend

end Text

namespace PidLock

open FileSystem

/-! ### Numbers -/

variable {pid : Nat}

theorem digitsValue_toDigits (n : Nat) : digitsValue (Nat.toDigits 10 n) = n :=
  Nat.ofDigitChars_ten_toDigits

theorem isDigit_of_mem_toDigits {n : Nat} {c : Char} (h : c ∈ Nat.toDigits 10 n) :
    c.isDigit = true := Nat.isDigit_of_mem_toDigits (by decide) (by decide) h

theorem pid?_toDigits (h : pid < pidLimit) : pid? (Nat.toDigits 10 pid) = some pid := by
  have hall : (Nat.toDigits 10 pid).all Char.isDigit = true :=
    List.all_eq_true.mpr fun c hc => isDigit_of_mem_toDigits hc
  have hplus : ∀ cs, Nat.toDigits 10 pid ≠ '+' :: cs := by
    intro cs hcs
    have hdigit := isDigit_of_mem_toDigits (n := pid) (c := '+') (hcs ▸ List.mem_cons_self)
    cases hdigit
  unfold pid?
  split
  · next cs hcs => exact absurd hcs (hplus cs)
  · simp [hall, digitsValue_toDigits, h]

theorem lt_of_pid? {cs : List Char} (h : pid? cs = some pid) : pid < pidLimit := by
  unfold pid? at h
  simp only [Option.ite_none_left_eq_some, Option.ite_none_right_eq_some] at h
  obtain ⟨-, hlt, heq⟩ := h
  cases heq
  exact hlt

theorem pid?_content (h : pid < pidLimit) :
    pid? (Text.trimmed (content pid).toList) = some pid := by
  have hchars : (content pid).toList = Nat.toDigits 10 pid ++ ['\n'] := by
    simp [content]
  rw [hchars, Text.trimmed_append_blank, pid?_toDigits h]
  · intro c hc
    exact Text.not_isBlank_of_isDigit (isDigit_of_mem_toDigits hc)
  · decide

/-! ### Reading -/

variable {directory path : Path} {name : String} {fs fs' : FileSystem} {holder : Option Nat}

theorem readText_of_file {s : String} {x : Bool} (hlocate : fs.locate path = .ok (fs.place path))
    (hfile : fs.tree.node? (fs.place path) = some (.file s.toUTF8 x)) :
    fs.readText path = .ok s := by
  have htext : String.fromUTF8? s.toUTF8 = some s := by
    rw [String.toUTF8_eq_toByteArray, String.fromUTF8?, dif_pos s.isValidUTF8]
    rfl
  simp only [readText, FileSystem.read, stat_of_locate hlocate, hfile, bind, Except.bind, pure,
    Except.pure, htext]

theorem isFile_of_read {content : ByteArray} (h : fs.read path = .ok content) :
    fs.isFile path = true := by
  unfold FileSystem.read at h
  cases hstat : fs.stat path with
  | error e =>
    rw [hstat] at h
    cases h
  | ok n =>
    rw [hstat] at h
    cases n with
    | file c x =>
      rw [isFile, hstat]
      rfl
    | directory => cases h

theorem readPid_of_free (hlocate : fs.locate path = .ok (fs.place path))
    (hfree : fs.tree.node? (fs.place path) = none) : readPid fs path = .ok none := by
  simp only [readPid, readText, FileSystem.read, stat_of_locate hlocate, hfree, bind, Except.bind]

theorem readPid_of_file {x : Bool} (hlocate : fs.locate path = .ok (fs.place path))
    (hfile : fs.tree.node? (fs.place path) = some (.file (content pid).toUTF8 x))
    (h : pid < pidLimit) : readPid fs path = .ok (some pid) := by
  rw [readPid, readText_of_file hlocate hfile]
  simp only [pid?_content h]

theorem isFile_of_readPid (h : readPid fs path = .ok (some pid)) : fs.isFile path = true := by
  unfold readPid readText at h
  cases hread : fs.read path with
  | error e =>
    rw [hread] at h
    cases e <;> cases h
  | ok bytes => exact isFile_of_read hread

theorem readPid_ne_of_free (hfree : fs.tree.file? (fs.place path) = none) (pid : Nat) :
    readPid fs path ≠ .ok (some pid) := by
  intro hreads
  obtain ⟨-, c, x, hnode⟩ := isFile_iff.mp (isFile_of_readPid hreads)
  rw [FileTree.file?_eq_some.mpr hnode] at hfree
  cases hfree

theorem lt_of_readPid (h : readPid fs path = .ok (some pid)) : pid < pidLimit := by
  unfold readPid at h
  split at h
  · cases h
  · cases h
  · split at h
    · next hpid =>
      cases h
      exact lt_of_pid? hpid
    · cases h

theorem free_of_readPid (h : readPid fs path = .ok none)
    (hlocate : fs.locate path = .ok (fs.place path)) :
    fs.tree.node? (fs.place path) = none := by
  cases hnode : fs.tree.node? (fs.place path) with
  | none => rfl
  | some n =>
    simp only [readPid, readText, FileSystem.read, stat_of_locate hlocate, hnode, bind,
      Except.bind] at h
    cases n with
    | directory => cases h
    | file c x =>
      simp only [pure, Except.pure] at h
      split at h
      · next hnone =>
        split at hnone
        · cases hnone
        · cases hnone
      · cases h
      · split at h
        · cases h
        · cases h

/-! ### Acquiring and releasing -/

theorem release_own {l : PidLock} (h : readPid fs l.path = .ok (some l.pid)) :
    l.release fs = (.ok (), { fs with tree := fs.tree.erase (fs.place l.path) }) := by
  obtain ⟨fs', hremove, -⟩ := exists_removeFile (isFile_of_readPid h)
  obtain ⟨-, -, -, rfl⟩ := removeFile_ok hremove
  simp only [release, h, hremove, ne_eq, not_true_eq_false, if_false]

def draftNames (directory : Path) (name : String) (i : Nat) : Path :=
  draftPath directory name (Token.nth i)

/-- The lock file can be made, read and removed, and now it names `holder`. -/
structure Ready (directory : Path) (name : String) (fs : FileSystem) (holder : Option Nat) :
    Prop where
  opened : fs.Opened directory
  located : fs.locate (filePath directory name) = .ok (fs.place (filePath directory name))
  above : fs.tree.node? (fs.place (filePath directory name)).dropLast = some .directory
  reads : readPid fs (filePath directory name) = .ok holder
  drafted : ∃ r, createDraft (draftNames directory name) fs draftLimit 0 = .ok r

namespace Ready

theorem of_directories {holder' : Option Nat} (h : Ready directory name fs holder)
    (hcwd : fs'.directory = fs.directory)
    (hdirs : ∀ m, fs.tree.node? m = some .directory → fs'.tree.node? m = some .directory)
    (hothers : ∀ m ≠ fs.place (filePath directory name), fs'.tree.node? m = fs.tree.node? m)
    (hreads : fs'.locate (filePath directory name) = .ok (fs'.place (filePath directory name)) →
      readPid fs' (filePath directory name) = .ok holder') :
    Ready directory name fs' holder' := by
  have hplace := place_congr hcwd (filePath directory name)
  have hlocate : fs'.locate (filePath directory name) =
      .ok (fs'.place (filePath directory name)) := by
    rw [hplace]
    exact locate_mono hcwd hdirs h.located
  refine ⟨h.opened.mono hcwd hdirs, hlocate, ?_, hreads hlocate, ?_⟩
  · rw [hplace]
    exact hdirs _ h.above
  · refine createDraft_mono hcwd hdirs ?_ h.drafted
    intro j l hl
    exact hothers l (beside_of_locate hl).2.2.symm

theorem taken (h : Ready directory name fs holder) (pid : Nat) :
    Taken {} (filePath directory name) pid fs (acquire fs directory name pid) :=
  acquireUnder_taken pid h.opened.makeDirectories h.drafted

theorem made (h : Ready directory name fs none) (hpid : pid < pidLimit) :
    Ready directory name
      (fs.withFile (fs.place (filePath directory name)) (content pid).toUTF8) (some pid) := by
  have hfree := free_of_readPid h.reads h.located
  refine h.of_directories rfl ?_ ?_ ?_
  · exact fun m hm => keepsDirectory_withFile hfree _ hm
  · exact fun m hm => FileTree.node?_put_of_ne hm _ _
  · intro hlocate
    refine readPid_of_file (x := false) hlocate ?_ hpid
    exact FileTree.node?_put_self (FileTree.ne_nil_of_free hfree) _ _

theorem acquire_free (h : Ready directory name fs none) (hpid : pid < pidLimit) :
    ∃ fs', acquire fs directory name pid = (.ok ⟨filePath directory name, pid⟩, fs') ∧
      Ready directory name fs' (some pid) := by
  have htaken := h.taken pid
  generalize acquire fs directory name pid = r at htaken
  cases htaken with
  | unfilled he => cases he
  | unlinked he => cases he
  | made _ => exact ⟨_, rfl, h.made hpid⟩
  | recognised hheld =>
    rw [holds_of_locate h.located, free_of_readPid h.reads h.located] at hheld
    exact hheld.elim (fun hsome => nomatch hsome) fun he => nomatch he

theorem acquire_held {holder : Nat} (h : Ready directory name fs (some holder)) (pid : Nat) :
    acquire fs directory name pid = (if holder = pid then .ok ⟨filePath directory name, pid⟩
      else .error (.locked (filePath directory name) holder), fs) := by
  have htaken := h.taken pid
  generalize acquire fs directory name pid = r at htaken ⊢
  cases htaken with
  | unfilled he => cases he
  | unlinked he => cases he
  | recognised _ => rw [recognise, h.reads]
  | made hfree =>
    have hreads := h.reads
    rw [readPid_of_free h.located hfree] at hreads
    cases hreads

theorem release_own (h : Ready directory name fs (some pid)) :
    ∃ fs', release ⟨filePath directory name, pid⟩ fs = (.ok (), fs') ∧
      Ready directory name fs' none := by
  obtain ⟨-, c, x, hnode⟩ := isFile_iff.mp (isFile_of_readPid h.reads)
  refine ⟨_, PidLock.release_own (l := ⟨_, pid⟩) h.reads, h.of_directories rfl ?_ ?_ ?_⟩
  · intro m hm
    have hne : m ≠ fs.place (filePath directory name) := by
      rintro rfl
      rw [hnode] at hm
      cases hm
    exact (FileTree.node?_erase_of_ne hne _).trans hm
  · exact fun m hm => FileTree.node?_erase_of_ne hm _
  · intro hlocate
    refine readPid_of_free hlocate (FileTree.node?_erase_self ?_ _)
    exact FileTree.ne_nil_of_node? (t := fs.tree) (by simp [hnode])

theorem release_other {l : PidLock} (h : Ready directory name fs holder)
    (hpath : l.path = filePath directory name) (hne : holder ≠ some l.pid) :
    release l fs = (.ok (), fs) := by
  rw [release, hpath, h.reads]
  exact if_pos hne

end Ready

/-- Where the file names nobody, the place is not free for anyone. -/
theorem exists_recognise_error (h : ∀ holder, readPid fs path ≠ .ok (some holder)) (pid : Nat) :
    ∃ e, recognise fs path pid = .error e := by
  unfold recognise
  split
  · exact ⟨_, rfl⟩
  · exact ⟨_, rfl⟩
  · next hreads => exact absurd hreads (h _)

theorem acquire_unopened
    (hfree : fs.tree.file? (fs.place (filePath directory name)) = none) (hpid : pid < pidLimit) :
    (∃ e fs', acquire fs directory name pid = (.error e, fs') ∧
      fs'.tree.file? (fs'.place (filePath directory name)) = none) ∨
    ∃ fs', acquire fs directory name pid = (.ok ⟨filePath directory name, pid⟩, fs') ∧
      Ready directory name fs' (some pid) := by
  obtain ⟨fs₁, hgrows, ⟨e, he⟩ | ⟨hmade, hdraft⟩⟩ := acquireUnder_cases {} fs directory name pid
  · refine .inl ⟨e, fs₁, he, ?_⟩
    rw [hgrows.file?, hgrows.place, hfree]
  · rw [← hgrows.file?, ← hgrows.place] at hfree
    have htaken := acquireUnder_taken pid hmade hdraft
    rw [acquire]
    generalize acquireUnder {} fs directory name pid = r at htaken ⊢
    cases htaken with
    | unfilled he => cases he
    | unlinked he => cases he
    | recognised _ =>
      obtain ⟨e, he⟩ := exists_recognise_error (readPid_ne_of_free hfree) pid
      exact .inl ⟨e, fs₁, by rw [he], hfree⟩
    | made hnone =>
      obtain ⟨hlocate, habove⟩ := located_of_createDraft hdraft
      have hready : Ready directory name fs₁ none :=
        ⟨opened_of_makeDirectories hmade, hlocate, habove, readPid_of_free hlocate hnone, hdraft⟩
      exact .inr ⟨_, rfl, hready.made hpid⟩

end PidLock

end Changeover
