import Changeover.Proofs.Files.Place

/-!
# What file operations change

An operation that is allowed changes one location, the one its path leads to, and making
directories only adds directories where nothing stood. A walk that succeeds goes on succeeding for
as long as the directories it went through stay.
-/

namespace Changeover

namespace FileTree

theorem node?_put {l : Location} (hl : l ≠ []) (t : FileTree) (n : Node) (m : Location) :
    (t.put l n).node? m = if m = l then some n else t.node? m := by
  by_cases h : m = l
  · rw [if_pos h, h, node?_put_self hl]
  · rw [if_neg h, node?_put_of_ne h]

theorem node?_erase {l : Location} (hl : l ≠ []) (t : FileTree) (m : Location) :
    (t.erase l).node? m = if m = l then none else t.node? m := by
  by_cases h : m = l
  · rw [if_pos h, h, node?_erase_self hl]
  · rw [if_neg h, node?_erase_of_ne h]

theorem ne_nil_of_free {t : FileTree} {l : Location} (h : t.node? l = none) : l ≠ [] := by
  rintro rfl
  rw [node?_nil] at h
  cases h

theorem ne_nil_of_node? {t : FileTree} {l : Location} (h : t.node? l ≠ some .directory) :
    l ≠ [] := by
  rintro rfl
  exact h (node?_nil t)

def file? (t : FileTree) (l : Location) : Option (ByteArray × Bool) :=
  match t.node? l with
  | some (.file c x) => some (c, x)
  | _ => none

theorem file?_eq_some {t : FileTree} {l : Location} {c : ByteArray} {x : Bool} :
    t.file? l = some (c, x) ↔ t.node? l = some (.file c x) := by
  unfold file?
  split
  · rename_i c' x' h
    simp [h]
  · rename_i h
    simp only [reduceCtorEq, false_iff]
    exact h c x

theorem file?_empty (l : Location) : ({} : FileTree).file? l = none := by
  unfold file? node?
  by_cases h : l = []
  · simp [h]
  · simp [h]

theorem file?_congr {t t' : FileTree} {l : Location} (h : t'.node? l = t.node? l) :
    t'.file? l = t.file? l := by
  rw [file?, file?, h]

theorem file?_put {t : FileTree} {l : Location} (hl : l ≠ []) (c : ByteArray) (x : Bool)
    (m : Location) :
    (t.put l (.file c x)).file? m = if m = l then some (c, x) else t.file? m := by
  by_cases h : m = l
  · rw [if_pos h, file?_eq_some, node?_put hl, if_pos h]
  · rw [if_neg h]
    exact file?_congr (node?_put_of_ne h t _)

theorem file?_erase {t : FileTree} {l : Location} (hl : l ≠ []) (m : Location) :
    (t.erase l).file? m = if m = l then none else t.file? m := by
  by_cases h : m = l
  · rw [if_pos h, file?, node?_erase hl, if_pos h]
  · rw [if_neg h]
    exact file?_congr (node?_erase_of_ne h t)

/-- Whatever stands somewhere stands in a directory. -/
def Closed (t : FileTree) : Prop :=
  ∀ l s, t.node? (l ++ [s]) ≠ none → t.node? l = some .directory

theorem closed_of_entries {t : FileTree}
    (h : ∀ e ∈ t.entries, t.node? e.1.dropLast = some .directory) : t.Closed := by
  intro l s hn
  unfold node? at hn
  rw [if_neg (by simp)] at hn
  obtain ⟨n, hn⟩ := Option.ne_none_iff_exists'.mp hn
  obtain ⟨e, he, -⟩ := Option.map_eq_some_iff.mp hn
  have hkey := List.find?_some he
  rw [beq_iff_eq] at hkey
  have hdir := h e (List.mem_of_find?_eq_some he)
  rwa [hkey, List.dropLast_concat] at hdir

theorem Closed.above {t : FileTree} (h : t.Closed) {l m : Location} (hm : m ≠ [])
    (hn : t.node? (l ++ m) ≠ none) : t.node? l = some .directory := by
  induction m generalizing l with
  | nil => exact absurd rfl hm
  | cons s m ih =>
    cases m with
    | nil => exact h l s hn
    | cons r m =>
      have hdir : t.node? (l ++ [s]) = some .directory := by
        apply ih (List.cons_ne_nil r m)
        simpa using hn
      apply h l s
      rw [hdir]
      exact Option.some_ne_none _

theorem Closed.put {t : FileTree} (h : t.Closed) {l : Location} (hl : l ≠ []) {n : Node}
    (hfree : t.node? l ≠ some .directory) (habove : t.node? l.dropLast = some .directory) :
    (t.put l n).Closed := by
  have hdrop : l.dropLast ≠ l := by
    intro he
    have hlen := congrArg List.length he
    have hpos := List.length_pos_iff.mpr hl
    rw [List.length_dropLast] at hlen
    omega
  intro m s hm
  rw [node?_put hl] at hm ⊢
  split at hm
  · rename_i he
    have hmd : m = l.dropLast := by rw [← he, List.dropLast_concat]
    rw [if_neg (hmd ▸ hdrop), hmd]
    exact habove
  · have hdir := h m s hm
    have hne : m ≠ l := by
      rintro rfl
      exact hfree hdir
    rw [if_neg hne]
    exact hdir

theorem Closed.put_file {t : FileTree} (h : t.Closed) {l : Location} {n : Node}
    (hfree : t.node? l ≠ some .directory)
    (habove : t.node? l = none → t.node? l.dropLast = some .directory) : (t.put l n).Closed := by
  have hl := ne_nil_of_node? hfree
  refine h.put hl hfree ?_
  cases hn : t.node? l with
  | none => exact habove hn
  | some n =>
    refine h _ (l.getLast hl) ?_
    rw [List.dropLast_concat_getLast hl, hn]
    exact Option.some_ne_none n

theorem Closed.congr {t t' : FileTree} (h : t.Closed) (he : ∀ l, t'.node? l = t.node? l) :
    t'.Closed := by
  intro l s hl
  rw [he] at hl ⊢
  exact h l s hl

theorem Closed.erase {t : FileTree} (h : t.Closed) {l : Location}
    (hfile : t.node? l ≠ some .directory) : (t.erase l).Closed := by
  have hl := ne_nil_of_node? hfile
  intro m s hm
  rw [node?_erase hl] at hm ⊢
  split at hm
  · exact absurd rfl hm
  · have hdir := h m s hm
    have hne : m ≠ l := by
      rintro rfl
      exact hfile hdir
    rw [if_neg hne]
    exact hdir

end FileTree

namespace FileSystem

/-! ### Walks -/

theorem enter_eq_ok_iff {t : FileTree} {l : Location} :
    enter t l = .ok () ↔ t.node? l = some .directory := by
  unfold enter
  split <;> simp_all

section

variable {t t' : FileTree} {l r : Location}

theorem walk_step_ok {c : Component} {cs : List Component} (h : walk t l (c :: cs) = .ok r) :
    walk t (c.next l) cs = .ok r ∧ (c = .root ∨ t.node? l = some .directory) := by
  cases c with
  | root => exact ⟨h, Or.inl rfl⟩
  | here =>
    simp only [walk] at h
    cases he : enter t l with
    | error e =>
      rw [he] at h
      cases h
    | ok u =>
      rw [he] at h
      exact ⟨h, Or.inr (enter_eq_ok_iff.mp he)⟩
  | up =>
    simp only [walk] at h
    cases he : enter t l with
    | error e =>
      rw [he] at h
      cases h
    | ok u =>
      rw [he] at h
      exact ⟨h, Or.inr (enter_eq_ok_iff.mp he)⟩
  | name s =>
    simp only [walk] at h
    cases he : enter t l with
    | error e =>
      rw [he] at h
      cases h
    | ok u =>
      rw [he] at h
      by_cases hs : s.utf8ByteSize > 255
      · rw [if_pos hs] at h
        cases h
      · rw [if_neg hs] at h
        exact ⟨h, Or.inr (enter_eq_ok_iff.mp he)⟩

theorem walk_cons_of_ok {c : Component} {cs : List Component} (h : walk t l (c :: cs) = .ok r)
    (ds : List Component) : walk t l (c :: ds) = walk t (c.next l) ds := by
  rcases (walk_step_ok h).2 with rfl | hdir
  · rfl
  · have henter : enter t l = .ok () := enter_eq_ok_iff.mpr hdir
    cases c with
    | root => rfl
    | here =>
      simp only [walk, henter]
      rfl
    | up =>
      simp only [walk, henter]
      rfl
    | name s =>
      simp only [walk, henter] at h
      by_cases hs : s.utf8ByteSize > 255
      · rw [if_pos hs] at h
        cases h
      · simp only [walk, henter, if_neg hs]
        rfl

/-- A walk that ends somewhere ends where its steps lead. -/
theorem walk_place {cs : List Component} (h : walk t l cs = .ok r) :
    r = cs.foldl Component.next l := by
  induction cs generalizing l with
  | nil =>
    cases h
    rfl
  | cons c cs ih => exact ih (walk_step_ok h).1

theorem walk_mono
    (hdirs : ∀ m, t.node? m = some .directory → t'.node? m = some .directory)
    {cs : List Component} (h : walk t l cs = .ok r) : walk t' l cs = .ok r := by
  induction cs generalizing l with
  | nil => exact h
  | cons c cs ih =>
    obtain ⟨hrest, hdir⟩ := walk_step_ok h
    have hgo := ih hrest
    rcases hdir with rfl | hdir
    · exact hgo
    · have henter : enter t' l = .ok () := enter_eq_ok_iff.mpr (hdirs l hdir)
      have henter' : enter t l = .ok () := enter_eq_ok_iff.mpr hdir
      cases c with
      | root => exact hgo
      | here =>
        simp only [walk, henter]
        exact hgo
      | up =>
        simp only [walk, henter]
        exact hgo
      | name s =>
        simp only [walk, henter'] at h
        by_cases hs : s.utf8ByteSize > 255
        · simp only [if_pos hs] at h
          cases h
        · simp only [walk, henter, if_neg hs]
          exact hgo

end

/-- Texts that can be paths at all. -/
def Fits (p : Path) : Prop :=
  p.text.toList.contains '\x00' = false ∧ p.text.isEmpty = false ∧
    p.text.utf8ByteSize < pathLimit

theorem follow_eq_ok_iff {fs : FileSystem} {p : Path} {steps : List Component} {l : Location} :
    fs.follow p steps = .ok l ↔ Fits p ∧ walk fs.tree fs.directory steps = .ok l := by
  unfold follow Fits
  by_cases hnul : p.text.toList.contains '\x00' = true
  · simp only [hnul, if_true]
    simp
  · rw [if_neg hnul]
    by_cases hempty : p.text.isEmpty = true
    · simp [hempty]
    · rw [if_neg hempty]
      by_cases hlong : p.text.utf8ByteSize ≥ pathLimit
      · rw [if_pos hlong]
        have : ¬ p.text.utf8ByteSize < pathLimit := by omega
        simp [this]
      · rw [if_neg hlong]
        have : p.text.utf8ByteSize < pathLimit := by omega
        simp only [Bool.not_eq_true] at hnul hempty
        simp only [hnul, hempty, this, true_and]

/-- The location a path leads to, if it leads anywhere. -/
def place (fs : FileSystem) (p : Path) : Location := p.placeFrom fs.directory

theorem place_congr {fs fs' : FileSystem} (h : fs'.directory = fs.directory) (p : Path) :
    fs'.place p = fs.place p := by rw [place, place, h]

/-- A path is walked by its components, and one step in place may follow. -/
theorem walkSteps_cases (p : Path) :
    walkSteps p = p.components ∨ walkSteps p = p.components ++ [.here] := by
  have hidle (cs : List Component) (b : Bool) :
      (cs ++ if b = true then [.here] else []) = cs ∨
        (cs ++ if b = true then [.here] else []) = cs ++ [.here] := by
    cases b
    · exact Or.inl (List.append_nil cs)
    · exact Or.inr rfl
  exact hidle _ _

theorem walkSteps_place (p : Path) (d : Location) :
    (walkSteps p).foldl Component.next d = p.placeFrom d := by
  rcases walkSteps_cases p with h | h
  · rw [h]
    rfl
  · rw [h, List.foldl_append]
    rfl

theorem locate_place {fs : FileSystem} {p : Path} {l : Location} (h : fs.locate p = .ok l) :
    l = fs.place p :=
  (walk_place (follow_eq_ok_iff.mp h).2).trans (walkSteps_place p _)

theorem locate_mono {fs fs' : FileSystem} (hcwd : fs'.directory = fs.directory)
    (hdirs : ∀ m, fs.tree.node? m = some .directory → fs'.tree.node? m = some .directory)
    {p : Path} {l : Location} (h : fs.locate p = .ok l) : fs'.locate p = .ok l := by
  obtain ⟨hfits, hwalk⟩ := follow_eq_ok_iff.mp h
  refine follow_eq_ok_iff.mpr ⟨hfits, ?_⟩
  rw [hcwd]
  exact walk_mono hdirs hwalk

/-! ### Operations -/

section

variable {fs fs' : FileSystem} {p q : Path}

theorem stat_of_locate {l : Location} (h : fs.locate p = .ok l) :
    fs.stat p = match fs.tree.node? l with
      | some n => .ok n
      | none => .error .notFound := by
  unfold stat
  rw [h]
  rfl

theorem stat_of_error {e : OsError} (h : fs.locate p = .error e) : fs.stat p = .error e := by
  unfold stat
  rw [h]
  rfl

theorem isFile_iff : fs.isFile p = true ↔
    fs.locate p = .ok (fs.place p) ∧ ∃ c x, fs.tree.node? (fs.place p) = some (.file c x) := by
  unfold isFile
  cases hl : fs.locate p with
  | error e =>
    rw [stat_of_error hl]
    simp [Except.toOption]
  | ok l =>
    obtain rfl := locate_place hl
    rw [stat_of_locate hl]
    cases hn : fs.tree.node? (fs.place p) with
    | none => simp [Except.toOption]
    | some n =>
      cases n with
      | file c x => simp [Except.toOption, Node.isFile]
      | directory => simp [Except.toOption, Node.isFile]

theorem holds_of_isFile (h : fs.isFile p = true) : fs.holds p = true := by
  unfold isFile at h
  unfold holds
  cases hs : (fs.stat p).toOption with
  | none => simp [hs] at h
  | some n => rfl

theorem writeWith_ok {c : ByteArray} {x? : Option Bool} (h : fs.writeWith p c x? = .ok fs') :
    ∃ x, fs' = { fs with tree := fs.tree.put (fs.place p) (.file c x) } ∧
      fs.locate p = .ok (fs.place p) ∧ fs.tree.node? (fs.place p) ≠ some .directory ∧
      (fs.tree.node? (fs.place p) = none →
        fs.tree.node? (fs.place p).dropLast = some .directory) ∧
      (∀ y, x? = some y → x = y) ∧
      ∀ c' x', x? = none → fs.tree.node? (fs.place p) = some (.file c' x') → x = x' := by
  unfold writeWith at h
  cases hl : fs.locate p with
  | error e =>
    rw [hl] at h
    cases h
  | ok l =>
    obtain rfl := locate_place hl
    simp only [hl, bind, Except.bind] at h
    split at h
    · cases h
    · rename_i c' x' hn
      cases h
      refine ⟨_, rfl, rfl, by simp [hn], by simp [hn], ?_, ?_⟩
      · rintro y rfl
        rfl
      · rintro c'' x'' rfl hn'
        rw [hn] at hn'
        cases hn'
        rfl
    · rename_i hn
      split at h
      · rename_i hdir
        cases h
        refine ⟨_, rfl, rfl, by simp [hn], fun _ => hdir, ?_, ?_⟩
        · rintro y rfl
          rfl
        · intro c'' x'' _ hn'
          rw [hn] at hn'
          cases hn'
      · cases h
      · cases h

/-- What a copy does: the target holds what the source held, unless they are the same file. -/
structure Copied (fs : FileSystem) (p q : Path) (c : ByteArray) (x : Bool) (fs' : FileSystem) :
    Prop where
  source : fs.tree.node? (fs.place p) = some (.file c x)
  here : fs.locate p = .ok (fs.place p)
  there : fs.locate q = .ok (fs.place q)
  free : fs.tree.node? (fs.place q) ≠ some .directory
  above : fs.tree.node? (fs.place q) = none →
    fs.tree.node? (fs.place q).dropLast = some .directory
  cwd : fs'.directory = fs.directory
  node : ∀ l, fs'.tree.node? l = (fs.tree.put (fs.place q)
    (.file (if fs.place q = fs.place p then .empty else c) x)).node? l

section

variable {c : ByteArray} {x : Bool}

theorem Copied.file? (h : Copied fs p q c x fs') (hne : fs.place q ≠ fs.place p) (m : Location) :
    fs'.tree.file? m = if m = fs.place q then some (c, x) else fs.tree.file? m := by
  have hnode := h.node m
  rw [if_neg hne] at hnode
  rw [FileTree.file?_congr hnode, FileTree.file?_put (FileTree.ne_nil_of_node? h.free)]

theorem Copied.file?_of_ne (h : Copied fs p q c x fs') {m : Location} (hm : m ≠ fs.place q) :
    fs'.tree.file? m = fs.tree.file? m := by
  rw [FileTree.file?_congr (h.node m), FileTree.file?_congr (FileTree.node?_put_of_ne hm _ _)]

theorem Copied.keepsDirectory (h : Copied fs p q c x fs') {m : Location}
    (hm : fs.tree.node? m = some .directory) : fs'.tree.node? m = some .directory := by
  have hne : m ≠ fs.place q := by
    rintro rfl
    exact h.free hm
  rw [h.node, FileTree.node?_put_of_ne hne, hm]

theorem Copied.isFile_target (h : Copied fs p q c x fs') : fs'.isFile q = true := by
  have hplace := place_congr h.cwd q
  have hnode := h.node (fs.place q)
  rw [FileTree.node?_put_self (FileTree.ne_nil_of_node? h.free)] at hnode
  rw [isFile_iff, hplace]
  exact ⟨locate_mono h.cwd (fun m hm => h.keepsDirectory hm) h.there, _, x, hnode⟩

theorem Copied.isFile_both (h : Copied fs p q c x fs') :
    fs'.isFile q = true ∧ fs'.isFile p = true := by
  refine ⟨h.isFile_target, ?_⟩
  have hplace := place_congr h.cwd p
  rw [isFile_iff, hplace, h.node, FileTree.node?_put (FileTree.ne_nil_of_node? h.free)]
  refine ⟨locate_mono h.cwd (fun m hm => h.keepsDirectory hm) h.here, ?_⟩
  split
  · exact ⟨_, x, rfl⟩
  · exact ⟨c, x, h.source⟩

end

theorem Copied.closed {c : ByteArray} {x : Bool} (h : Copied fs p q c x fs')
    (hc : fs.tree.Closed) : fs'.tree.Closed :=
  (hc.put_file h.free h.above).congr h.node

theorem copy_ok (h : fs.copy p q = .ok fs') : ∃ c x, Copied fs p q c x fs' := by
  unfold copy at h
  cases hl : fs.locate p with
  | error e =>
    rw [hl] at h
    cases h
  | ok l =>
    obtain rfl := locate_place hl
    simp only [hl, bind, Except.bind] at h
    split at h
    · cases h
    · cases h
    · rename_i c x hn
      refine ⟨c, x, ?_⟩
      cases he : fs.writeWith q .empty (some x) with
      | error e =>
        rw [he] at h
        cases h
      | ok emptied =>
        obtain ⟨x', rfl, hq, hfree, habove, hx, -⟩ := writeWith_ok he
        obtain rfl := hx x rfl
        simp only [he, hq, Except.toOption] at h
        split at h
        · rename_i hsame
          have hpq : fs.place q = fs.place p := by simpa using hsame
          cases h
          refine ⟨hn, hl, hq, hfree, habove, rfl, ?_⟩
          intro l
          rw [if_pos hpq]
        · rename_i hdiff
          have hpq : fs.place q ≠ fs.place p := by simpa using hdiff
          obtain ⟨x'', rfl, -, -, -, hx', -⟩ := writeWith_ok h
          obtain rfl := hx' _ rfl
          refine ⟨hn, hl, hq, hfree, habove, rfl, ?_⟩
          intro l
          rw [if_neg hpq]

theorem closed_writeWith {c : ByteArray} {x? : Option Bool} (h : fs.writeWith p c x? = .ok fs')
    (hc : fs.tree.Closed) : fs'.tree.Closed := by
  obtain ⟨x, rfl, -, hfree, habove, -⟩ := writeWith_ok h
  exact hc.put_file hfree habove

theorem keepsDirectory_writeWith {c : ByteArray} {x? : Option Bool}
    (h : fs.writeWith p c x? = .ok fs') {m : Location}
    (hm : fs.tree.node? m = some .directory) : fs'.tree.node? m = some .directory := by
  obtain ⟨x, rfl, -, hfree, -⟩ := writeWith_ok h
  rw [FileTree.node?_put_of_ne, hm]
  rintro rfl
  exact hfree hm

theorem isFile_writeWith {r : Path} {c : ByteArray} {x? : Option Bool}
    (h : fs.writeWith p c x? = .ok fs') (hr : fs.isFile r = true) : fs'.isFile r = true := by
  obtain ⟨x, rfl, -, hfree, -⟩ := writeWith_ok h
  have hne := FileTree.ne_nil_of_node? hfree
  obtain ⟨hlocate, c', x', hnode⟩ := isFile_iff.mp hr
  have hthere : locate { fs with tree := fs.tree.put (fs.place p) (.file c x) } r =
      .ok (fs.place r) := by
    refine locate_mono ?_ ?_ hlocate
    · rfl
    · exact fun m hm => keepsDirectory_writeWith h hm
  refine isFile_iff.mpr ⟨hthere, ?_⟩
  change ∃ c' x', (fs.tree.put (fs.place p) (.file c x)).node? (fs.place r) = some (.file c' x')
  rw [FileTree.node?_put hne]
  split
  · exact ⟨c, x, rfl⟩
  · exact ⟨c', x', hnode⟩

theorem exists_writeWith (h : fs.isFile p = true) (c : ByteArray) (x? : Option Bool) :
    ∃ fs', fs.writeWith p c x? = .ok fs' := by
  obtain ⟨hlocate, c', x', hnode⟩ := isFile_iff.mp h
  simp only [writeWith, hlocate, bind, Except.bind, hnode]
  exact ⟨_, rfl⟩

theorem exists_writeWith_of_write {c : ByteArray} (h : fs.write p c = .ok fs') (d : ByteArray)
    (x? : Option Bool) : ∃ fs'', fs.writeWith p d x? = .ok fs'' := by
  obtain ⟨x, -, hlocate, hfree, habove, -⟩ := writeWith_ok h
  simp only [writeWith, hlocate, bind, Except.bind]
  cases hn : fs.tree.node? (fs.place p) with
  | none =>
    simp only [habove hn]
    exact ⟨_, rfl⟩
  | some n =>
    cases n with
    | directory => exact absurd hn hfree
    | file _ _ => exact ⟨_, rfl⟩

theorem exists_copy_of_write {c : ByteArray} (hp : fs.isFile p = true)
    (hq : fs.write q c = .ok fs') : ∃ fs'', fs.copy p q = .ok fs'' := by
  obtain ⟨hlocate, d, x, hnode⟩ := isFile_iff.mp hp
  obtain ⟨emptied, he⟩ := exists_writeWith_of_write hq .empty (some x)
  simp only [copy, hlocate, bind, Except.bind, hnode, he]
  split
  · exact ⟨emptied, rfl⟩
  · exact exists_writeWith_of_write hq d (some x)

theorem exists_copy (hp : fs.isFile p = true) (hq : fs.isFile q = true) :
    ∃ fs', fs.copy p q = .ok fs' := by
  obtain ⟨fs', hwrite⟩ := exists_writeWith hq .empty none
  exact exists_copy_of_write hp hwrite

theorem removeFile_ok (h : fs.removeFile p = .ok fs') :
    ∃ c x, fs.tree.node? (fs.place p) = some (.file c x) ∧
      fs' = { fs with tree := fs.tree.erase (fs.place p) } := by
  unfold removeFile at h
  cases hl : fs.locate p with
  | error e =>
    rw [hl] at h
    cases h
  | ok l =>
    obtain rfl := locate_place hl
    simp only [hl, bind, Except.bind] at h
    split at h
    · rename_i c x hn
      cases h
      exact ⟨c, x, hn, rfl⟩
    · cases h
    · cases h

theorem exists_removeFile (h : fs.isFile p = true) : ∃ fs', fs.removeFile p = .ok fs' ∧
    fs'.directory = fs.directory ∧ fs'.tree.node? (fs.place p) = none := by
  obtain ⟨hlocate, c, x, hnode⟩ := isFile_iff.mp h
  have hne : fs.tree.node? (fs.place p) ≠ some .directory := by simp [hnode]
  simp only [removeFile, hlocate, bind, Except.bind, hnode]
  exact ⟨_, rfl, rfl, FileTree.node?_erase_self (FileTree.ne_nil_of_node? hne) _⟩

theorem exists_removeFile_of_copy (h : fs.copy p q = .ok fs') :
    ∃ fs'', fs'.removeFile p = .ok fs'' := by
  obtain ⟨c, x, hcopied⟩ := copy_ok h
  obtain ⟨fs'', hremoved, -⟩ := exists_removeFile hcopied.isFile_both.2
  exact ⟨fs'', hremoved⟩

theorem keepsDirectory_removeFile (h : fs.removeFile p = .ok fs') {m : Location}
    (hm : fs.tree.node? m = some .directory) : fs'.tree.node? m = some .directory := by
  obtain ⟨c, x, hnode, rfl⟩ := removeFile_ok h
  rw [FileTree.node?_erase_of_ne, hm]
  rintro rfl
  rw [hnode] at hm
  cases hm

end

/-! ### New directories -/

/-- Directories made one after the other, each at a free place in a directory. -/
inductive Grows (fs : FileSystem) : FileSystem → Prop
  | refl : Grows fs fs
  | step {fs' : FileSystem} {l : Location} : Grows fs fs' → fs'.tree.node? l = none →
    fs'.tree.node? l.dropLast = some .directory →
    Grows fs { fs' with tree := fs'.tree.put l .directory }

namespace Grows

variable {fs fs' fs'' : FileSystem}

theorem trans (h : Grows fs fs') (h' : Grows fs' fs'') : Grows fs fs'' := by
  induction h' with
  | refl => exact h
  | step _ hn hd ih => exact ih.step hn hd

theorem cwd (h : Grows fs fs') : fs'.directory = fs.directory := by
  induction h with
  | refl => rfl
  | step _ _ _ ih => exact ih

theorem node (h : Grows fs fs') (l : Location) :
    fs'.tree.node? l = fs.tree.node? l ∨
      (fs.tree.node? l = none ∧ fs'.tree.node? l = some .directory) := by
  induction h with
  | refl => exact Or.inl rfl
  | @step fs' m _ hn _ ih =>
    have hm := FileTree.ne_nil_of_free hn
    rw [FileTree.node?_put hm]
    split
    · rename_i he
      subst he
      rcases ih with ih | ih
      · exact Or.inr ⟨ih.symm.trans hn, rfl⟩
      · exact Or.inr ⟨ih.1, rfl⟩
    · exact ih

theorem keepsDirectory (h : Grows fs fs') {l : Location}
    (hl : fs.tree.node? l = some .directory) : fs'.tree.node? l = some .directory := by
  rcases h.node l with hn | hn
  · rw [hn, hl]
  · exact hn.2

theorem file? (h : Grows fs fs') (l : Location) : fs'.tree.file? l = fs.tree.file? l := by
  rcases h.node l with hn | ⟨hn, hn'⟩
  · exact FileTree.file?_congr hn
  · rw [FileTree.file?, FileTree.file?, hn, hn']

theorem closed (h : Grows fs fs') (hc : fs.tree.Closed) : fs'.tree.Closed := by
  induction h with
  | refl => exact hc
  | step _ hn hd ih =>
    exact ih.put (FileTree.ne_nil_of_free hn) (by simp [hn]) hd

theorem place (h : Grows fs fs') (p : Path) : fs'.place p = fs.place p := place_congr h.cwd p

end Grows

variable {fs fs' : FileSystem}

theorem makeDirectory_eq {p : Path} (h : fs.makeDirectory p = .ok fs') :
    fs.follow p p.components = .ok (fs.place p) ∧
      fs' = { fs with tree := fs.tree.put (fs.place p) .directory } ∧
      fs.tree.node? (fs.place p) = none ∧
      fs.tree.node? (fs.place p).dropLast = some .directory := by
  unfold makeDirectory at h
  cases hl : fs.follow p p.components with
  | error e =>
    rw [hl] at h
    cases h
  | ok l =>
    obtain rfl : l = fs.place p := walk_place (follow_eq_ok_iff.mp hl).2
    simp only [hl, bind, Except.bind] at h
    split at h
    · cases h
    · rename_i hn
      split at h
      · rename_i hd
        cases h
        exact ⟨rfl, rfl, hn, hd⟩
      · cases h
      · cases h

theorem makeDirectory_ok {p : Path} (h : fs.makeDirectory p = .ok fs') : Grows fs fs' := by
  obtain ⟨-, rfl, hn, hd⟩ := makeDirectory_eq h
  exact Grows.refl.step hn hd

theorem makeParents_grows (n : Nat) (p : Path) (fs : FileSystem) :
    Grows fs (makeParents n p fs).2 := by
  induction n generalizing p fs with
  | zero => exact .refl
  | succ n ih =>
    unfold makeParents
    split
    · exact .refl
    · split
      · rename_i hm
        exact makeDirectory_ok hm
      · split
        · exact .refl
        · rename_i parent _
          have hup := ih parent fs
          split
          · rename_i hr
            rw [hr] at hup
            exact hup
          · rename_i hr
            rw [hr] at hup
            split
            · rename_i hm
              exact hup.trans (makeDirectory_ok hm)
            · split
              · exact hup
              · exact hup
      · split
        · exact .refl
        · exact .refl

theorem makeDirectories_grows (fs : FileSystem) (p : Path) : Grows fs (fs.makeDirectories p).2 :=
  makeParents_grows _ p fs

end FileSystem

end Changeover
