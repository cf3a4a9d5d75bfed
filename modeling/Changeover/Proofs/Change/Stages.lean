import Changeover.Proofs.Files.Returns
import Changeover.Proofs.Rollback.Installed
import Changeover.Proofs.Undo.Lives

/-!
# The one way through a life

A saved file, an absent file and a package set are pending, then enabled, then restored, whatever
becomes of the world between the calls. All that a call can do is one case of a relation; from it
follow the laws of every call, and by induction along a life those of the life.
-/

namespace Changeover

/-- What queries and failing installations make of a host. -/
inductive PackageManager.Tries (m : PackageManager) (h : Host) : Host → Prop
  | nothing : Tries m h h
  | query {h' : Host} (p : String) : Tries m h h' → Tries m h (m.isInstalled p h').2
  | refused {h' h'' : Host} {ps : List String} {repos : Repositories} {e : Fault} :
    Tries m h h' → m.install ps repos h' = (.error e, h'') → Tries m h h''

theorem PackageSet.tries_wanted (m : PackageManager) (ps : List String) (h : Host) :
    m.Tries h (wanted m ps h).2 :=
  wanted_keeps (P := fun w => m.Tries h w) (fun p _ hw => hw.query p) ps h .nothing

namespace Change

def stage? : Change → Option Lifecycle
  | .file f => some f.state
  | .absent f => some f.state
  | .packages s => some s.state
  | .rehearsed _ => none

theorem stage?_file {f : SavedFile} {s : Lifecycle} (hs : f.state = s) :
    (file f).stage? = some s := congrArg some hs

theorem stage?_absent {f : AbsentFile} {s : Lifecycle} (hs : f.state = s) :
    (absent f).stage? = some s := congrArg some hs

theorem stage?_packages {p : PackageSet} {s : Lifecycle} (hs : p.state = s) :
    (packages p).stage? = some s := congrArg some hs

/-- Saving, as it is done when a change becomes enabled: the file is copied, the absence noted, or
what is missing installed, if anything is. -/
inductive Saves (h : Host) : Change → Change → Host → Prop
  | copied {f : SavedFile} {copy : Path} {c : ByteArray} {x : Bool} {fs fs' : FileSystem} :
    SavedFile.copyOf? f.backupDirectory f.path = some copy → h.files.Grows fs →
    fs.Copied f.path copy c x fs' →
    Saves h (.file f) (.file { f with copy := some copy, state := .enabled })
      { h with files := fs' }
  | noted {f : AbsentFile} : h.files.holds f.path = false →
    Saves h (.absent f) (.absent { f with state := .enabled }) h
  | present {s : PackageSet} {h' : Host} :
    PackageSet.wanted s.manager s.packages h = (.ok [], h') →
    Saves h (.packages s) (.packages { s with state := .enabled }) h'
  | installed {s : PackageSet} {ps names : List String} {h' h'' : Host} :
    PackageSet.wanted s.manager s.packages h = (.ok ps, h') →
    s.manager.install ps s.repositories h' = (.ok names, h'') →
    Saves h (.packages s) (.packages { s with installed := names, state := .enabled }) h''

/-- What is left of an attempt that saves nothing: directories for the copy, or whatever the manager
does when it is asked or fails. -/
inductive Tries (h : Host) : Change → Host → Prop
  | file {f : SavedFile} {fs : FileSystem} : h.files.Grows fs →
    Tries h (.file f) { h with files := fs }
  | absent {f : AbsentFile} : Tries h (.absent f) h
  | packages {s : PackageSet} {h' : Host} : s.manager.Tries h h' → Tries h (.packages s) h'

/-- What restoring does to a host: it writes at the path of a saved file, and takes away. -/
inductive Undoes (h : Host) : Change → Host → Prop
  | file {f : SavedFile} {fs : FileSystem} :
    (∀ m, m ≠ h.files.place f.path →
      fs.tree.node? m = h.files.tree.node? m ∨ fs.tree.node? m = none) →
    Undoes h (.file f) { h with files := fs }
  | absent {f : AbsentFile} {fs : FileSystem} :
    (∀ m, fs.tree.node? m = h.files.tree.node? m ∨ fs.tree.node? m = none) →
    Undoes h (.absent f) { h with files := fs }
  | nothing {s : PackageSet} : Undoes h (.packages s) h
  | removal {s : PackageSet} : Undoes h (.packages s) (s.manager.remove s.installed h).2

/-- All that a call on a change that has a stage can do. -/
inductive Ends (h : Host) : Verb → Change → Except (Stop Fault) Unit → Change → Host → Prop
  | saved {c c' : Change} {h' : Host} : c.stage? = some .pending → c'.stage? = some .enabled →
    Saves h c c' h' → Ends h .enable c (.ok ()) c' h'
  | tried {c : Change} {r : Except (Stop Fault) Unit} {h' : Host} : c.stage? = some .pending →
    Tries h c h' → Ends h .enable c r c h'
  | again {c : Change} : c.stage? = some .enabled → Ends h .enable c (.ok ()) c h
  | late {c : Change} : c.stage? = some .restored →
    Ends h .enable c (.error (.failed (Lifecycle.alreadyRestored c.describe))) c h
  | outside {c : Change} : c.stage? ≠ some .enabled → Ends h .restore c (.ok ()) c h
  | held {c : Change} {r : Except (Stop Fault) Unit} {h' : Host} : c.stage? = some .enabled →
    Undoes h c h' → (∀ f e, c = .file f → r = .error e →
      h' = h ∧ ∃ copy, f.copy = some copy ∧ h.files.isFile copy = true) →
    Ends h .restore c r c h'
  | restored {c c' : Change} {h' : Host} : c.stage? = some .enabled →
    c'.stage? = some .restored → Undoes h c h' → Ends h .restore c (.ok ()) c' h'

theorem enable_file_ends (f : SavedFile) (h : Host) :
    Ends h .enable (.file f) ((f.enable h.files).1.mapError .failed)
      (.file (f.enable h.files).2.1) { h with files := (f.enable h.files).2.2 } := by
  cases hs : f.state with
  | pending =>
    have hends := SavedFile.enabling hs h.files
    generalize f.enable h.files = out at hends ⊢
    obtain ⟨r, f', fs⟩ := out
    cases hends with
    | idle _ => exact .tried (stage?_file hs) (.file .refl)
    | refused hg => exact .tried (stage?_file hs) (.file hg)
    | saved hcopy _ hg hcopied =>
      exact .saved (stage?_file hs) rfl (.copied hcopy hg hcopied)
  | enabled =>
    simp only [SavedFile.enable, hs]
    exact .again (stage?_file hs)
  | restored =>
    simp only [SavedFile.enable, hs]
    exact .late (stage?_file hs)

theorem restore_file_ends (f : SavedFile) (h : Host) :
    Ends h .restore (.file f) ((f.restore h.files).1.mapError .failed)
      (.file (f.restore h.files).2.1) { h with files := (f.restore h.files).2.2 } := by
  have hends := SavedFile.restoring f h.files
  have hundoes : Undoes h (.file f) { h with files := (f.restore h.files).2.2 } :=
    .file fun m hm => hends.takesAway hm
  cases hr : (f.restore h.files).1 with
  | error e =>
    obtain ⟨hs, hall, copy, hcopy, hthere⟩ := SavedFile.restore_of_error hr
    rw [hall] at hundoes ⊢
    refine .held (stage?_file hs) hundoes ?_
    rintro f' _ hf _
    cases hf
    exact ⟨rfl, copy, hcopy, hthere⟩
  | ok =>
    rw [hr] at hends
    generalize (f.restore h.files).2 = out at hends hundoes ⊢
    obtain ⟨f', fs⟩ := out
    cases hends with
    | idle _ =>
      -- either nothing was saved, or the copy is gone
      by_cases hs : f'.state = .enabled
      · exact .held (stage?_file hs) hundoes (fun _ _ _ he => nomatch he)
      · exact .outside (fun hen => hs (Option.some.inj hen))
    | restored hs _ _ _ => exact .restored (stage?_file hs) rfl hundoes

theorem enable_absent_ends (f : AbsentFile) (h : Host) :
    Ends h .enable (.absent f) ((f.enable h.files).1.mapError .failed)
      (.absent (f.enable h.files).2) h := by
  cases hs : f.state with
  | pending =>
    rw [AbsentFile.enable_pending hs]
    cases hheld : h.files.holds f.path with
    | true => exact .tried (stage?_absent hs) .absent
    | false => exact .saved (stage?_absent hs) rfl (.noted hheld)
  | enabled =>
    simp only [AbsentFile.enable, hs]
    exact .again (stage?_absent hs)
  | restored =>
    simp only [AbsentFile.enable, hs]
    exact .late (stage?_absent hs)

theorem restore_absent_ends (f : AbsentFile) (h : Host) :
    Ends h .restore (.absent f) ((f.restore h.files).1.mapError .failed)
      (.absent (f.restore h.files).2.1) { h with files := (f.restore h.files).2.2 } := by
  have hends := AbsentFile.restoring f h.files
  have hundoes : Undoes h (.absent f) { h with files := (f.restore h.files).2.2 } :=
    .absent hends.takesAway
  generalize f.restore h.files = out at hends hundoes ⊢
  obtain ⟨r, f', fs⟩ := out
  cases hends with
  | idle hs => exact .outside (fun hen => hs (Option.some.inj hen))
  | refused hs => exact .held (stage?_absent hs) hundoes (fun _ _ hc => nomatch hc)
  | gone hs _ => exact .restored (stage?_absent hs) rfl hundoes
  | removed hs _ _ => exact .restored (stage?_absent hs) rfl hundoes

theorem enable_packages_ends (p : PackageSet) (h : Host) :
    Ends h .enable (.packages p) ((p.enable h).1.mapError .failed) (.packages (p.enable h).2.1)
      (p.enable h).2.2 := by
  cases hs : p.state with
  | pending =>
    have hends := PackageSet.enabling hs h
    have htries := PackageSet.tries_wanted p.manager p.packages h
    generalize p.enable h = out at hends ⊢
    obtain ⟨r, p', h'⟩ := out
    cases hends with
    | unanswered hw =>
      rw [hw] at htries
      exact .tried (stage?_packages hs) (.packages htries)
    | present hw => exact .saved (stage?_packages hs) rfl (.present hw)
    | refused hw hi =>
      rw [hw] at htries
      exact .tried (stage?_packages hs) (.packages (htries.refused hi))
    | installed hw hi => exact .saved (stage?_packages hs) rfl (.installed hw hi)
  | enabled =>
    simp only [PackageSet.enable, hs]
    exact .again (stage?_packages hs)
  | restored =>
    simp only [PackageSet.enable, hs]
    exact .late (stage?_packages hs)

theorem restore_packages_ends (p : PackageSet) (h : Host) :
    Ends h .restore (.packages p) ((p.restore h).1.mapError .failed)
      (.packages (p.restore h).2.1) (p.restore h).2.2 := by
  have hends := PackageSet.restoring p h
  have hremoval : Undoes h (.packages p) (p.manager.remove p.installed h).2 := .removal
  generalize p.restore h = out at hends ⊢
  obtain ⟨r, p', h'⟩ := out
  cases hends with
  | idle hs => exact .outside (fun hen => hs (Option.some.inj hen))
  | nothing hs _ => exact .restored (stage?_packages hs) rfl .nothing
  | refused hs hr =>
    rw [hr] at hremoval
    exact .held (stage?_packages hs) hremoval (fun _ _ hc => nomatch hc)
  | removed hs hr =>
    rw [hr] at hremoval
    exact .restored (stage?_packages hs) rfl hremoval

theorem ends {c : Change} (hc : c.stage? ≠ none) (v : Verb) (h : Host) :
    Ends h v c (v.run c h).1 (v.run c h).2.1 (v.run c h).2.2 := by
  cases c with
  | file f =>
    cases v with
    | enable => exact enable_file_ends f h
    | restore => exact restore_file_ends f h
  | absent f =>
    cases v with
    | enable => exact enable_absent_ends f h
    | restore => exact restore_absent_ends f h
  | packages p =>
    cases v with
    | enable => exact enable_packages_ends p h
    | restore => exact restore_packages_ends p h
  | rehearsed c => exact absurd rfl hc

/-- The copy is still where it was found, as it was, and for as long as it is there the file is
restored as soon as it can be written. -/
def Retriable (h : Host) (f : SavedFile) (h' : Host) : Prop :=
  ∃ copy, f.copy = some copy ∧ h.files.isFile copy = true ∧
    h'.files.fileAt copy = h.files.fileAt copy ∧
    ∀ (later : Host) (content : ByteArray) (fs : FileSystem), later.files.isFile copy = true →
      later.files.write f.path content = .ok fs →
      ∃ h'', Reversible.restore (Change.file f) later =
        (.ok (), .file { f with copy := none, state := .restored }, h'')

/-- The laws of one call. -/
structure Obeys (h : Host) (v : Verb) (c : Change) (r : Except (Stop Fault) Unit) (c' : Change)
    (h' : Host) : Prop where
  /-- A stage is left only for the next one, and only by the call that is meant for it. -/
  one_way : c'.stage? = c.stage? ∨
    (v = .enable ∧ c.stage? = some .pending ∧ c'.stage? = some .enabled) ∨
    (v = .restore ∧ c.stage? = some .enabled ∧ c'.stage? = some .restored)
  /-- A call that fails leaves the change as it was. -/
  failed : ∀ e, r = .error e → c' = c
  /-- What was pending is saved by the call that enables it, and otherwise nothing is saved. -/
  pending : v = .enable → c.stage? = some .pending →
    (r = .ok () ∧ c'.stage? = some .enabled ∧ Saves h c c' h') ∨ (c' = c ∧ Tries h c h')
  again : v = .enable → c.stage? = some .enabled → r = .ok () ∧ c' = c ∧ h' = h
  late : v = .enable → c.stage? = some .restored →
    r = .error (.failed (Lifecycle.alreadyRestored c.describe)) ∧ c' = c ∧ h' = h
  outside : v = .restore → c.stage? ≠ some .enabled → r = .ok () ∧ c' = c ∧ h' = h
  /-- A restore saves nothing. -/
  enabled : v = .restore → c.stage? = some .enabled →
    (r = .ok () ∧ c'.stage? = some .restored ∨ c' = c) ∧ Undoes h c h'
  retry : ∀ f e, v = .restore → c = .file f → r = .error e → c' = .file f ∧ Retriable h f h'

theorem Ends.retry {h h' : Host} {f : SavedFile} {c' : Change} {e : Stop Fault}
    (he : Ends h .restore (.file f) (.error e) c' h') : c' = .file f ∧ Retriable h f h' := by
  cases he with
  | held hc _ hheld =>
    obtain ⟨rfl, copy, hcopy, hthere⟩ := hheld f e rfl rfl
    refine ⟨rfl, copy, hcopy, hthere, rfl, ?_⟩
    intro later content fs hlater hwrite
    obtain ⟨fs', hr⟩ :=
      SavedFile.restore_of_write (Option.some.inj hc) hcopy hlater hwrite
    refine ⟨{ later with files := fs' }, ?_⟩
    simp only [Reversible.restore, restore, hr]
    rfl

theorem Ends.obeys {h h' : Host} {v : Verb} {c c' : Change} {r : Except (Stop Fault) Unit}
    (he : Ends h v c r c' h') : Obeys h v c r c' h' := by
  constructor
  case one_way =>
    cases he with
    | saved hc hc' _ => exact .inr (.inl ⟨rfl, hc, hc'⟩)
    | restored hc hc' _ => exact .inr (.inr ⟨rfl, hc, hc'⟩)
    | _ => exact .inl rfl
  case failed =>
    intro e hr
    cases he with
    | saved _ _ _ => cases hr
    | restored _ _ _ => cases hr
    | _ => rfl
  case pending =>
    rintro rfl hp
    cases he with
    | saved _ hc' hs => exact .inl ⟨rfl, hc', hs⟩
    | tried _ ht => exact .inr ⟨rfl, ht⟩
    | again hc => cases hc.symm.trans hp
    | late hc => cases hc.symm.trans hp
  case again =>
    rintro rfl hp
    cases he with
    | again _ => exact ⟨rfl, rfl, rfl⟩
    | saved hc _ _ => cases hc.symm.trans hp
    | tried hc _ => cases hc.symm.trans hp
    | late hc => cases hc.symm.trans hp
  case late =>
    rintro rfl hp
    cases he with
    | late _ => exact ⟨rfl, rfl, rfl⟩
    | saved hc _ _ => cases hc.symm.trans hp
    | tried hc _ => cases hc.symm.trans hp
    | again hc => cases hc.symm.trans hp
  case outside =>
    rintro rfl hp
    cases he with
    | outside _ => exact ⟨rfl, rfl, rfl⟩
    | held hc _ _ => exact absurd hc hp
    | restored hc _ _ => exact absurd hc hp
  case enabled =>
    rintro rfl hp
    cases he with
    | outside hc => exact absurd hp hc
    | held _ hu _ => exact ⟨.inr rfl, hu⟩
    | restored _ hc' hu => exact ⟨.inl ⟨rfl, hc'⟩, hu⟩
  case retry =>
    rintro f e rfl rfl rfl
    exact he.retry

/-! ### Lives -/

theorem Obeys.rank_le {h h' : Host} {v : Verb} {c c' : Change} {r : Except (Stop Fault) Unit}
    (he : Obeys h v c r c' h') {s : Lifecycle} (hs : c.stage? = some s) :
    ∃ s', c'.stage? = some s' ∧ s.rank ≤ s'.rank := by
  rcases he.one_way with hc' | ⟨-, hc, hc'⟩ | ⟨-, hc, hc'⟩
  · exact ⟨s, hc'.trans hs, Nat.le_refl _⟩
  · obtain rfl := Option.some.inj (hc.symm.trans hs)
    exact ⟨_, hc', by decide⟩
  · obtain rfl := Option.some.inj (hc.symm.trans hs)
    exact ⟨_, hc', by decide⟩

theorem rank_le_lived {c : Change} {s : Lifecycle} (hs : c.stage? = some s)
    (calls : List (Verb × Host)) :
    ∃ s', (lived c calls).stage? = some s' ∧ s.rank ≤ s'.rank := by
  induction calls with
  | nil => exact ⟨s, hs, Nat.le_refl _⟩
  | cons k calls ih =>
    obtain ⟨s₁, hs₁, hle⟩ := ih
    obtain ⟨s₂, hs₂, hle'⟩ := (ends (by simp [hs₁]) k.1 k.2).obeys.rank_le hs₁
    exact ⟨s₂, hs₂, Nat.le_trans hle hle'⟩

theorem stage?_lived {c : Change} (hc : c.stage? ≠ none) (calls : List (Verb × Host)) :
    (lived c calls).stage? ≠ none := by
  obtain ⟨s, hs⟩ := Option.ne_none_iff_exists'.mp hc
  obtain ⟨s', hs', -⟩ := rank_le_lived hs calls
  simp [hs']

def savings (c : Change) : List (Verb × Host) → Nat
  | [] => 0
  | (v, h) :: calls =>
    let before := lived c calls
    let after := (v.run before h).2.1
    savings c calls +
      if before.stage? ≠ some .enabled ∧ after.stage? = some .enabled then 1 else 0

theorem savings_le_one {c : Change} (hc : c.stage? ≠ none) (calls : List (Verb × Host)) :
    savings c calls ≤ 1 ∧ ((lived c calls).stage? = some .pending → savings c calls = 0) := by
  induction calls with
  | nil => exact ⟨Nat.zero_le _, fun _ => rfl⟩
  | cons k calls ih =>
    obtain ⟨v, h⟩ := k
    have hstep := (ends (stage?_lived hc calls) v h).obeys.one_way
    simp only [savings, lived]
    generalize (v.run (lived c calls) h).2.1 = c' at hstep ⊢
    split
    · next hsaved =>
      -- what becomes enabled was pending, so nothing was saved before
      obtain ⟨hnot, hnow⟩ := hsaved
      have hp : (lived c calls).stage? = some .pending := by
        rcases hstep with hsame | ⟨-, hp, -⟩ | ⟨-, hen, -⟩
        · exact absurd (hsame.symm.trans hnow) hnot
        · exact hp
        · exact absurd hen hnot
      rw [ih.2 hp]
      exact ⟨Nat.le_refl _, fun hpending => by cases hnow.symm.trans hpending⟩
    · refine ⟨ih.1, fun hpending => ih.2 ?_⟩
      rcases hstep with hsame | ⟨-, hp, -⟩ | ⟨-, -, hre⟩
      · exact hsame.symm.trans hpending
      · exact hp
      · cases hre.symm.trans hpending

end Change

/-- The laws of a life. -/
structure Living.Lawful (l : Living Change Host) : Prop where
  /-- Every call obeys the laws of a call, on what the calls before it made of the change. -/
  calls : ∀ later v h earlier, l.calls = later ++ (v, h) :: earlier →
    let c := lived l.born earlier
    Change.Obeys h v c (v.run c h).1 (v.run c h).2.1 (v.run c h).2.2
  /-- No call takes the change back to a stage it has left. -/
  one_way : ∀ later earlier, l.calls = later ++ earlier →
    ∃ s s', (lived l.born earlier).stage? = some s ∧ l.now.stage? = some s' ∧ s.rank ≤ s'.rank
  saved_once : Change.savings l.born l.calls ≤ 1

theorem Living.lawful {l : Living Change Host} (hl : l.born.stage? ≠ none) : l.Lawful where
  calls _ v h earlier _ := (Change.ends (Change.stage?_lived hl earlier) v h).obeys
  one_way later earlier hsplit := by
    obtain ⟨s, hs⟩ := Option.ne_none_iff_exists'.mp (Change.stage?_lived hl earlier)
    obtain ⟨s', hs', hle⟩ := Change.rank_le_lived hs later
    refine ⟨s, s', hs, ?_, hle⟩
    rw [now, hsplit, lived_append]
    exact hs'
  saved_once := (Change.savings_le_one hl l.calls).1

/-- Whatever is done in a workshop, every saved file, absent file and package set there has been
lives by the laws, and keeping its life does not change what is done. -/
theorem lives_lawful (h : Host) (xs : List (Handling Change Host)) :
    let s := Workshop.run h (xs.map (Handling.map Living.newborn))
    s.map (·.now) = Workshop.run h xs ∧
      ∀ l ∈ s.changes, l.born.stage? ≠ none → l.Lawful :=
  ⟨Workshop.run_newborn h xs, fun _ _ hl => Living.lawful hl⟩

section

def takenOver (at_ : List (Location × Node)) : Host :=
  let directory := Sha256.ofText "/"
  { files := { tree := ⟨[(["b"], .directory), (["b", directory], .directory),
    (["b", directory, "a"], .file "one".toUTF8 false)] ++ at_⟩ } }

/-- The file is saved, cannot be restored where a directory is, is restored when that has gone, and
is pushed again. -/
def savedAndRetried : List (Handling Change Host) :=
  [.bring (.file noteFile), .push 0, .world (takenOver [(["a"], .directory)]), .pop,
    .world (takenOver []), .call .restore 0, .push 0]

def retriedWorkshop : Workshop (Living Change Host) Host :=
  Workshop.run { files := beforeSave } (savedAndRetried.map (Handling.map Living.newborn))

theorem retriedWorkshop_gone : retriedWorkshop.gone.map (fun l =>
      (l.born.stage?, l.now.stage?, l.calls.map (·.1), Change.savings l.born l.calls)) =
    [(some .pending, some .restored, [.enable, .restore, .restore, .enable], 1)] := by
  decide +kernel

/-- The one change of the workshop has been saved once and lives by the laws. -/
theorem lives_lawful_retried : ∃ l, retriedWorkshop.gone = [l] ∧ l.Lawful ∧
    l.now.stage? = some .restored ∧
    l.calls.map (·.1) = [.enable, .restore, .restore, .enable] ∧
    Change.savings l.born l.calls = 1 := by
  obtain ⟨l, hgone, hl⟩ := List.map_eq_singleton_iff.mp retriedWorkshop_gone
  simp only [Prod.mk.injEq] at hl
  obtain ⟨hborn, hnow, hcalls, hsaved⟩ := hl
  have hmem : l ∈ retriedWorkshop.changes := by
    rw [Workshop.changes, hgone]
    exact List.mem_append_right _ List.mem_cons_self
  have hlaws := (lives_lawful { files := beforeSave } savedAndRetried).2 l hmem (by simp [hborn])
  exact ⟨l, hgone, hlaws, hnow, hcalls, hsaved⟩

end

end Changeover
