import Changeover.Change

/-!
# What a rollback removes

The packages that are going to be removed are those that changes on the stack have installed. If the
manager tells the truth about what it installed, the others are the packages that were there before
anything was pushed, and this stays so whether changes are pushed or undone.
-/

namespace Changeover

theorem Ledger.mem_add {l : Ledger} {ps : List String} {p : String} :
    p ∈ (l.add ps).installed ↔ p ∈ l.installed ∨ p ∈ ps := by
  unfold Ledger.add
  simp only
  generalize l.installed = before
  induction ps generalizing before with
  | nil => simp
  | cons q ps ih =>
    rw [List.foldl_cons, ih, List.mem_cons]
    by_cases hq : q ∈ before
    · rw [if_pos (by simpa using hq)]
      have hsame : p = q → p ∈ before := fun h => h ▸ hq
      rw [← or_assoc, or_iff_left_of_imp hsame]
    · rw [if_neg (by simpa using hq), List.mem_append, List.mem_singleton, or_assoc]

theorem Ledger.mem_drop {l : Ledger} {ps : List String} {p : String} :
    p ∈ (l.drop ps).installed ↔ p ∈ l.installed ∧ p ∉ ps := by
  simp [Ledger.drop]

namespace PackageManager

/-- The manager works on its packages and lets the files of the host alone. -/
structure LeavesFiles (m : PackageManager) : Prop where
  isInstalled : ∀ p h, (m.isInstalled p h).2.files = h.files
  install : ∀ ps r h, (m.install ps r h).2.files = h.files
  remove : ∀ ps h, (m.remove ps h).2.files = h.files

/-- Calls that fail change nothing, an installation names exactly what it added, and packages can
always be removed. -/
structure Orderly (m : PackageManager) : Prop where
  query : ∀ q h p, p ∈ (m.isInstalled q h).2.packages.installed ↔ p ∈ h.packages.installed
  refused : ∀ ps r h e, (m.install ps r h).1 = .error e → ∀ p,
    p ∈ (m.install ps r h).2.packages.installed ↔ p ∈ h.packages.installed
  installed : ∀ ps r h names, (m.install ps r h).1 = .ok names → ∀ p,
    (p ∈ names → p ∉ h.packages.installed) ∧
      (p ∈ (m.install ps r h).2.packages.installed ↔ p ∈ h.packages.installed ∨ p ∈ names)
  removed : ∀ ps h, (m.remove ps h).1 = .ok () ∧ ∀ p,
    p ∈ (m.remove ps h).2.packages.installed ↔ p ∈ h.packages.installed ∧ p ∉ ps

/-- A manager that installs what is missing and says so, and that nothing stops. -/
def prompt : PackageManager where
  isInstalled p h := (.ok (h.packages.installed.contains p), h)
  install ps _ h :=
    let missing := ps.filter (!h.packages.installed.contains ·)
    (.ok missing, { h with packages := h.packages.add missing })
  remove ps h := (.ok (), { h with packages := h.packages.drop ps })

theorem prompt_leavesFiles : prompt.LeavesFiles :=
  ⟨fun _ _ => rfl, fun _ _ _ => rfl, fun _ _ => rfl⟩

theorem prompt_orderly : prompt.Orderly := by
  refine ⟨fun _ _ _ => Iff.rfl, ?_, ?_, ?_⟩
  · intro ps r h e he
    cases he
  · intro ps r h names hn p
    cases hn
    refine ⟨?_, Ledger.mem_add⟩
    intro hp
    simpa using (List.mem_filter.mp hp).2
  · intro ps h
    exact ⟨rfl, fun _ => Ledger.mem_drop⟩

end PackageManager

namespace PackageSet

/-- How installing a set that was not installed before can end. -/
inductive Enabling (s : PackageSet) (h : Host) : Except Fault Unit → PackageSet → Host → Prop
  | unanswered {e : Fault} {h' : Host} : wanted s.manager s.packages h = (.error e, h') →
    Enabling s h (.error e) s h'
  | present {h' : Host} : wanted s.manager s.packages h = (.ok [], h') →
    Enabling s h (.ok ()) { s with state := .enabled } h'
  | refused {ps : List String} {e : Fault} {h' h'' : Host} :
    wanted s.manager s.packages h = (.ok ps, h') →
    s.manager.install ps s.repositories h' = (.error e, h'') → Enabling s h (.error e) s h''
  | installed {ps names : List String} {h' h'' : Host} :
    wanted s.manager s.packages h = (.ok ps, h') →
    s.manager.install ps s.repositories h' = (.ok names, h'') →
    Enabling s h (.ok ()) { s with installed := names, state := .enabled } h''

theorem enabling {s : PackageSet} (hs : s.state = .pending) (h : Host) :
    Enabling s h (s.enable h).1 (s.enable h).2.1 (s.enable h).2.2 := by
  unfold enable
  rw [hs]
  simp only
  split
  · rename_i hw
    exact .unanswered hw
  · rename_i hw
    exact .present hw
  · rename_i hw
    split
    · rename_i hi
      exact .refused hw hi
    · rename_i hi
      exact .installed hw hi

inductive Restoring (s : PackageSet) (h : Host) : Except Fault Unit → PackageSet → Host → Prop
  | idle : s.state ≠ .enabled → Restoring s h (.ok ()) s h
  | nothing : s.state = .enabled → s.installed = [] →
    Restoring s h (.ok ()) { s with state := .restored } h
  | refused {e : Fault} {h' : Host} : s.state = .enabled →
    s.manager.remove s.installed h = (.error e, h') → Restoring s h (.error e) s h'
  | removed {h' : Host} : s.state = .enabled → s.manager.remove s.installed h = (.ok (), h') →
    Restoring s h (.ok ()) { s with installed := [], state := .restored } h'

theorem restoring (s : PackageSet) (h : Host) :
    Restoring s h (s.restore h).1 (s.restore h).2.1 (s.restore h).2.2 := by
  unfold restore
  split
  · rename_i hs
    exact .idle hs
  · rename_i hs
    have he : s.state = .enabled := Decidable.not_not.mp hs
    split
    · rename_i hnil
      exact .nothing he (by simpa using hnil)
    · split
      · rename_i hr
        exact .refused he hr
      · rename_i hr
        exact .removed he hr

/-! ### Files -/

section

variable {m : PackageManager} {s s' : PackageSet} {h h' : Host} {r : Except Fault Unit}

theorem wanted_keeps {P : Host → Prop} (hm : ∀ p h, P h → P (m.isInstalled p h).2)
    (ps : List String) (h : Host) (hp : P h) : P (wanted m ps h).2 := by
  induction ps generalizing h with
  | nil => exact hp
  | cons p ps ih =>
    have hfirst := hm p h hp
    unfold wanted
    rcases hq : m.isInstalled p h with ⟨_ | there, h'⟩
    · rw [hq] at hfirst
      exact hfirst
    · rw [hq] at hfirst
      have hrest := ih h' hfirst
      rcases hw : wanted m ps h' with ⟨_ | rest, h''⟩
      · rw [hw] at hrest
        simpa only [hw] using hrest
      · rw [hw] at hrest
        simpa only [hw] using hrest

theorem Enabling.manager (he : Enabling s h r s' h') : s'.manager = s.manager := by
  cases he with
  | unanswered _ => rfl
  | present _ => rfl
  | refused _ _ => rfl
  | installed _ _ => rfl

theorem Enabling.files (he : Enabling s h r s' h') (hm : s.manager.LeavesFiles) :
    h'.files = h.files ∧ s'.manager = s.manager := by
  have hwanted := wanted_keeps (P := fun w => w.files = h.files)
    (fun p w hw => (hm.isInstalled p w).trans hw) s.packages h rfl
  cases he with
  | unanswered hw =>
    rw [hw] at hwanted
    exact ⟨hwanted, rfl⟩
  | present hw =>
    rw [hw] at hwanted
    exact ⟨hwanted, rfl⟩
  | @refused ps _ h₁ _ hw hi =>
    have hinstall := hm.install ps s.repositories h₁
    rw [hw] at hwanted
    rw [hi] at hinstall
    exact ⟨hinstall.trans hwanted, rfl⟩
  | @installed ps _ h₁ _ hw hi =>
    have hinstall := hm.install ps s.repositories h₁
    rw [hw] at hwanted
    rw [hi] at hinstall
    exact ⟨hinstall.trans hwanted, rfl⟩

theorem Restoring.files (hr : Restoring s h r s' h') (hm : s.manager.LeavesFiles) :
    h'.files = h.files := by
  have hremove := hm.remove s.installed h
  cases hr with
  | idle _ => rfl
  | nothing _ _ => rfl
  | refused _ hr =>
    rw [hr] at hremove
    exact hremove
  | removed _ hr =>
    rw [hr] at hremove
    exact hremove

end

end PackageSet

/-! ### Packages -/

/-- What came of enabling a set on `h`: the packages that were added are those that the set says it
has installed, and if it failed none were added. -/
inductive PackageSet.Attributed (h : Host) : Except Fault Unit → PackageSet → Host → Prop
  | failed {e : Fault} {s' : PackageSet} {h' : Host} :
    (∀ p, p ∈ h'.packages.installed ↔ p ∈ h.packages.installed) → Attributed h (.error e) s' h'
  | done {s' : PackageSet} {h' : Host} : s'.state = .enabled →
    (∀ p ∈ s'.installed, p ∉ h.packages.installed) →
    (∀ p, p ∈ h'.packages.installed ↔ p ∈ h.packages.installed ∨ p ∈ s'.installed) →
    Attributed h (.ok ()) s' h'

/-- Queries and failures must change nothing, and the manager must name what was added when it
installs what the queries found missing. -/
theorem PackageSet.Enabling.attributed {s s' : PackageSet} {h h' : Host} {r : Except Fault Unit}
    (he : Enabling s h r s' h') (hnew : s.installed = [])
    (hquery : ∀ q w p, p ∈ (s.manager.isInstalled q w).2.packages.installed ↔
      p ∈ w.packages.installed)
    (hrefused : ∀ ps w e, (s.manager.install ps s.repositories w).1 = .error e → ∀ p,
      p ∈ (s.manager.install ps s.repositories w).2.packages.installed ↔ p ∈ w.packages.installed)
    (hadded : ∀ ps names w w', wanted s.manager s.packages h = (.ok ps, w) →
      s.manager.install ps s.repositories w = (.ok names, w') → ∀ p,
        (p ∈ names → p ∉ w.packages.installed) ∧
          (p ∈ w'.packages.installed ↔ p ∈ w.packages.installed ∨ p ∈ names)) :
    Attributed h r s' h' := by
  have hwanted (p : String) : p ∈ (wanted s.manager s.packages h).2.packages.installed ↔
      p ∈ h.packages.installed :=
    wanted_keeps (P := fun w => p ∈ w.packages.installed ↔ p ∈ h.packages.installed)
      (fun q w hw => (hquery q w p).trans hw) s.packages h Iff.rfl
  cases he with
  | unanswered hw =>
    rw [hw] at hwanted
    exact .failed hwanted
  | present hw =>
    rw [hw] at hwanted
    refine .done rfl ?_ ?_
    · simp [hnew]
    · simpa [hnew] using hwanted
  | @refused ps e h₁ _ hw hi =>
    rw [hw] at hwanted
    have hsame := hrefused ps h₁ e (by rw [hi])
    rw [hi] at hsame
    exact .failed fun p => (hsame p).trans (hwanted p)
  | @installed ps names h₁ _ hw hi =>
    have hinstalled := hadded ps names h₁ _ hw hi
    rw [hw] at hwanted
    refine .done rfl ?_ ?_
    · intro p hp
      rw [← hwanted]
      exact (hinstalled p).1 hp
    · intro p
      rw [← hwanted]
      exact (hinstalled p).2

theorem PackageManager.Orderly.attributed {s : PackageSet} (hm : s.manager.Orderly)
    (hstate : s.state = .pending) (hnew : s.installed = []) (h : Host) :
    PackageSet.Attributed h (s.enable h).1 (s.enable h).2.1 (s.enable h).2.2 := by
  refine (PackageSet.enabling hstate h).attributed hnew hm.query ?_ ?_
  · intro ps w e
    exact hm.refused ps s.repositories w e
  · intro ps names w w' _ hi
    have hinstalled := hm.installed ps s.repositories w names (by rw [hi])
    rwa [hi] at hinstalled

/-- Whether undoing the changes removes the package. -/
def RemovedBy (cs : List Change) (p : String) : Prop :=
  ∃ s, .packages s ∈ cs ∧ s.state = .enabled ∧ p ∈ s.installed

/-- What no change on the stack has installed are the packages of `present`. -/
structure Stocked (m : PackageManager) (present : String → Prop) (cs : List Change) (h : Host) :
    Prop where
  managed : ∀ s, .packages s ∈ cs → s.manager = m
  kept : ∀ p, p ∈ h.packages.installed ∧ ¬ RemovedBy cs p ↔ present p

theorem removedBy_cons {s : PackageSet} {cs : List Change} {p : String} :
    RemovedBy (.packages s :: cs) p ↔ (s.state = .enabled ∧ p ∈ s.installed) ∨ RemovedBy cs p := by
  simp [RemovedBy, or_and_right, exists_or]

theorem removedBy_cons_of_ne {c : Change} (hc : ∀ s, c ≠ .packages s) {cs : List Change}
    {p : String} : RemovedBy (c :: cs) p ↔ RemovedBy cs p := by
  have hne : ∀ s, Change.packages s ≠ c := fun s hs => hc s hs.symm
  simp [RemovedBy, hne]

namespace Stocked

variable {m : PackageManager} {present : String → Prop} {c : Change} {cs : List Change}
  {h h' : Host}

theorem nil (m : PackageManager) (h : Host) : Stocked m (· ∈ h.packages.installed) [] h :=
  ⟨by simp, by simp [RemovedBy]⟩

theorem congr (hs : Stocked m present cs h)
    (hp : ∀ p, p ∈ h'.packages.installed ↔ p ∈ h.packages.installed) :
    Stocked m present cs h' := by
  refine ⟨hs.managed, fun p => ?_⟩
  rw [hp]
  exact hs.kept p

theorem cons_of_ne (hc : ∀ s, c ≠ .packages s) :
    Stocked m present (c :: cs) h ↔ Stocked m present cs h := by
  constructor
  · intro hs
    refine ⟨fun s hm => hs.managed s (List.mem_cons_of_mem c hm), fun p => ?_⟩
    rw [← removedBy_cons_of_ne hc]
    exact hs.kept p
  · intro hs
    refine ⟨fun s hm => ?_, fun p => ?_⟩
    · rcases List.mem_cons.mp hm with hsc | hm
      · exact absurd hsc.symm (hc s)
      · exact hs.managed s hm
    · rw [removedBy_cons_of_ne hc]
      exact hs.kept p

theorem restore_of_ok (hremove : ∀ ps w, (m.remove ps w).1 = .ok () → ∀ p,
      p ∈ (m.remove ps w).2.packages.installed ↔ p ∈ w.packages.installed ∧ p ∉ ps)
    (hs : Stocked m present (c :: cs) h) (hok : ∀ s, c = .packages s → (s.restore h).1 = .ok ()) :
    Stocked m present cs (Reversible.restore c h).2.2 := by
  cases c with
  | file f =>
    rw [cons_of_ne (by simp)] at hs
    exact hs.congr fun _ => Iff.rfl
  | absent f =>
    rw [cons_of_ne (by simp)] at hs
    exact hs.congr fun _ => Iff.rfl
  | rehearsed c =>
    rw [cons_of_ne (by simp)] at hs
    obtain ⟨journal, hworld⟩ := Change.restore_rehearsed c h
    rw [hworld]
    exact hs.congr fun _ => Iff.rfl
  | packages s =>
    obtain rfl := hs.managed s List.mem_cons_self
    refine ⟨fun s' hs' => hs.managed s' (List.mem_cons_of_mem _ hs'), fun p => ?_⟩
    have hkept := hs.kept p
    rw [removedBy_cons] at hkept
    have hremoved := hremove s.installed h
    have hends := PackageSet.restoring s h
    have hdone := hok s rfl
    change p ∈ (s.restore h).2.2.packages.installed ∧ _ ↔ _
    rcases hr : s.restore h with ⟨r, s', h'⟩
    rw [hr] at hends hdone
    cases hends with
    | idle hidle => simpa [hidle] using hkept
    | nothing _ hnil => simpa [hnil] using hkept
    | refused _ _ => cases hdone
    | removed he hcall =>
      rw [hcall] at hremoved
      rw [hremoved rfl, ← hkept]
      simp [he, and_assoc]

theorem restore (hm : m.Orderly) (hs : Stocked m present (c :: cs) h) :
    Stocked m present cs (Reversible.restore c h).2.2 := by
  refine hs.restore_of_ok (fun ps w _ => (hm.removed ps w).2) ?_
  rintro s rfl
  obtain rfl := hs.managed s List.mem_cons_self
  have hok := (hm.removed s.installed h).1
  have hends := PackageSet.restoring s h
  rcases hr : s.restore h with ⟨r, s', h'⟩
  rw [hr] at hends
  cases hends with
  | idle _ => rfl
  | nothing _ _ => rfl
  | refused _ hfail =>
    rw [hfail] at hok
    cases hok
  | removed _ _ => rfl

theorem push_attributed {u : UndoStack Change} {s : PackageSet}
    (hs : Stocked m present u.changes h) (hmanager : s.manager = m) (hstate : s.state = .pending)
    (ha : PackageSet.Attributed h (s.enable h).1 (s.enable h).2.1 (s.enable h).2.2) :
    Stocked m present (u.push (.packages s) h).2.1.changes (u.push (.packages s) h).2.2 := by
  subst hmanager
  have hmanaged := (PackageSet.enabling hstate h).manager
  rcases he : s.enable h with ⟨r, s', h'⟩
  rw [he] at ha hmanaged
  change PackageSet.Attributed h r s' h' at ha
  have henable := Change.enable_packages he
  cases ha with
  | failed hsame =>
    rw [UndoStack.push_of_error henable]
    exact hs.congr hsame
  | done henabled hapart hadded =>
    rw [UndoStack.push_of_ok henable]
    refine ⟨?_, fun p => ?_⟩
    · intro t ht
      rcases List.mem_cons.mp ht with hst | ht
      · cases hst
        exact hmanaged
      · exact hs.managed t ht
    · have hkept := hs.kept p
      change _ ∧ ¬ RemovedBy (.packages s' :: u.changes) p ↔ _
      rw [removedBy_cons, hadded, ← hkept]
      simp only [henabled, true_and, not_or]
      constructor
      · rintro ⟨hin, hnot, hrest⟩
        exact ⟨hin.resolve_right hnot, hrest⟩
      · rintro ⟨hin, hrest⟩
        exact ⟨Or.inl hin, fun hp => hapart p hp hin, hrest⟩

theorem push {u : UndoStack Change} {s : PackageSet} (hm : m.Orderly)
    (hs : Stocked m present u.changes h) (hmanager : s.manager = m) (hstate : s.state = .pending)
    (hnew : s.installed = []) : Stocked m present (u.push (.packages s) h).2.1.changes
      (u.push (.packages s) h).2.2 := by
  subst hmanager
  exact hs.push_attributed rfl hstate (hm.attributed hstate hnew h)

end Stocked

end Changeover
