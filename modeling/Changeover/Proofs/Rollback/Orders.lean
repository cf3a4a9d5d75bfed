import Changeover.Proofs.Rollback.Locks
import Changeover.Proofs.Run.Lasting
import Changeover.Proofs.Run.Skips

/-!
# Rollbacks whatever the order of the actions

Actions of one batch run in any order. They save files, and only the list of version locks is also
changed by one of them. So the order matters to no other file; and to the list only if the operator
has it saved as well, since that save takes the place of the copy. Saved before it is emptied, the
list is restored even then.
-/

namespace Changeover

/-- The one action was run at a time, and the other one at a later time. -/
def RanBefore (x y : String) (ms : List Moment) : Prop :=
  ∃ before after, ms = before ++ after ∧ runsOf x before ≠ [] ∧ runsOf y after ≠ []

theorem RanBefore.append {x y : String} {ms : List Moment} (h : RanBefore x y ms)
    (ns : List Moment) : RanBefore x y (ms ++ ns) := by
  obtain ⟨before, after, rfl, hx, hy⟩ := h
  refine ⟨before, after ++ ns, List.append_assoc .., hx, ?_⟩
  rw [runsOf_append]
  exact List.append_ne_nil_of_left_ne_nil hy _

theorem ranBefore_of_ran {x : String} {a : Action} {s : Session} {ms : List Moment}
    (h : runsOf x ms ≠ []) : RanBefore x a.id (ms ++ [.ran a s]) :=
  ⟨ms, [.ran a s], rfl, h, by simp [runsOf_ran]⟩

theorem Concluded.runs_length {settings : Settings} {prior : Levels} {raised : Bool}
    {stages : List Stage} {ms : List Moment} {e : RunEnd} {report : Report}
    (h : Concluded settings prior raised stages ms e report) (id : String) :
    (runsOf id ms).length ≤ 1 := by
  by_cases hid : id ∈ (workIn stages).map (·.2.id)
  · obtain ⟨w, hw, rfl⟩ := List.mem_map.mp hid
    obtain ⟨entry, -, hhandled⟩ := h.handled w hw
    cases hhandled with
    | interrupted _ _ hruns _ _ => simp [hruns]
    | skipped _ _ _ _ hruns _ _ => simp [hruns]
    | ran _ _ _ hruns _ _ _ _ => simp [hruns]
  · simp [h.strangers id hid]

theorem Lasting.of_condition {settings : Settings} {as : List Action} {I : Condition}
    (hI : I.Stable) (has : ∀ a ∈ as, Procedure.Leads I I (a.run settings)) :
    Lasting settings as fun _ s => I s.undo s.host where
  raise hs := hI.interrupt true hs
  marker hs := hI.marker hs
  turn _ hs := hs
  recorded _ hs := hs
  ran ha hs := (has _ ha).perform_action hI hs

/-! ### What the actions keep -/

/-- A condition that all actions before the point of no return keep but for two, those that save
configured files and clear the version locks. -/
structure Condition.KeptAnyway (I : Condition) (site : Site) : Prop where
  directories : ∀ u h, I u h →
    I u { h with files := (h.files.makeDirectories site.backupDirectory).2 }
  release : ∀ p ∈ releaseFiles, (site.path p).isAbsolute = true →
    I.KeptByPush (.file { path := site.path p, backupDirectory := site.backupDirectory })
  packages : I.KeptByPush (.packages site.vendorSet)

/-- A condition that saving configured files keeps. -/
structure Condition.KeptByConfigured (I : Condition) (site : Site) : Prop where
  file : ∀ p ∈ site.config.backupFiles, (site.path p).isAbsolute = true →
    I.KeptByPush (.file { path := site.path p, backupDirectory := site.backupDirectory })
  absent : ∀ p ∈ site.config.createdFiles, I.KeptByPush (.absent { path := site.path p })

section

variable {site : Site} {settings : Settings} {I : Condition} {a : Action}

variable (settings) in
theorem action_cases (h : a ∈ (stagesBefore site).flatMap (·.actions)) :
    a = saveConfiguredFiles site ∨ a = clearVersionLocks site ∨
      (a.id ≠ "CLEAR_VERSIONLOCK" ∧
        ∀ I : Condition, I.KeptAnyway site → Procedure.Leads I I (a.run settings)) := by
  simp only [stagesBefore, List.flatMap_cons, List.flatMap_nil, List.append_nil, List.cons_append,
    List.nil_append, List.mem_cons, List.not_mem_nil, or_false] at h
  rcases h with rfl | rfl | rfl | rfl | rfl | rfl | rfl
  · exact .inr (.inr ⟨by simp [MountCheck.toAction, MountCheck.mnt],
      fun I _ => Procedure.keeps_mountCheck _⟩)
  · exact .inr (.inr ⟨by simp [MountCheck.toAction, MountCheck.sys],
      fun I _ => Procedure.keeps_mountCheck _⟩)
  · exact .inr (.inr ⟨by simp [checkBackupDirectory],
      fun I hI => Procedure.keeps_checkBackupDirectory hI.directories⟩)
  · exact .inr (.inr ⟨by simp [saveReleaseFiles],
      fun I hI => Procedure.keeps_saveReleaseFiles hI.release⟩)
  · exact .inl rfl
  · exact .inr (.inl rfl)
  · exact .inr (.inr ⟨by simp [installVendorPackages],
      fun I hI => Procedure.keeps_installVendorPackages hI.packages⟩)

theorem Condition.KeptByConfigured.leads (hI : I.KeptByConfigured site) :
    Procedure.Leads I I ((saveConfiguredFiles site).run settings) :=
  Procedure.keeps_saveConfiguredFiles hI.file hI.absent

theorem Condition.KeptAnyway.leads (hany : I.KeptAnyway site)
    (hconfigured : I.KeptByConfigured site)
    (hclear : Procedure.Leads I I ((clearVersionLocks site).run settings))
    (ha : a ∈ (stagesBefore site).flatMap (·.actions)) : Procedure.Leads I I (a.run settings) := by
  rcases action_cases settings ha with rfl | rfl | ⟨-, hleads⟩
  · exact hconfigured.leads
  · exact hclear
  · exact hleads I hany

theorem Condition.lasting (hI : I.Stable) (hany : I.KeptAnyway site)
    (hconfigured : I.KeptByConfigured site)
    (hclear : Procedure.Leads I I ((clearVersionLocks site).run settings)) :
    Lasting settings ((stagesBefore site).flatMap (·.actions)) fun _ s => I s.undo s.host :=
  .of_condition hI fun _ ha => hany.leads hconfigured hclear ha

end

section

variable {site : Site} {settings : Settings} {d q : Location} {v : Option (ByteArray × Bool)}
  {paths : List Path}

theorem FilesFrom.stable : (FilesFrom paths).Stable := ⟨fun _ hu => hu, fun hu => hu⟩

theorem FilesFrom.keptAnyway (hpaths : site.releasePaths ⊆ paths) :
    (FilesFrom paths).KeptAnyway site where
  directories _ _ hu f hf := hu f hf
  release _ hp _ := push_file rfl (hpaths (List.mem_map_of_mem hp))
  packages := push_packages _

theorem FilesFrom.keptByConfigured (hpaths : site.namedPaths ⊆ paths) :
    (FilesFrom paths).KeptByConfigured site where
  file _ hp _ := push_file rfl (hpaths (List.mem_map_of_mem (List.mem_append_right _ hp)))
  absent _ _ := push_absent _

theorem FilesFrom.of_clearing {u u' : UndoStack Change} {h h' : Host}
    (hu : FilesFrom site.savedHostPaths u h) (hc : Procedure.Clearing site u h u' h') :
    FilesFrom site.savedHostPaths u' h' := by
  have hv : site.versionLocks ∈ site.savedHostPaths :=
    List.mem_map_of_mem (by simp [Site.savedPaths])
  have hkept := push_file (f := ⟨site.versionLocks, site.backupDirectory, none, .pending⟩) rfl hv
    u h hu
  cases hc with
  | idle => exact hu
  | saved _ hpush =>
    rw [hpush] at hkept
    exact hkept
  | emptied _ _ hpush _ =>
    rw [hpush] at hkept
    exact hkept

theorem Untouched.keptAnyway (hdigests : SavedFile.DigestsApart site.savedHostPaths)
    (hsite : site.Plain) (hmanager : site.manager.LeavesFiles) :
    (Untouched site d q v).KeptAnyway site where
  directories _ h hu :=
    (keptBySaves hdigests hsite).directories hu (h.files.makeDirectories_grows _)
  release p hp := (keptBySaves hdigests hsite).file p (site.mem_savedPaths_of_release hp)
  packages := push_packages hmanager rfl

theorem Untouched.keptByConfigured (hdigests : SavedFile.DigestsApart site.savedHostPaths)
    (hsite : site.Plain) : (Untouched site d q v).KeptByConfigured site where
  file p hp := (keptBySaves hdigests hsite).file p (site.mem_savedPaths_of_configured hp)
  absent := (keptBySaves hdigests hsite).absent

theorem Untouched.of_clearing (hdigests : SavedFile.DigestsApart site.savedHostPaths)
    (hq : q ≠ site.versionLocks.placeFrom d) {u u' : UndoStack Change} {h h' : Host}
    (hu : Untouched site d q v u h) (hc : Procedure.Clearing site u h u' h') :
    Untouched site d q v u' h' := by
  have hv : site.versionLocks ∈ site.savedHostPaths :=
    List.mem_map_of_mem (by simp [Site.savedPaths])
  cases hc with
  | idle => exact hu
  | saved ha hpush =>
    have hkept := push_file hdigests hv ha u h hu
    rw [hpush] at hkept
    exact hkept
  | emptied ha _ hpush hwrite =>
    have hkept := push_file hdigests hv ha u h hu
    rw [hpush] at hkept
    refine hkept.imp_right ?_
    rintro ⟨hsafe, hclosed⟩
    refine ⟨hsafe.write ?_ hwrite, FileSystem.closed_writeWith hwrite hclosed⟩
    rintro l hl rfl
    rcases hl.eq_or_taken hsafe.regular with heq | ⟨f, -, copy, hcopy, hplace⟩
    · exact hq heq.symm
    · exact Site.versionLocks_not_copy hcopy d hplace

variable {allowed : List Path}

theorem Owing.keptAnyway (hdigests : SavedFile.DigestsApart site.savedHostPaths)
    (hmanager : site.manager.LeavesFiles) (hallowed : site.releasePaths ⊆ allowed) :
    (Owing site d v allowed).KeptAnyway site where
  directories _ h hu := grows hu (h.files.makeDirectories_grows _)
  release _ hp := by
    have hmem := List.mem_map_of_mem (f := site.path) hp
    exact push_file hdigests (Site.namedPaths_subset (Site.releasePaths_subset hmem))
      (hallowed hmem)
  packages := push_packages hmanager rfl

theorem Owing.keptByConfigured (hdigests : SavedFile.DigestsApart site.savedHostPaths)
    (hsite : site.Plain) : (Owing site d v site.namedPaths).KeptByConfigured site where
  file p hp := by
    have hmem : site.path p ∈ site.namedPaths :=
      List.mem_map_of_mem (List.mem_append_right releaseFiles hp)
    exact push_file hdigests (Site.namedPaths_subset hmem) hmem
  absent _ hp := push_absent (hsite.created_path hp).1 (hsite.created_path hp).2

end

/-! ### The list of version locks -/

/-- How things stand with the list of version locks. -/
inductive LocksPhase (site : Site) (d : Location) (v : Option (ByteArray × Bool))
    (ms : List Moment) (s : Session) : Prop
  | before : runsOf "CLEAR_VERSIONLOCK" ms = [] →
    Untouched site d (site.versionLocks.placeFrom d) v s.undo s.host →
    FilesFrom site.namedPaths s.undo s.host → LocksPhase site d v ms s
  | spared : runsOf "CLEAR_VERSIONLOCK" ms ≠ [] →
    Untouched site d (site.versionLocks.placeFrom d) v s.undo s.host → LocksPhase site d v ms s
  | owing : runsOf "CLEAR_VERSIONLOCK" ms ≠ [] →
    Owing site d v site.releasePaths s.undo s.host → LocksPhase site d v ms s
  /-- Configured files were saved while the list was empty. -/
  | late : RanBefore "CLEAR_VERSIONLOCK" "BACKUP_CONFIGURED_FILES" ms →
    runsOf "CLEAR_VERSIONLOCK" ms ≠ [] → Owing site d v site.namedPaths s.undo s.host →
    LocksPhase site d v ms s
  | again : 1 < (runsOf "CLEAR_VERSIONLOCK" ms).length → LocksPhase site d v ms s

namespace LocksPhase

variable {site : Site} {settings : Settings} {d : Location} {v : Option (ByteArray × Bool)}
  {ms : List Moment} {s s' : Session}

/-- What keeps every stable condition keeps how things stand. -/
theorem carry (h : LocksPhase site d v ms s)
    (hs : ∀ I : Condition, I.Stable → I s.undo s.host → I s'.undo s'.host) :
    LocksPhase site d v ms s' := by
  cases h with
  | before hnone hu hf =>
    exact .before hnone (hs _ Untouched.stable hu) (hs _ FilesFrom.stable hf)
  | spared hsome hu => exact .spared hsome (hs _ Untouched.stable hu)
  | owing hsome hu => exact .owing hsome (hs _ Owing.stable hu)
  | late horder hsome hu => exact .late horder hsome (hs _ Owing.stable hu)
  | again htwice => exact .again htwice

theorem move {m : Moment} (h : LocksPhase site d v ms s)
    (hruns : runsOf "CLEAR_VERSIONLOCK" [m] = [])
    (hlist : Untouched site d (site.versionLocks.placeFrom d) v s.undo s.host →
      Untouched site d (site.versionLocks.placeFrom d) v s'.undo s'.host)
    (hnamed : FilesFrom site.namedPaths s.undo s.host → FilesFrom site.namedPaths s'.undo s'.host)
    (howing : runsOf "CLEAR_VERSIONLOCK" ms ≠ [] →
      Owing site d v site.releasePaths s.undo s.host →
      Owing site d v site.releasePaths s'.undo s'.host ∨
        RanBefore "CLEAR_VERSIONLOCK" "BACKUP_CONFIGURED_FILES" (ms ++ [m]) ∧
          Owing site d v site.namedPaths s'.undo s'.host)
    (hlate : Owing site d v site.namedPaths s.undo s.host →
      Owing site d v site.namedPaths s'.undo s'.host) : LocksPhase site d v (ms ++ [m]) s' := by
  have hsame : runsOf "CLEAR_VERSIONLOCK" (ms ++ [m]) = runsOf "CLEAR_VERSIONLOCK" ms := by
    rw [runsOf_append, hruns, List.append_nil]
  cases h with
  | before hnone hu hf => exact .before (hsame.trans hnone) (hlist hu) (hnamed hf)
  | spared hsome hu => exact .spared (hsame ▸ hsome) (hlist hu)
  | owing hsome hu =>
    rcases howing hsome hu with hu | ⟨horder, hu⟩
    · exact .owing (hsame ▸ hsome) hu
    · exact .late horder (hsame ▸ hsome) hu
  | late horder hsome hu => exact .late (horder.append _) (hsame ▸ hsome) (hlate hu)
  | again htwice => exact .again (hsame ▸ htwice)

theorem clear (hdigests : SavedFile.DigestsApart site.savedHostPaths)
    (h : LocksPhase site d v ms s) : LocksPhase site d v (ms ++ [.ran (clearVersionLocks site) s])
      (perform settings (clearVersionLocks site) s).2 := by
  have hruns : runsOf "CLEAR_VERSIONLOCK" (ms ++ [.ran (clearVersionLocks site) s]) =
      runsOf "CLEAR_VERSIONLOCK" ms ++ [s] := by
    rw [runsOf_append, runsOf_ran]
    rfl
  have hsome : runsOf "CLEAR_VERSIONLOCK" (ms ++ [.ran (clearVersionLocks site) s]) ≠ [] := by
    simp [hruns]
  have htwice (hbefore : runsOf "CLEAR_VERSIONLOCK" ms ≠ []) :
      1 < (runsOf "CLEAR_VERSIONLOCK" (ms ++ [.ran (clearVersionLocks site) s])).length := by
    have hpos := List.length_pos_iff.mpr hbefore
    rw [hruns, List.length_append, List.length_singleton]
    omega
  cases h with
  | before _ hu hf =>
    have hv : site.versionLocks ∈ site.savedHostPaths :=
      List.mem_map_of_mem (by simp [Site.savedPaths])
    have hclearing := Procedure.clearing site settings { host := s.host, undo := s.undo }
    rw [perform]
    simp only
    generalize ((clearVersionLocks site).run settings).perform
      { host := s.host, undo := s.undo } = done at hclearing ⊢
    obtain ⟨r, w⟩ := done
    obtain ⟨host, undo, tracker⟩ := w
    simp only at hclearing ⊢
    cases hclearing with
    | idle => exact .spared hsome (Untouched.stable.interrupt _ hu)
    | saved ha hpush =>
      have hkept := Untouched.push_file hdigests hv ha s.undo s.host hu
      rw [hpush] at hkept
      exact .spared hsome (Untouched.stable.interrupt _ hkept)
    | emptied ha hfile hpush hwrite =>
      exact .owing hsome (Owing.stable.interrupt _
        (Owing.start hdigests hu hf ha hfile hpush hwrite))
  | spared hbefore _ => exact .again (htwice hbefore)
  | owing hbefore _ => exact .again (htwice hbefore)
  | late _ hbefore _ => exact .again (htwice hbefore)
  | again hmany =>
    refine .again ?_
    rw [hruns, List.length_append]
    omega

theorem lasting (hdigests : SavedFile.DigestsApart site.savedHostPaths) (hsite : site.Plain)
    (hmanager : site.manager.LeavesFiles) :
    Lasting settings ((stagesBefore site).flatMap (·.actions)) (LocksPhase site d v) where
  raise h := h.move rfl (Untouched.stable.interrupt _) id
    (fun _ hu => .inl (Owing.stable.interrupt _ hu)) (Owing.stable.interrupt _)
  marker h := h.carry fun _ hI => hI.marker
  turn _ h := h.move rfl id id (fun _ => .inl) id
  recorded _ h := h.move rfl id id (fun _ => .inl) id
  ran {ms s a} ha h := by
    have hlist : (Untouched site d (site.versionLocks.placeFrom d) v).KeptAnyway site :=
      Untouched.keptAnyway hdigests hsite hmanager
    have hnamed : (FilesFrom site.namedPaths).KeptAnyway site :=
      FilesFrom.keptAnyway Site.releasePaths_subset
    have howing {allowed : List Path} (hallowed : site.releasePaths ⊆ allowed) :
        (Owing site d v allowed).KeptAnyway site :=
      Owing.keptAnyway hdigests hmanager hallowed
    rcases action_cases settings ha with rfl | rfl | ⟨hid, hleads⟩
    · -- a configured path may lead to the list, so that its copy is replaced
      have hlate : Procedure.Leads (Owing site d v site.namedPaths)
          (Owing site d v site.namedPaths) ((saveConfiguredFiles site).run settings) :=
        (Owing.keptByConfigured hdigests hsite).leads
      refine h.move rfl
        ((Untouched.keptByConfigured hdigests hsite).leads.perform_action Untouched.stable)
        ((FilesFrom.keptByConfigured (List.Subset.refl _)).leads.perform_action FilesFrom.stable)
        (fun hbefore hu => .inr ⟨ranBefore_of_ran hbefore, ?_⟩)
        (hlate.perform_action Owing.stable)
      exact hlate.perform_action Owing.stable (hu.mono Site.releasePaths_subset)
    · exact h.clear hdigests
    · refine h.move ?_ ((hleads _ hlist).perform_action Untouched.stable)
        ((hleads _ hnamed).perform_action FilesFrom.stable)
        (fun _ hu => .inl ((hleads _ (howing (List.Subset.refl _))).perform_action
          Owing.stable hu))
        ((hleads _ (howing Site.releasePaths_subset)).perform_action Owing.stable)
      rw [runsOf_ran, if_neg hid]
      rfl

/-- In the end the list is restored, unless it was saved once more while it was empty. -/
theorem rollback (hdigests : SavedFile.DigestsApart site.savedHostPaths)
    (h : LocksPhase site d v ms s) (honce : (runsOf "CLEAR_VERSIONLOCK" ms).length ≤ 1) :
    Safe d site.backupDirectory site.savedHostPaths (site.versionLocks.placeFrom d) v []
      (s.undo.popAll s.host).2.2.files ∨
    site.NamesLocks d ∧ RanBefore "CLEAR_VERSIONLOCK" "BACKUP_CONFIGURED_FILES" ms := by
  have hfree : ¬ Taken d site.backupDirectory (site.versionLocks.placeFrom d) s.undo.changes := by
    rintro ⟨f, -, copy, hcopy, hplace⟩
    exact Site.versionLocks_not_copy hcopy d hplace
  cases h with
  | before _ hu _ => exact .inl (Recoverable.rollback hdigests (.inl hu) hfree)
  | spared _ hu => exact .inl (Recoverable.rollback hdigests (.inl hu) hfree)
  | owing _ hu => exact .inl (hu.rollback hdigests (.inl (List.Subset.refl _)))
  | late horder _ hu =>
    by_cases hnames : site.NamesLocks d
    · exact .inr ⟨hnames, horder⟩
    · exact .inl (hu.rollback hdigests (.inr ⟨List.Subset.refl _, hnames⟩))
  | again htwice => omega

end LocksPhase

end Changeover
