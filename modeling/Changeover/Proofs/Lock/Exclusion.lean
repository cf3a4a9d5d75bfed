import Changeover.Proofs.Lock.File

/-!
# Who holds the lock

Any number of processes acquire the lock, give back values of it and drop them, one step at a time.
A process may have several values, but there is one file for all of them, and it is gone with the
first one that is given back. So the lock keeps others out for as long as no process gives back a
value while it holds another.
-/

namespace Changeover

/-- What an acquisition has returned. A value that was given back is still there to be dropped. -/
structure LockValue where
  lock : PidLock
  held : Bool := true
  deriving DecidableEq

/-- All values that there are, of whatever process, and the files. -/
structure LockSystem where
  files : FileSystem := {}
  values : List LockValue := []

inductive LockStep where
  | acquire (pid : UInt32)
  | release (value : Nat)
  | drop (value : Nat)

namespace LockStep

def value? : LockStep → Option Nat
  | acquire _ => none
  | release i => some i
  | drop i => some i

end LockStep

namespace LockSystem

/-- Processes that hold the lock, once for each value. -/
def holders (vs : List LockValue) : List Nat := (vs.filter (·.held)).map (·.lock.pid)

def Exclusive (s : LockSystem) : Prop :=
  ∀ p ∈ holders s.values, ∀ q ∈ holders s.values, p = q

instance (s : LockSystem) : Decidable s.Exclusive :=
  inferInstanceAs (Decidable (∀ p ∈ holders s.values, ∀ q ∈ holders s.values, p = q))

section

variable (directory : Path) (name : String)

/-- Dropping a value gives it back. -/
def step (s : LockSystem) : LockStep → LockSystem
  | .acquire pid =>
    match PidLock.acquire s.files directory name pid.toNat with
    | (.error _, files) => { s with files }
    | (.ok lock, files) => ⟨files, s.values ++ [{ lock }]⟩
  | .release i =>
    match s.values[i]? with
    | none => s
    | some v => ⟨(v.lock.release s.files).2, s.values.set i { v with held := false }⟩
  | .drop i =>
    match s.values[i]? with
    | none => s
    | some v => ⟨(v.lock.release s.files).2, s.values.eraseIdx i⟩

def run (s : LockSystem) (steps : List LockStep) : LockSystem := steps.foldl (step directory name) s

/-- A value is given back whose process holds another one. -/
def Careless (s : LockSystem) (op : LockStep) : Prop :=
  ∃ i ∈ op.value?, ∃ v ∈ s.values[i]?, v.lock.pid ∈ holders (s.values.eraseIdx i)

instance (s : LockSystem) (op : LockStep) : Decidable (s.Careless op) :=
  inferInstanceAs (Decidable (∃ i ∈ op.value?, ∃ v ∈ s.values[i]?,
    v.lock.pid ∈ holders (s.values.eraseIdx i)))

def Careful : LockSystem → List LockStep → Prop
  | _, [] => True
  | s, op :: ops => ¬ s.Careless op ∧ Careful (s.step directory name op) ops

instance decidableCareful : (s : LockSystem) → (ops : List LockStep) →
    Decidable (Careful directory name s ops)
  | _, [] => isTrue trivial
  | s, op :: ops =>
    have := decidableCareful (s.step directory name op) ops
    inferInstanceAs (Decidable (¬ s.Careless op ∧ Careful directory name (s.step directory name op) ops))

/-- Nothing has ever been acquired, or the lock file is the one of all values. -/
inductive Sound (s : LockSystem) : Prop
  | unopened : s.values = [] →
    s.files.tree.file? (s.files.place (PidLock.filePath directory name)) = none → Sound s
  | opened {holder : Option Nat} : PidLock.Ready directory name s.files holder →
    (∀ v ∈ s.values, v.lock.path = PidLock.filePath directory name) → Sound s

/-- The lock file names the process of every value that is held. -/
def Guarded (s : LockSystem) : Prop :=
  ∀ p ∈ holders s.values,
    PidLock.readPid s.files (PidLock.filePath directory name) = .ok (some p)

end

/-! ### Holders -/

theorem mem_holders {vs : List LockValue} {p : Nat} :
    p ∈ holders vs ↔ ∃ v ∈ vs, v.held = true ∧ v.lock.pid = p := by
  simp [holders, and_assoc]

theorem holders_append (vs ws : List LockValue) :
    holders (vs ++ ws) = holders vs ++ holders ws := by
  simp [holders]

theorem holders_set (vs : List LockValue) (i : Nat) {v : LockValue} (hv : v.held = false) :
    holders (vs.set i v) = holders (vs.eraseIdx i) := by
  induction vs generalizing i with
  | nil => rfl
  | cons w vs ih =>
    cases i with
    | zero => simp [holders, hv]
    | succ i =>
      have hsame := ih i
      unfold holders at hsame ⊢
      rw [List.set_cons_succ, List.eraseIdx_cons_succ]
      by_cases hw : w.held = true
      · simp [hw, hsame]
      · simp [hw, hsame]

theorem mem_holders_of_eraseIdx {vs : List LockValue} {i p : Nat}
    (h : p ∈ holders (vs.eraseIdx i)) : p ∈ holders vs := by
  obtain ⟨v, hv, hheld, hp⟩ := mem_holders.mp h
  exact mem_holders.mpr ⟨v, List.mem_of_mem_eraseIdx hv, hheld, hp⟩

/-! ### Steps -/

section

variable {directory : Path} {name : String} {s s' : LockSystem} {op : LockStep} {i : Nat}
  {v : LockValue}

/-- What an acquisition comes to. -/
inductive Acquires (directory : Path) (name : String) (s : LockSystem) (pid : Nat) :
    LockSystem → Prop
  | missed {s' : LockSystem} : s.values = [] → s'.values = [] → Sound directory name s' →
    Acquires directory name s pid s'
  | refused {holder : Nat} : PidLock.Ready directory name s.files (some holder) → holder ≠ pid →
    Acquires directory name s pid s
  | taken {files : FileSystem} :
    (∀ p, PidLock.readPid s.files (PidLock.filePath directory name) = .ok (some p) → p = pid) →
    PidLock.Ready directory name files (some pid) →
    (∀ v ∈ s.values, v.lock.path = PidLock.filePath directory name) →
    Acquires directory name s pid
      ⟨files, s.values ++ [{ lock := ⟨PidLock.filePath directory name, pid⟩ }]⟩

theorem pid_lt (pid : UInt32) : pid.toNat < PidLock.pidLimit := pid.toNat_lt

theorem Sound.acquires (hs : Sound directory name s) (pid : UInt32) :
    Acquires directory name s pid.toNat (s.step directory name (.acquire pid)) := by
  unfold step
  cases hs with
  | unopened hvalues hfree =>
    rcases PidLock.acquire_unopened hfree (pid_lt pid) with
      ⟨e, files, heq, hstill⟩ | ⟨files, heq, hready⟩
    · simp only [heq]
      exact .missed hvalues hvalues (.unopened hvalues hstill)
    · simp only [heq]
      refine .taken ?_ hready ?_
      · intro p hp
        exact absurd hp (PidLock.readPid_ne_of_free hfree p)
      · rw [hvalues]
        exact List.forall_mem_nil _
  | @opened holder hready hpaths =>
    cases holder with
    | none =>
      obtain ⟨files, heq, hready'⟩ := hready.acquire_free (pid_lt pid)
      simp only [heq]
      refine .taken ?_ hready' hpaths
      intro p hp
      rw [hready.reads] at hp
      cases hp
    | some holder =>
      simp only [hready.acquire_held]
      by_cases h : holder = pid.toNat
      · subst h
        simp only [if_true]
        refine .taken ?_ hready hpaths
        intro p hp
        rw [hready.reads] at hp
        cases hp
        rfl
      · simp only [if_neg h]
        exact .refused hready h

theorem Acquires.guarded {pid : Nat} (h : Acquires directory name s pid s')
    (hg : Guarded directory name s) : Guarded directory name s' := by
  cases h with
  | missed _ hvalues _ =>
    intro p hp
    rw [hvalues] at hp
    cases hp
  | refused _ _ => exact hg
  | taken hown hready _ =>
    intro p hp
    rw [holders_append, List.mem_append] at hp
    rcases hp with hp | hp
    · rw [hown p (hg p hp)]
      exact hready.reads
    · rw [List.mem_singleton.mp hp]
      exact hready.reads

theorem step_of_none (hop : op.value? = some i) (hi : s.values[i]? = none) :
    s.step directory name op = s := by
  cases op with
  | acquire pid => cases hop
  | release j =>
    cases hop
    simp only [step, hi]
  | drop j =>
    cases hop
    simp only [step, hi]

variable (directory name) in
theorem step_of_some (hop : op.value? = some i) (hi : s.values[i]? = some v) :
    ∃ values, s.step directory name op = ⟨(v.lock.release s.files).2, values⟩ ∧
      holders values = holders (s.values.eraseIdx i) ∧
      ∀ w ∈ values, ∃ u ∈ s.values, w.lock = u.lock := by
  cases op with
  | acquire pid => cases hop
  | release j =>
    cases hop
    refine ⟨s.values.set i { v with held := false }, by simp only [step, hi], ?_, ?_⟩
    · exact holders_set _ _ rfl
    · intro w hw
      rcases List.mem_or_eq_of_mem_set hw with hw | rfl
      · exact ⟨w, hw, rfl⟩
      · exact ⟨v, List.mem_of_getElem? hi, rfl⟩
  | drop j =>
    cases hop
    refine ⟨s.values.eraseIdx i, by simp only [step, hi], rfl, ?_⟩
    intro w hw
    exact ⟨w, List.mem_of_mem_eraseIdx hw, rfl⟩

theorem Sound.gives_back (hs : Sound directory name s) (hop : op.value? = some i)
    (hi : s.values[i]? = some v) :
    ∃ holder, PidLock.Ready directory name s.files holder ∧
      PidLock.Ready directory name (s.step directory name op).files
        (if holder = some v.lock.pid then none else holder) ∧
      holders (s.step directory name op).values = holders (s.values.eraseIdx i) ∧
      Sound directory name (s.step directory name op) := by
  obtain ⟨values, hstep, hholders, hlocks⟩ :=
    step_of_some directory name hop hi
  have hv := List.mem_of_getElem? hi
  cases hs with
  | unopened hvalues _ =>
    rw [hvalues] at hv
    cases hv
  | @opened holder hready hpaths =>
    have hready' : PidLock.Ready directory name (v.lock.release s.files).2
        (if holder = some v.lock.pid then none else holder) := by
      have hpath := hpaths v hv
      obtain ⟨⟨path, pid⟩, held⟩ := v
      subst hpath
      by_cases h : holder = some pid
      · subst h
        obtain ⟨files, hrelease, hnone⟩ := hready.release_own
        rw [hrelease, if_pos rfl]
        exact hnone
      · rw [if_neg h, hready.release_other rfl h]
        exact hready
    rw [hstep]
    refine ⟨holder, hready, hready', hholders, .opened hready' ?_⟩
    intro w hw
    obtain ⟨u, hu, heq⟩ := hlocks w hw
    rw [heq]
    exact hpaths u hu

theorem Sound.step (hs : Sound directory name s) (op : LockStep) :
    Sound directory name (s.step directory name op) := by
  have hgives {i : Nat} (hop : op.value? = some i) :
      Sound directory name (s.step directory name op) := by
    cases hi : s.values[i]? with
    | none =>
      rw [step_of_none hop hi]
      exact hs
    | some v =>
      obtain ⟨_, -, -, -, hs'⟩ := hs.gives_back hop hi
      exact hs'
  cases op with
  | acquire pid =>
    have hacquires := hs.acquires pid
    generalize s.step directory name (.acquire pid) = s' at hacquires ⊢
    cases hacquires with
    | missed _ _ hs' => exact hs'
    | refused _ _ => exact hs
    | taken _ hready hpaths =>
      refine .opened hready ?_
      intro v hv
      rcases List.mem_append.mp hv with hv | hv
      · exact hpaths v hv
      · rw [List.mem_singleton.mp hv]
  | release i => exact hgives rfl
  | drop i => exact hgives rfl

/-- A step leaves the file without a holder's name only if it is careless. -/
theorem Guarded.step_iff (hg : Guarded directory name s) (hs : Sound directory name s)
    (op : LockStep) :
    Guarded directory name (s.step directory name op) ↔ ¬ s.Careless op := by
  have hgives {i : Nat} (hop : op.value? = some i) :
      Guarded directory name (s.step directory name op) ↔ ¬ s.Careless op := by
    cases hi : s.values[i]? with
    | none =>
      rw [step_of_none hop hi]
      refine ⟨?_, fun _ => hg⟩
      rintro - ⟨j, hj, v, hv, -⟩
      rw [hop] at hj
      cases hj
      rw [hi] at hv
      cases hv
    | some v =>
      obtain ⟨holder, hready, hready', hholders, -⟩ := hs.gives_back hop hi
      constructor
      · rintro hg' ⟨j, hj, w, hw, hmem⟩
        rw [hop] at hj
        cases hj
        rw [hi] at hw
        cases hw
        -- the file has named the process, and the other value is left without it
        have hnamed := hg _ (mem_holders_of_eraseIdx hmem)
        have hleft := hg' _ (hholders ▸ hmem)
        rw [hready.reads] at hnamed
        cases hnamed
        rw [hready'.reads, if_pos rfl] at hleft
        cases hleft
      · intro hcareful p hp
        rw [hholders] at hp
        have hnamed := hg p (mem_holders_of_eraseIdx hp)
        rw [hready.reads] at hnamed
        cases hnamed
        have hne : some p ≠ some v.lock.pid := by
          intro heq
          cases heq
          exact hcareful ⟨i, hop, v, hi, hp⟩
        rw [hready'.reads, if_neg hne]
  cases op with
  | acquire pid =>
    refine ⟨?_, fun _ => (hs.acquires pid).guarded hg⟩
    rintro - ⟨j, hj, -⟩
    cases hj
  | release i => exact hgives rfl
  | drop i => exact hgives rfl

theorem Guarded.exclusive (hg : Guarded directory name s) : s.Exclusive := by
  intro p hp q hq
  have hpq := (hg p hp).symm.trans (hg q hq)
  cases hpq
  rfl

/-- The file is what keeps the others out: without a holder's name in it, another process can
acquire the lock. -/
theorem Sound.guarded_iff (hs : Sound directory name s) : Guarded directory name s ↔
    ∀ pid : UInt32, (s.step directory name (.acquire pid)).Exclusive := by
  constructor
  · intro hg pid
    exact ((hs.acquires pid).guarded hg).exclusive
  · intro hall p hp
    have hother (pid : UInt32) (hne : p ≠ pid.toNat) : ∃ holder,
        PidLock.Ready directory name s.files (some holder) ∧ holder ≠ pid.toNat := by
      have hexclusive := hall pid
      have hacquires := hs.acquires pid
      generalize s.step directory name (.acquire pid) = s' at hexclusive hacquires
      cases hacquires with
      | missed hvalues _ _ =>
        rw [hvalues] at hp
        cases hp
      | refused hready hholder => exact ⟨_, hready, hholder⟩
      | taken _ _ _ =>
        refine absurd (hexclusive p ?_ pid.toNat ?_) hne
        · rw [holders_append]
          exact List.mem_append_left _ hp
        · rw [holders_append]
          exact List.mem_append_right _ (List.mem_singleton_self _)
    have hstranger : ∃ pid : UInt32, p ≠ pid.toNat := by
      by_cases h : p = 0
      · exact ⟨1, by simp [h]⟩
      · exact ⟨0, h⟩
    obtain ⟨stranger, hne⟩ := hstranger
    obtain ⟨holder, hready, -⟩ := hother stranger hne
    have hpid : (UInt32.ofNat holder).toNat = holder :=
      UInt32.toNat_ofNat_of_lt' (PidLock.lt_of_readPid hready.reads)
    by_cases h : p = holder
    · rw [h]
      exact hready.reads
    · -- the process that the file names would acquire the lock again
      rw [← hpid] at h
      obtain ⟨holder', hready', hagain⟩ := hother (UInt32.ofNat holder) h
      have hsame := hready.reads.symm.trans hready'.reads
      cases hsame
      exact absurd hpid.symm hagain

/-! ### Runs -/

theorem careful_iff (hs : Sound directory name s) (hg : Guarded directory name s)
    (ops : List LockStep) : Careful directory name s ops ↔ ∀ pre, pre <+: ops →
      (s.run directory name pre).Exclusive ∧
        ∀ pid, (s.run directory name (pre ++ [.acquire pid])).Exclusive := by
  have hhere : ∀ pid, (s.run directory name [.acquire pid]).Exclusive := hs.guarded_iff.mp hg
  induction ops generalizing s with
  | nil =>
    refine ⟨?_, fun _ => trivial⟩
    intro _ pre hpre
    rw [List.prefix_nil.mp hpre]
    exact ⟨hg.exclusive, hhere⟩
  | cons op ops ih =>
    have hs' := hs.step op
    constructor
    · rintro ⟨hcareful, hrest⟩ pre hpre
      have hg' := (hg.step_iff hs op).mpr hcareful
      cases pre with
      | nil => exact ⟨hg.exclusive, hhere⟩
      | cons o pre =>
        obtain ⟨rfl, htail⟩ := List.cons_prefix_cons.mp hpre
        exact (ih hs' hg' (hs'.guarded_iff.mp hg')).mp hrest pre htail
    · intro hall
      have hnext := (hall [op] (List.cons_prefix_cons.mpr ⟨rfl, List.nil_prefix⟩)).2
      have hg' : Guarded directory name (s.step directory name op) := hs'.guarded_iff.mpr hnext
      refine ⟨(hg.step_iff hs op).mp hg', (ih hs' hg' (hs'.guarded_iff.mp hg')).mpr ?_⟩
      intro pre hpre
      exact hall (op :: pre) (List.cons_prefix_cons.mpr ⟨rfl, hpre⟩)

end

/-- The lock excludes others all along a run, whoever tries to acquire it, exactly if no process
gives back a value while it holds another. -/
theorem exclusive_iff_careful (directory : Path) (name : String) (files : FileSystem)
    (ops : List LockStep)
    (hfree : files.tree.file? (files.place (PidLock.filePath directory name)) = none) :
    Careful directory name ⟨files, []⟩ ops ↔ ∀ pre, pre <+: ops →
      (run directory name ⟨files, []⟩ pre).Exclusive ∧
        ∀ pid, (run directory name ⟨files, []⟩ (pre ++ [.acquire pid])).Exclusive := by
  have hs : Sound directory name ⟨files, []⟩ := .unopened rfl hfree
  refine careful_iff hs ?_ ops
  intro p hp
  cases hp

/-- The lock goes from one process to another, and the first one drops its old value. -/
theorem exclusive_iff_careful_handover :
    let ops : List LockStep := [.acquire 1, .acquire 2, .release 0, .acquire 2, .drop 0]
    holders (run ⟨"/locks"⟩ "crossgrade" {} ops).values = [2] ∧
      ∀ pid, (run ⟨"/locks"⟩ "crossgrade" {} (ops ++ [.acquire pid])).Exclusive := by
  intro ops
  have hcareful : Careful ⟨"/locks"⟩ "crossgrade" {} ops := by decide
  have hholders : holders (run ⟨"/locks"⟩ "crossgrade" {} ops).values = [2] := by decide
  have hall := (exclusive_iff_careful ⟨"/locks"⟩ "crossgrade" {} ops
    (FileTree.file?_empty _)).mp hcareful
  exact ⟨hholders, (hall ops (List.prefix_refl ops)).2⟩

/-- A process that drops its second value has lost the lock to another one. -/
theorem relocking_lets_others_in :
    ({} : FileSystem).tree.file? (FileSystem.place {} (PidLock.filePath ⟨"/locks"⟩ "crossgrade")) =
      none ∧
    holders (run ⟨"/locks"⟩ "crossgrade" {} [.acquire 1, .acquire 1, .drop 1, .acquire 2]).values =
      [1, 2] ∧
    ¬ (run ⟨"/locks"⟩ "crossgrade" {} [.acquire 1, .acquire 1, .drop 1, .acquire 2]).Exclusive := by
  constructor
  · exact FileTree.file?_empty _
  · constructor
    · decide
    · decide

end LockSystem

end Changeover
