import Changeover.Change
import Changeover.Proofs.Files.Reach
import Changeover.Proofs.Files.Saving

/-!
# Attempts to save files

Pushes of saved and absent files on one stack, with one backup directory, while the files may be
edited in between. A copy that a later save overwrites is of no more use to the earlier one, so what
a rollback brings back is what was there before the first attempt that lasts.

Attempts are kept latest first, as the stack is.
-/

namespace Changeover

/-- A push of a file to be saved, or of an absent one, and what stood there before. -/
structure Attempt where
  path : Path
  saves : Bool
  /-- Whether the change is tracked and became enabled. -/
  enabled : Bool
  before : Option (ByteArray × Bool)

abbrev FileMap := Location → Option (ByteArray × Bool)

namespace Attempt

variable {backup : Path} {a b : Attempt} {l m : Location}

def copy? (backup : Path) (a : Attempt) : Option Path := SavedFile.copyOf? backup a.path

/-- Whether the rollback can still bring back what stood there before this attempt. -/
def Lasts (backup : Path) (a : Attempt) (later : List Attempt) : Prop :=
  a.enabled = true ∧ (a.saves = true →
    ∀ b ∈ later, b.enabled = true → b.saves = true → b.copy? backup ≠ a.copy? backup)

/-- The first attempt at `l` that lasts. -/
structure FirstLasting (backup : Path) (l : Location) (attempts : List Attempt) (a : Attempt)
    (later earlier : List Attempt) : Prop where
  split : attempts = later ++ a :: earlier
  here : a.path.Reaches l
  lasts : a.Lasts backup later
  first : ∀ later' b earlier', earlier = later' ++ b :: earlier' → b.path.Reaches l →
    ¬ b.Lasts backup (later ++ a :: later')

/-- Paths the law is about: absolute, never going up, and not in the backup directory. -/
structure Apart (backup path : Path) : Prop where
  isAbsolute : path.isAbsolute = true
  down : .up ∉ path.steps
  outside : ¬ backup.location <+: path.location

/-- What one restore does to the files, if it does not fail. -/
def Undoes (backup : Path) (a : Attempt) (g g' : FileMap) : Prop :=
  if a.enabled = false then g' = g
  else if a.saves = true then
    ∀ copy, a.copy? backup = some copy →
      (g copy.location = none → g' = g) ∧
      ∀ v, g copy.location = some v → ∀ m, g' m =
        if m = copy.location then none else if m = a.path.location then some v else g m
  else (∀ m, a.path.Reaches m → g' m = none) ∧ ∀ m, ¬ a.path.Reaches m → g' m = g m

inductive Unwound (backup : Path) : List Attempt → FileMap → FileMap → Prop
  | nil {g : FileMap} : Unwound backup [] g g
  | cons {a : Attempt} {as : List Attempt} {g g' g'' : FileMap} :
    Undoes backup a g g' → Unwound backup as g' g'' → Unwound backup (a :: as) g g''

/-- What is known of an attempt by itself. -/
structure Sound (backup : Path) (a : Attempt) : Prop where
  apart : Apart backup a.path
  copied : a.enabled = true → a.saves = true →
    a.path.Reaches a.path.location ∧ ∃ copy, a.copy? backup = some copy
  absent : a.enabled = true → a.saves = false → a.before = none

theorem copy_inside {copy : Path} (hc : a.copy? backup = some copy) :
    backup.location <+: copy.location := by
  obtain ⟨name, -, hplace⟩ := SavedFile.place_copyOf hc []
  rw [Path.location, Path.location, hplace]
  exact List.prefix_append _ _

theorem copy?_eq_of_location {copy copy' : Path} (hc : a.copy? backup = some copy)
    (hc' : b.copy? backup = some copy') (h : copy.location = copy'.location) :
    b.copy? backup = a.copy? backup := by
  obtain ⟨name, hname, hname', hdigest⟩ := SavedFile.same_place_copyOf hc hc' (d := []) h
  rw [copy?, copy?, SavedFile.copyOf?, SavedFile.copyOf?, hname, hname', hdigest]

section

variable {g g' : FileMap}

theorem Undoes.inside (h : a.Undoes backup g g') (hs : a.Sound backup)
    (hm : backup.location <+: m) : g' m = g m ∨
      g' m = none ∧ a.enabled = true ∧ a.saves = true ∧
        ∃ copy, a.copy? backup = some copy ∧ m = copy.location := by
  have hout : m ≠ a.path.location := by
    rintro rfl
    exact hs.apart.outside hm
  unfold Undoes at h
  split at h
  · exact Or.inl (by rw [h])
  · rename_i he
    have he' : a.enabled = true := by simpa using he
    split at h
    · rename_i hsave
      obtain ⟨-, copy, hcopy⟩ := hs.copied he' hsave
      obtain ⟨hnone, hsome⟩ := h copy hcopy
      cases hg : g copy.location with
      | none => exact Or.inl (by rw [hnone hg])
      | some v =>
        have hgm := hsome v hg m
        by_cases hmc : m = copy.location
        · rw [if_pos hmc] at hgm
          exact Or.inr ⟨hgm, he', hsave, copy, hcopy, hmc⟩
        · rw [if_neg hmc, if_neg hout] at hgm
          exact Or.inl hgm
    · refine Or.inl (h.2 m ?_)
      intro hr
      exact hout hr.location_eq.symm

theorem Undoes.elsewhere (h : a.Undoes backup g g') (hs : a.Sound backup)
    (hl : ¬ backup.location <+: l)
    (hidle : a.enabled = true → a.path.Reaches l → a.saves = true ∧
      ∀ copy, a.copy? backup = some copy → g copy.location = none) : g' l = g l := by
  unfold Undoes at h
  split at h
  · rw [h]
  · rename_i he
    have he' : a.enabled = true := by simpa using he
    split at h
    · rename_i hsave
      obtain ⟨hreach, copy, hcopy⟩ := hs.copied he' hsave
      obtain ⟨hnone, hsome⟩ := h copy hcopy
      cases hg : g copy.location with
      | none => rw [hnone hg]
      | some v =>
        have hlc : l ≠ copy.location := by
          rintro rfl
          exact hl (copy_inside hcopy)
        have hla : l ≠ a.path.location := by
          rintro rfl
          have := (hidle he' hreach).2 copy hcopy
          rw [hg] at this
          cases this
        rw [hsome v hg l, if_neg hlc, if_neg hla]
    · rename_i hsave
      refine h.2 l ?_
      intro hr
      exact hsave (hidle he' hr).1

end

namespace Unwound

variable {as later earlier : List Attempt} {g g' : FileMap}

theorem append {bs : List Attempt} {g'' : FileMap} (h : Unwound backup (as ++ bs) g g'') :
    ∃ g', Unwound backup as g g' ∧ Unwound backup bs g' g'' := by
  induction as generalizing g with
  | nil => exact ⟨g, .nil, h⟩
  | cons a as ih =>
    cases h with
    | cons hu hrest =>
      obtain ⟨g', h₁, h₂⟩ := ih hrest
      exact ⟨g', .cons hu h₁, h₂⟩

/-- A copy stays until an attempt that shares it is undone. -/
theorem keeps (h : Unwound backup as g g') (hs : ∀ b ∈ as, b.Sound backup) {copy : Path}
    (hc : a.copy? backup = some copy)
    (hfree : ∀ b ∈ as, b.enabled = true → b.saves = true → b.copy? backup ≠ a.copy? backup) :
    g' copy.location = g copy.location := by
  induction h with
  | nil => rfl
  | @cons b bs g g₁ g' hu _ ih =>
    have hrest := ih (fun c hc => hs c (List.mem_cons_of_mem b hc))
      fun c hc => hfree c (List.mem_cons_of_mem b hc)
    rw [hrest]
    rcases hu.inside (hs b List.mem_cons_self) (copy_inside hc) with hsame | hgone
    · exact hsame
    · obtain ⟨-, he, hsave, copy', hc', hloc⟩ := hgone
      exact absurd (copy?_eq_of_location hc hc' hloc) (hfree b List.mem_cons_self he hsave)

theorem gone (h : Unwound backup as g g') (hs : ∀ b ∈ as, b.Sound backup) {copy : Path}
    (hc : a.copy? backup = some copy) (hg : g copy.location = none) : g' copy.location = none := by
  induction h with
  | nil => exact hg
  | @cons b bs g g₁ g' hu _ ih =>
    apply ih fun c hc => hs c (List.mem_cons_of_mem b hc)
    rcases hu.inside (hs b List.mem_cons_self) (copy_inside hc) with hsame | ⟨hnone, -⟩
    · rw [hsame, hg]
    · exact hnone

theorem consumed (h : Unwound backup as g g') (hs : ∀ b ∈ as, b.Sound backup) (hb : b ∈ as)
    (he : b.enabled = true) (hsave : b.saves = true) {copy : Path}
    (hc : b.copy? backup = some copy) : g' copy.location = none := by
  induction h with
  | nil => cases hb
  | @cons c cs g g₁ g' hu hrest ih =>
    have hs' : ∀ d ∈ cs, d.Sound backup := fun d hd => hs d (List.mem_cons_of_mem c hd)
    rcases List.mem_cons.mp hb with rfl | hb
    · refine hrest.gone hs' hc ?_
      unfold Undoes at hu
      rw [if_neg (by simp [he]), if_pos hsave] at hu
      obtain ⟨hnone, hsome⟩ := hu copy hc
      cases hg : g copy.location with
      | none => rw [hnone hg, hg]
      | some v => rw [hsome v hg copy.location, if_pos rfl]
    · exact ih hs' hb

theorem stays (h : Unwound backup as g g') (hs : ∀ b ∈ as, b.Sound backup)
    (hl : ¬ backup.location <+: l) (done : List Attempt)
    (hgone : ∀ b ∈ done, b.enabled = true → b.saves = true →
      ∀ copy, b.copy? backup = some copy → g copy.location = none)
    (hnot : ∀ later b earlier, as = later ++ b :: earlier → b.path.Reaches l →
      ¬ b.Lasts backup (done ++ later)) : g' l = g l := by
  induction h generalizing done with
  | nil => rfl
  | @cons b bs g g₁ g' hu hrest ih =>
    have hb := hs b List.mem_cons_self
    have hs' : ∀ d ∈ bs, d.Sound backup := fun d hd => hs d (List.mem_cons_of_mem b hd)
    have hone : Unwound backup [b] g g₁ := .cons hu .nil
    have hself : ∀ d ∈ [b], d.Sound backup := by
      intro d hd
      exact List.mem_singleton.mp hd ▸ hb
    have hrest' : g' l = g₁ l := by
      apply ih hs' (done ++ [b])
      · intro d hd he hsave copy hc
        rcases List.mem_append.mp hd with hd | hd
        · exact hone.gone hself hc (hgone d hd he hsave copy hc)
        · exact hone.consumed hself hd he hsave hc
      · intro later c earlier hsplit hr
        have := hnot (b :: later) c earlier (by rw [hsplit, List.cons_append]) hr
        simpa using this
    rw [hrest']
    apply hu.elsewhere hb hl
    intro he hr
    have hover := hnot [] b bs rfl hr
    rw [List.append_nil, Lasts, not_and] at hover
    have hsave := hover he
    rw [Classical.not_imp] at hsave
    refine ⟨hsave.1, ?_⟩
    intro copy hc
    apply Classical.byContradiction
    intro hstill
    apply hsave.2
    intro d hd hde hds hdc
    exact hstill (hgone d hd hde hds copy (hdc.trans hc))

end Unwound

/-- Undoing everything leaves at `l` what stood there before the first attempt that lasts. -/
theorem FirstLasting.settles {attempts later earlier : List Attempt} {g g' : FileMap}
    (h : FirstLasting backup l attempts a later earlier) (hu : Unwound backup attempts g g')
    (hs : ∀ b ∈ attempts, b.Sound backup)
    (hcopy : a.saves = true → ∀ copy, a.copy? backup = some copy →
      ∃ v, a.before = some v ∧ g copy.location = some v) : g' l = a.before := by
  have hsplit := h.split
  subst hsplit
  have hsa : a.Sound backup := hs a (by simp)
  have hslater : ∀ b ∈ later, b.Sound backup := fun b hb => hs b (List.mem_append_left _ hb)
  have hsearlier : ∀ b ∈ earlier, b.Sound backup := fun b hb =>
    hs b (List.mem_append_right _ (List.mem_cons_of_mem a hb))
  have hout : ¬ backup.location <+: l := by
    rw [← h.here.location_eq]
    exact hsa.apart.outside
  obtain ⟨he, hlast⟩ := h.lasts
  have hparts : later ++ a :: earlier = (later ++ [a]) ++ earlier := by simp
  rw [hparts] at hu
  obtain ⟨g₂, hstep, hu₂⟩ := hu.append
  obtain ⟨g₁, hu₁, hone⟩ := hstep.append
  cases hone with
  | @cons _ _ _ g₃ _ hua hnil =>
    cases hnil
    -- the attempt itself puts the old content back
    have hput : g₂ l = a.before := by
      unfold Undoes at hua
      rw [if_neg (by simp [he])] at hua
      by_cases hsave : a.saves = true
      · rw [if_pos hsave] at hua
        obtain ⟨-, copy, hc⟩ := hsa.copied he hsave
        obtain ⟨v, hv, hg⟩ := hcopy hsave copy hc
        have hkept : g₁ copy.location = some v := by
          rw [hu₁.keeps hslater hc (hlast hsave), hg]
        have hne : l ≠ copy.location := by
          rintro rfl
          exact hout (copy_inside hc)
        rw [(hua copy hc).2 v hkept l, if_neg hne, if_pos h.here.location_eq.symm, hv]
      · rw [if_neg hsave] at hua
        rw [hua.1 l h.here, hsa.absent he (by simpa using hsave)]
    -- and nothing before it touches the place again
    rw [← hput]
    apply hu₂.stays hsearlier hout (later ++ [a])
    · intro b hb hbe hbs copy hc
      have hsd : ∀ d ∈ later ++ [a], d.Sound backup := by
        intro d hd
        rcases List.mem_append.mp hd with hd | hd
        · exact hslater d hd
        · exact List.mem_singleton.mp hd ▸ hsa
      exact hstep.consumed hsd hb hbe hbs hc
    · intro later' b earlier' hsplit hr
      have := h.first later' b earlier' hsplit hr
      simpa using this

/-- The latest enabled attempt at `l` lasts, because whatever shares its copy is at `l` too. -/
theorem exists_lasting {attempts : List Attempt} (hs : ∀ b ∈ attempts, b.Sound backup)
    (hshare : ∀ a ∈ attempts, ∀ b ∈ attempts, b.copy? backup = a.copy? backup →
      b.copy? backup ≠ none → b.path.location = a.path.location)
    (hex : ∃ a ∈ attempts, a.enabled = true ∧ a.path.Reaches l) :
    ∃ later a earlier, attempts = later ++ a :: earlier ∧ a.path.Reaches l ∧
      a.Lasts backup later := by
  have hlatest : ∃ later a earlier, attempts = later ++ a :: earlier ∧ a.enabled = true ∧
      a.path.Reaches l ∧ ∀ b ∈ later, b.enabled = true → ¬ b.path.Reaches l := by
    clear hs hshare
    induction attempts with
    | nil =>
      obtain ⟨a, ha, -⟩ := hex
      cases ha
    | cons a as ih =>
      by_cases h : a.enabled = true ∧ a.path.Reaches l
      · exact ⟨[], a, as, rfl, h.1, h.2, by simp⟩
      · obtain ⟨b, hb, hbe, hbr⟩ := hex
        have hbas : b ∈ as := by
          rcases List.mem_cons.mp hb with rfl | hb
          · exact absurd ⟨hbe, hbr⟩ h
          · exact hb
        obtain ⟨later, c, earlier, rfl, hce, hcr, hnone⟩ := ih ⟨b, hbas, hbe, hbr⟩
        refine ⟨a :: later, c, earlier, rfl, hce, hcr, ?_⟩
        intro d hd hde hdr
        rcases List.mem_cons.mp hd with rfl | hd
        · exact h ⟨hde, hdr⟩
        · exact hnone d hd hde hdr
  obtain ⟨later, a, earlier, rfl, hae, har, hnone⟩ := hlatest
  refine ⟨later, a, earlier, rfl, har, hae, ?_⟩
  intro _ b hb hbe hbs hshared
  have hbm : b ∈ later ++ a :: earlier := List.mem_append_left _ hb
  obtain ⟨hreach, copy, hcopy⟩ := (hs b hbm).copied hbe hbs
  have hloc := hshare a (by simp) b hbm hshared (by simp [hcopy])
  rw [hloc, har.location_eq] at hreach
  exact hnone b hb hbe hreach

theorem exists_firstLasting {attempts later earlier : List Attempt} {c : Attempt}
    (hsplit : attempts = later ++ c :: earlier) (hr : c.path.Reaches l)
    (hl : c.Lasts backup later) :
    ∃ a later earlier, FirstLasting backup l attempts a later earlier := by
  by_cases hmore : ∃ later' b earlier', earlier = later' ++ b :: earlier' ∧ b.path.Reaches l ∧
      b.Lasts backup (later ++ c :: later')
  · obtain ⟨later', b, earlier', hearlier, hbr, hbl⟩ := hmore
    have hlen : earlier'.length < earlier.length := by
      rw [hearlier]
      simp
      omega
    have hsplit' : attempts = (later ++ c :: later') ++ b :: earlier' := by
      rw [hsplit, hearlier]
      simp
    exact exists_firstLasting hsplit' hbr hbl
  · refine ⟨c, later, earlier, hsplit, hr, hl, ?_⟩
    intro later' b earlier' hearlier hbr hbl
    exact hmore ⟨later', b, earlier', hearlier, hbr, hbl⟩
termination_by earlier.length

end Attempt

end Changeover
