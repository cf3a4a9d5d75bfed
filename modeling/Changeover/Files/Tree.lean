/-!
# File trees

A tree maps locations, which are lists of names from the root down, to files and directories. It
is kept as a list of entries with at most one entry that counts for each location. Names of paths,
`.` and `..` are resolved elsewhere; here a location is exact.
-/

namespace Changeover

/-- Names from the root down. The root itself is the empty list. -/
abbrev Location := List String

inductive Node where
  | file (content : ByteArray) (executable : Bool)
  | directory
  deriving Inhabited

instance : DecidableEq Node
  | .directory, .directory => isTrue rfl
  | .file .., .directory | .directory, .file .. => isFalse nofun
  | .file c x, .file d y =>
    if h : c.data = d.data ∧ x = y then isTrue (by rw [ByteArray.ext h.1, h.2])
    else isFalse fun e => h (by cases e; exact ⟨rfl, rfl⟩)

def Node.isFile : Node → Bool
  | .file .. => true
  | .directory => false

def Node.isDirectory (n : Node) : Bool := !n.isFile

/-- Files and directories below a root directory, which is always there. -/
structure FileTree where
  entries : List (Location × Node) := []
  deriving Inhabited

namespace FileTree

def node? (t : FileTree) (l : Location) : Option Node :=
  if l = [] then some .directory else (t.entries.find? (·.1 == l)).map (·.2)

def put (t : FileTree) (l : Location) (n : Node) : FileTree :=
  ⟨(l, n) :: t.entries.filter (·.1 != l)⟩

def erase (t : FileTree) (l : Location) : FileTree := ⟨t.entries.filter (·.1 != l)⟩

def prune (t : FileTree) (l : Location) : FileTree := ⟨t.entries.filter (!l.isPrefixOf ·.1)⟩

def below (t : FileTree) (l : Location) : List (Location × Node) :=
  (t.entries.filter fun e => l.isPrefixOf e.1 && l != e.1).map fun e => (e.1.drop l.length, e.2)

@[simp] theorem node?_nil (t : FileTree) : t.node? [] = some .directory := by simp [node?]

theorem find?_filter_ne {l m : Location} (h : m ≠ l) (es : List (Location × Node)) :
    (es.filter (·.1 != l)).find? (·.1 == m) = es.find? (·.1 == m) := by
  induction es with
  | nil => rfl
  | cons e es ih =>
    by_cases he : e.1 = l
    · have hm : ¬ e.1 = m := fun h' => h (h'.symm.trans he)
      simp [he, ih, show ¬ l = m from fun h' => h h'.symm]
    · by_cases hm : e.1 = m
      · simp [hm, h]
      · simp [he, hm, ih]

@[simp] theorem node?_put_self {l : Location} (hl : l ≠ []) (t : FileTree) (n : Node) :
    (t.put l n).node? l = some n := by
  simp [node?, put, hl]

theorem node?_put_of_ne {l m : Location} (h : m ≠ l) (t : FileTree) (n : Node) :
    (t.put l n).node? m = t.node? m := by
  have h' : ¬ l = m := fun e => h e.symm
  simp only [node?, put]
  rw [List.find?_cons_of_neg (by simpa using h'), find?_filter_ne h]

@[simp] theorem node?_erase_self {l : Location} (hl : l ≠ []) (t : FileTree) :
    (t.erase l).node? l = none := by
  simp [node?, erase, hl]

theorem node?_erase_of_ne {l m : Location} (h : m ≠ l) (t : FileTree) :
    (t.erase l).node? m = t.node? m := by
  simp only [node?, erase]
  rw [find?_filter_ne h]

end FileTree

end Changeover
