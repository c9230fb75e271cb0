import RankLedger.Index.Core

/-!
# The index

An index is a family of cores under distinct names.  A core comes into being when it is first
opened, by a reader or by a writer; every name but the empty one can be opened.
-/

namespace RankLedger

structure Index (ν : Type) where
  cores : List (String × Core ν) := []
  deriving Repr, Inhabited

namespace Index

variable {ν : Type}

def core? (index : Index ν) (name : String) : Option (Core ν) :=
  index.cores.lookup name

def openCore (index : Index ν) (name : String) : Except IndexError (Index ν) :=
  if name = "" then .error (.unknownCore name)
  else
    match index.core? name with
    | some _ => .ok index
    | none => .ok { cores := index.cores ++ [(name, {})] }

def update (index : Index ν) (name : String) (change : Core ν → Core ν) : Index ν :=
  { cores := index.cores.map fun entry =>
      if entry.1 = name then (entry.1, change entry.2) else entry }

def add (index : Index ν) (name : String) (document : Document ν) : Index ν :=
  index.update name (·.push (.add document))

def delete (index : Index ν) (name id : String) : Index ν :=
  index.update name (·.push (.delete id))

def commit (index : Index ν) (name : String) : Index ν :=
  index.update name Core.commit

/-- A page of the documents of a core.  A core that was never opened is empty. -/
def query [Scalar ν] (index : Index ν) (name : String) (query : IndexQuery ν) :
    Except IndexError (IndexPage ν) :=
  ((index.core? name).getD {}).query query

def size (index : Index ν) (name : String) : Nat :=
  ((index.core? name).getD {}).size

def names (index : Index ν) : List String :=
  (index.cores.map (·.1)).mergeSort fun a b => decide (a ≤ b)

/-! ## Looking at one core -/

/-- An opened core is the one that was there, or an empty one. -/
theorem core?_openCore {index opened : Index ν} {name : String}
    (h : index.openCore name = .ok opened) :
    opened.core? name = some ((index.core? name).getD {}) := by
  unfold openCore at h
  split at h
  · simp at h
  · split at h
    · rename_i core hcore
      cases h
      simp [hcore]
    · rename_i hcore
      cases h
      unfold core? at hcore ⊢
      simp [List.lookup_append, hcore]

/-- Opening a core changes no other one. -/
theorem core?_openCore_of_ne {index opened : Index ν} {name other : String}
    (h : index.openCore name = .ok opened) (hne : other ≠ name) :
    opened.core? other = index.core? other := by
  unfold openCore at h
  split at h
  · simp at h
  · split at h
    · cases h
      rfl
    · cases h
      simp [core?, List.lookup_append, List.lookup_cons, beq_eq_false_iff_ne.2 hne]

/-- A change of one core is seen under its name only. -/
theorem core?_update (index : Index ν) (name other : String) (change : Core ν → Core ν) :
    (index.update name change).core? other =
      (index.core? other).map fun core => if other = name then change core else core := by
  unfold update core?
  induction index.cores with
  | nil => rfl
  | cons entry rest ih =>
      obtain ⟨key, core⟩ := entry
      simp only [List.map_cons, List.lookup_cons]
      by_cases hkey : key = name
      · subst hkey
        by_cases hother : other = key
        · simp [hother]
        · simpa [List.lookup_cons, beq_eq_false_iff_ne.2 hother] using ih
      · by_cases hother : other = key
        · subst hother
          simp [hkey]
        · simpa [hkey, List.lookup_cons, beq_eq_false_iff_ne.2 hother] using ih

end Index

end RankLedger
