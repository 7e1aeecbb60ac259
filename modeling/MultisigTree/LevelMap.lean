import MultisigTree.Ascending

/-!
# Tables by level

A finite table whose keys are levels, listed in increasing order of level.
`get?_insert` is all there is to know about looking up after a change.
-/
namespace MultisigTree

structure LevelMap (α : Type) where
  entries : List (Nat × α)
  ascending : Ascending (entries.map (·.1))

namespace LevelMap

variable {α : Type}

def empty : LevelMap α := ⟨[], .nil⟩

instance : EmptyCollection (LevelMap α) := ⟨empty⟩

instance : Inhabited (LevelMap α) := ⟨empty⟩

def lookup (level : Nat) : List (Nat × α) → Option α
  | [] => none
  | (k, a) :: rest => if k = level then some a else lookup level rest

def get? (m : LevelMap α) (level : Nat) : Option α :=
  lookup level m.entries

def insertEntry (level : Nat) (a : α) : List (Nat × α) → List (Nat × α)
  | [] => [(level, a)]
  | (k, b) :: rest =>
      if level < k then (level, a) :: (k, b) :: rest
      else if k < level then (k, b) :: insertEntry level a rest
      else (level, a) :: rest

theorem map_fst_insertEntry (level : Nat) (a : α) (entries : List (Nat × α)) :
    (insertEntry level a entries).map (·.1) = AscendingList.insert level (entries.map (·.1)) := by
  induction entries with
  | nil => rfl
  | cons e rest ih =>
      simp only [insertEntry, List.map_cons, AscendingList.insert]
      split
      · rfl
      · split
        · simp [ih]
        · have : level = e.1 := by omega
          simp [this]

/-- Puts `a` at `level`, in place of what was there. -/
def insert (m : LevelMap α) (level : Nat) (a : α) : LevelMap α where
  entries := insertEntry level a m.entries
  ascending := by
    rw [map_fst_insertEntry]
    exact m.ascending.insert

theorem lookup_insertEntry (level other : Nat) (a : α) (entries : List (Nat × α)) :
    lookup other (insertEntry level a entries) =
      if level = other then some a else lookup other entries := by
  induction entries with
  | nil => simp [insertEntry, lookup]
  | cons e rest ih => grind [insertEntry, lookup]

theorem get?_insert (m : LevelMap α) (level other : Nat) (a : α) :
    (m.insert level a).get? other = if level = other then some a else m.get? other :=
  lookup_insertEntry level other a m.entries

theorem get?_empty (level : Nat) : (empty : LevelMap α).get? level = none := rfl

end LevelMap

end MultisigTree
