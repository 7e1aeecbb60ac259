import MultisigTree.Word

/-!
# Rosters

The members that take part, numbered from 0 on. A `Roster` is what a node may
ask about them; `Roster.ofArray` answers from a list of all members.
-/
namespace MultisigTree

structure Member (κ : Type) where
  id : Int32
  address : String
  key : κ
  deriving DecidableEq, Repr

structure Roster (κ : Type) where
  size : Nat
  member? : Nat → Option (Member κ)
  /-- The members from the first bound on and below the second. -/
  members? : Nat → Nat → Option (Array (Member κ))

namespace Roster

variable {κ : Type}

def ofArray (members : Array (Member κ)) : Roster κ where
  size := members.size
  member? i := members[i]?
  members? lo hi := if lo ≤ hi ∧ hi ≤ members.size then some (members.extract lo hi) else none

/-- The same roster, which cannot list members from `bound` on. -/
def listedBelow (roster : Roster κ) (bound : Nat) : Roster κ :=
  { roster with members? := fun lo hi => if hi ≤ bound then roster.members? lo hi else none }

/-- How many members a count asks for. It is read as a member number: from
`2 ^ 31` on it wraps around, and a negative one asks for nobody. -/
def memberCount (n : Nat) : Nat :=
  (Int32.ofNat n).toNatClampNeg

theorem memberCount_of_lt {n : Nat} (h : n < 2 ^ 31) : memberCount n = n :=
  Int32.toNatClampNeg_ofNat_of_lt h

theorem memberCount_lt (n : Nat) : memberCount n < 2 ^ 31 :=
  Int32.toNatClampNeg_lt _

/-- Members 0 to `memberCount n - 1` with the given addresses and keys. -/
def build (n : Nat) (address : Int32 → String) (key : Int32 → κ) : Roster κ :=
  .ofArray <| (Array.range (memberCount n)).map fun i =>
    let id := Int32.ofNat i
    ⟨id, address id, key id⟩

theorem size_build (n : Nat) (address : Int32 → String) (key : Int32 → κ) :
    (build n address key).size = memberCount n := by
  simp [build, ofArray]

end Roster

end MultisigTree
