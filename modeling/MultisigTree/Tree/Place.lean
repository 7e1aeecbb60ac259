import MultisigTree.Fault
import MultisigTree.Roster
import MultisigTree.Tree.Walk

/-!
# A member's place in the tree

From where a member stands, level 0 is the member itself, and level `l` is the
subtree of `2 ^ (l - 1)` leaves beside its own subtree of that size. The level
after the last one is the whole tree. The roster need not fill the tree, so a
level may be cut off at the right edge or be empty.
-/
namespace MultisigTree

structure Place where
  size : Nat
  leaf : Nat
  leaf_lt : leaf < size

namespace Place

def of (size : Nat) (id : Int32) : Except Fault Place :=
  if h : 0 ≤ id.toInt ∧ id.toInt.toNat < size then .ok ⟨size, id.toInt.toNat, h.2⟩
  else .error (.unknownMember id)

variable (p : Place)

def maxLevel : Nat :=
  Walk.depth p.size

def checkLevel (level : Nat) : Except Fault Unit :=
  if level ≤ p.maxLevel + 1 then .ok () else .error (.levelBeyond level (p.maxLevel + 1))

/-- The members of a level: the subtree beside the member's own, as far as
there are members in it. -/
def peers (level : Nat) : Except Fault Span := do
  p.checkLevel level
  let s := Walk.walk p.maxLevel p.leaf level true
  if p.size ≤ s.lo then throw (.levelEmpty level)
  return s.clip p.size

/-- The members of all the levels below `level`: the member's own subtree. -/
def below (level : Nat) : Except Fault Span := do
  p.checkLevel level
  return (Walk.walk p.maxLevel p.leaf level false).clip p.size

/-- How many members a level has; none if there is no such level. -/
def sizeAt (level : Nat) : Nat :=
  match p.peers level with
  | .ok s => s.size
  | .error _ => 0

def levels : List Nat :=
  (List.range' 1 p.maxLevel).filter fun level => (p.peers level).toBool

def indexAt (id : Int32) (level : Nat) : Except Fault Nat := do
  let s ← p.peers level
  if 0 ≤ id.toInt ∧ s.Contains id.toInt.toNat then return id.toInt.toNat - s.lo
  throw (.outsideLevel id (s.lo, s.hi) level)

def membersAt {κ : Type} (roster : Roster κ) (level : Nat) :
    Except Fault (Array (Member κ)) := do
  let s ← p.peers level
  match roster.members? s.lo s.hi with
  | some members => return members
  | none => throw (.unlisted (s.lo, s.hi))

end Place

end MultisigTree
