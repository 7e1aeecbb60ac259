import MultisigTree.LevelMap
import MultisigTree.Random.Shuffle
import MultisigTree.Tree.Place
import MultisigTree.Word

/-!
# Whom to contact next

The members of a level are contacted in an order fixed once for the level,
each at most once: by increasing number, or shuffled with the level as the
stream of the generator, so that not everyone turns to the same members first.
-/
namespace MultisigTree

inductive ContactOrder where
  | ascending
  | shuffled (seed : ChaCha.Key)

def ContactOrder.positions (order : ContactOrder) (level count : Nat) : Array Nat :=
  match order with
  | .ascending => Array.range count
  | .shuffled seed =>
      Shuffle.shuffle (Array.range count) (ChaCha.Generator.start seed (UInt64.ofNat level))

structure Cursor where
  positions : Array Nat
  next : Nat
  deriving Repr

abbrev Contacts := LevelMap Cursor

namespace Contacts

/-- Where the contacts of a level stand, at the start if there were none. -/
def cursorAt (contacts : Contacts) (order : ContactOrder) (level count : Nat) : Cursor :=
  (contacts.get? level).getD ⟨order.positions level count, 0⟩

end Contacts

def Member.select {κ : Type} (members : Array (Member κ)) (positions : List Nat) :
    Except Crash (List (Member κ)) :=
  positions.mapM fun i =>
    match members[i]? with
    | some m => .ok m
    | none => .error (.indexBeyond i members.size)

/-- The next members of a level to contact, at most `count`; none if the level
has none left. -/
def Place.contact {κ : Type} (p : Place) (roster : Roster κ) (order : ContactOrder)
    (level count : Nat) (contacts : Contacts) :
    Except Crash (Option (List (Member κ)) × Contacts) :=
  match p.membersAt roster level with
  | .error _ => .ok (none, contacts)
  | .ok members => do
      let cursor := contacts.cursorAt order level members.size
      if count = 0 ∨ cursor.positions.size ≤ cursor.next then
        return (none, contacts.insert level cursor)
      let reach ← Word.add cursor.next count
      let stop := min reach cursor.positions.size
      let picked ← Member.select members (cursor.positions.extract cursor.next stop).toList
      return (some picked, contacts.insert level { cursor with next := stop })

end MultisigTree
