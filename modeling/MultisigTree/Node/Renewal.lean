import MultisigTree.Node.Levels

/-!
# Periodic updates

At each update a node sends, for each level entered, what it holds below to
the next members of the level, going round, until all of them have been sent
it. An aggregate with more contributions starts the round anew.
-/
namespace MultisigTree

/-- `count` members one after the other from position `start`, going round. -/
def Member.cycle {κ : Type} (members : Array (Member κ)) (start count : Nat) :
    Except Crash (List (Member κ)) := do
  let positions ← (List.range count).mapM fun k => do
    Word.mod (← Word.add start k) members.size
  Member.select members positions

namespace Node

variable {κ σ : Type}

def renewLevel (s : Setup κ σ) (n : Node κ σ) (level : Nat) : Except Crash (Node κ σ) :=
  match s.place.membersAt s.roster level with
  | .error _ => .ok n
  | .ok members => do
      match ← n.aggregateBelow s level with
      | none => return n
      | some m =>
          let old := (n.renewals.get? level).getD {}
          let now := if old.card < m.card then { old with card := m.card, sent := 0 } else old
          if members.size ≤ now.sent then
            return { n with renewals := n.renewals.insert level now }
          let count := min s.settings.updates members.size
          let receivers ← Member.cycle members now.next count
          let next ← Word.mod (← Word.add now.next count) members.size
          let sent ← Word.add now.sent count
          let n := { n with renewals := n.renewals.insert level { now with next, sent } }
          return n.sendTo s level m receivers

def renewAll (s : Setup κ σ) : List Nat → Node κ σ → Except Crash (Node κ σ)
  | [], n => return n
  | level :: rest, n => do renewAll s rest (← n.renewLevel s level)

def renew (s : Setup κ σ) (n : Node κ σ) : Except Crash (Node κ σ) :=
  if n.phase = .running then renewAll s n.started n else .ok n

end Node

end MultisigTree
