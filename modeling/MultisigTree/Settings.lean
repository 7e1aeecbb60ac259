import MultisigTree.Word

/-!
# Settings of a node

How many contributions, in percent of the roster, make a signature worth
publishing, and how many members are contacted when a level starts and at each
periodic update.
-/
namespace MultisigTree

structure Settings where
  quorumPercent : Nat := 51
  /-- Members contacted when a level starts or a level below completes. -/
  candidates : Nat := 10
  updates : Nat := 1
  periodMillis : Nat := 20
  deriving DecidableEq, Repr

namespace Settings

def validate (s : Settings) : Except SettingsFault Unit :=
  if s.quorumPercent = 0 ∨ 100 < s.quorumPercent then .error (.quorum s.quorumPercent)
  else if s.candidates = 0 then .error .candidates
  else if s.updates = 0 then .error .updates
  else if s.periodMillis = 0 then .error .period
  else .ok ()

/-- The fewest contributions that are `quorumPercent` percent of `n`. -/
def threshold (s : Settings) (n : Nat) : Except Crash Nat := do
  let hundredfold ← Word.mul n s.quorumPercent
  return (hundredfold + 99) / 100

end Settings

end MultisigTree
