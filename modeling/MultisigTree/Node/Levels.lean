import MultisigTree.Node.Basic

/-!
# Moving up the levels

When a node enters a level it sends what it holds for the levels below to the
first members of that level, and when a level completes it does so again, to
the next members of each level entered above. A node moves on from a complete
level at once.
-/
namespace MultisigTree.Node

variable {κ σ : Type}

/-- Sends a multi-signature to members of a level. One that has no written
form is not sent. -/
def sendTo (s : Setup κ σ) (n : Node κ σ) (level : Nat) (m : Multisig σ)
    (receivers : List (Member κ)) : Node κ σ :=
  match m.encode s.scheme with
  | .ok payload => n.record (.send receivers ⟨s.id, UInt8.ofNat level, payload⟩)
  | .error _ => n

def aggregateBelow (s : Setup κ σ) (n : Node κ σ) (level : Nat) :
    Except Crash (Option (Multisig σ)) := do
  let lower ← Word.sub level 1
  n.holdings.combined s.scheme s.place lower

def approach (s : Setup κ σ) (n : Node κ σ) (level : Nat) : Except Crash (Node κ σ) := do
  let (receivers?, contacts) ← s.place.contact s.roster s.order level s.settings.candidates
    n.contacts
  let n := { n with contacts := contacts }
  match receivers? with
  | none => return n
  | some receivers =>
      match ← n.aggregateBelow s level with
      | some m => return n.sendTo s level m receivers
      | none => return n

def climb (s : Setup κ σ) : (steps : Nat) → (entered : Bool) → Node κ σ →
    Except Crash (Bool × Node κ σ)
  | 0, entered, n => return (entered, n)
  | steps + 1, entered, n => do
      let level := n.level + 1
      let n := { n with level := level }
      if s.place.sizeAt level = 0 then climb s steps entered n
      else
        let n := { n with started := AscendingList.insert level n.started }
        let n ← n.approach s level
        if n.completed.contains level then climb s steps true n else return (true, n)

/-- Moves to the next level that has members, and on as long as the level
reached is complete. Tells whether a level was entered. -/
def advance (s : Setup κ σ) (n : Node κ σ) : Except Crash (Bool × Node κ σ) :=
  if n.phase = .stopped then .ok (false, n)
  else climb s (s.maxLevel - n.level) false n

def approachAll (s : Setup κ σ) : List Nat → Node κ σ → Except Crash (Node κ σ)
  | [], n => return n
  | level :: rest, n => do approachAll s rest (← n.approach s level)

/-- Marks a level as complete if it is, tells the levels above, and moves on
if the node stood there. -/
def checkCompleted (s : Setup κ σ) (n : Node κ σ) (level : Nat) : Except Crash (Node κ σ) :=
  if n.completed.contains level then .ok n
  else
    match n.holdings.best? level with
    | none => .error (.noEntry level)
    | some held =>
        if held.card < s.place.sizeAt level then .ok n
        else do
          let n := { n with completed := AscendingList.insert level n.completed }
          let n ← approachAll s (n.started.filter (level < ·)) n
          if level = n.level then
            let (_, n) ← n.advance s
            return n
          else return n

end MultisigTree.Node
