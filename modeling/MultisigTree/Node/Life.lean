import MultisigTree.Node.Finals
import MultisigTree.Node.Intake
import MultisigTree.Node.Renewal

/-!
# The life of a node

The events a node goes through, in whatever order they come: it is started,
gets packets, verifies offers one at a time, takes in the genuine ones, sends
its periodic updates, is told to go to the next level, and is stopped for
good.
-/
namespace MultisigTree

inductive Event where
  | start
  | receive (packet : Packet)
  | pass
  | takeIn
  | renew
  | nextLevel
  | timeout
  | stop

namespace Node

variable {κ σ : Type}

/-- Starts a new node: it enters its first level, and publishes if it has
enough on its own. -/
def start (s : Setup κ σ) (n : Node κ σ) : Except Crash (Node κ σ) :=
  if n.phase ≠ .waiting then .ok n
  else do
    let n := { n with phase := .running, backlog := n.backlog.start, timer := n.timer.start }
    let (_, n) ← n.advance s
    n.checkFinal s

def stop (n : Node κ σ) : Node κ σ :=
  if n.phase = .stopped then n
  else { n with phase := .stopped, backlog := n.backlog.stop, genuine := [], timer := n.timer.stop }

/-- Verifies the most useful offer that waits, and reports its sender if it is
forged. -/
def pass (s : Setup κ σ) (n : Node κ σ) : Except Crash (Node κ σ) := do
  let (backlog, done) ← n.backlog.pass s.toVerifier s.evaluator n.holdings
  let n := { n with backlog := backlog }
  match done.verdict with
  | some (.genuine o) => return { n with genuine := n.genuine ++ [o] }
  | some (.forged o fault) => return n.record (.report o.origin fault)
  | none => return n

/-- Takes in the earliest genuine offer, and looks whether its level is
complete and whether there is something to publish. -/
def takeIn (s : Setup κ σ) (n : Node κ σ) : Except Crash (Node κ σ) :=
  match n.genuine with
  | [] => .ok n
  | o :: rest =>
      let n := { n with genuine := rest }
      if n.phase = .stopped then .ok n
      else do
        let level := o.level.toNat
        let n := { n with holdings := (n.holdings.add s.scheme level o.multisig).2 }
        let n ← n.checkCompleted s level
        n.checkFinal s

/-- A question of the timer, if it has one; tells what it was answered. -/
def timeout (s : Setup κ σ) (n : Node κ σ) : Except Crash (Option Bool × Node κ σ) :=
  if n.timer.isArmed then do
    let (entered, n) ← n.advance s
    return (some entered, { n with timer := n.timer.asked entered })
  else .ok (none, n)

def step (s : Setup κ σ) (n : Node κ σ) : Event → Except Crash (Node κ σ)
  | .start => n.start s
  | .receive packet => .ok (n.receive s packet)
  | .pass => n.pass s
  | .takeIn => n.takeIn s
  | .renew => n.renew s
  | .nextLevel => (n.advance s).map (·.2)
  | .timeout => (n.timeout s).map (·.2)
  | .stop => .ok n.stop

def run (s : Setup κ σ) : List Event → Node κ σ → Except Crash (Node κ σ)
  | [], n => .ok n
  | e :: rest, n => do run s rest (← n.step s e)

def passes (s : Setup κ σ) : Nat → Node κ σ → Except Crash (Node κ σ)
  | 0, n => .ok n
  | count + 1, n => do
      if n.phase ≠ .running ∨ n.isAtRest then return n
      passes s count (← (← n.pass s).takeIn s)

/-- Verifies and takes in until nothing waits: each pass settles at least one
offer. -/
def settle (s : Setup κ σ) (n : Node κ σ) : Except Crash (Node κ σ) :=
  n.passes s (n.backlog.load + n.genuine.length)

end Node

end MultisigTree
