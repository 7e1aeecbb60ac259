import MultisigTree.Node.Basic

/-!
# Publishing

A node publishes all it holds, as one signature over all members, whenever
that has enough contributions and more than what it published before.
-/
namespace MultisigTree.Node

variable {κ σ : Type}

def checkFinal (s : Setup κ σ) (n : Node κ σ) : Except Crash (Node κ σ) :=
  if n.phase = .stopped then .ok n
  else do
    match ← n.holdings.whole s.scheme s.place with
    | none => return n
    | some m =>
        if m.card < s.threshold then return n
        if n.best.any (m.card ≤ ·.card) then return n
        return { n with best := some m }.record (.publish m)

end MultisigTree.Node
