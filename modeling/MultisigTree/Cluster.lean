import MultisigTree.Node.Life

/-!
# Clusters

Nodes of one roster and the packets in transit between them. Whatever a node
sends is in transit to each of its receivers until it is taken out, and then
delivered or lost. Packets to members without a node are lost.
-/
namespace MultisigTree

def Node.actionsSince {κ σ : Type} (old new : Node κ σ) : List (Action κ σ) :=
  (new.journal.take (new.journal.length - old.journal.length)).reverse

structure Letter where
  sender : Int32
  receiver : Int32
  packet : Packet
  deriving DecidableEq, Repr

def Action.letters {κ σ : Type} (sender : Int32) : Action κ σ → List Letter
  | .send receivers packet => receivers.map fun m => ⟨sender, m.id, packet⟩
  | _ => []

structure Seat (κ σ : Type) where
  setup : Setup κ σ
  node : Node κ σ

structure Cluster (κ σ : Type) where
  /-- The nodes there are, by increasing member number. -/
  seats : List (Seat κ σ)
  /-- The letters in transit, the earliest sent first. -/
  transit : List Letter
  /-- All letters ever sent, the latest first. -/
  sent : List Letter

namespace Cluster

variable {κ σ : Type}

abbrev Deed (κ σ : Type) := Setup κ σ → Node κ σ → Except Crash (Node κ σ)

def sentSince (old new : Cluster κ σ) : List Letter :=
  (new.sent.take (new.sent.length - old.sent.length)).reverse

def seat? (c : Cluster κ σ) (id : Int32) : Option (Seat κ σ) :=
  c.seats.find? (·.setup.id = id)

def actOn (id : Int32) (deed : Deed κ σ) :
    List (Seat κ σ) → Except Crash (List (Seat κ σ) × List Letter)
  | [] => return ([], [])
  | seat :: rest => do
      if seat.setup.id = id then
        let node ← deed seat.setup seat.node
        return ({ seat with node := node } :: rest,
          (seat.node.actionsSince node).flatMap (Action.letters id))
      let (rest, letters) ← actOn id deed rest
      return (seat :: rest, letters)

/-- Does the deed to the node of one member; what it sends is in transit. -/
def act (c : Cluster κ σ) (id : Int32) (deed : Deed κ σ) : Except Crash (Cluster κ σ) := do
  let (seats, letters) ← actOn id deed c.seats
  return ⟨seats, c.transit ++ letters, letters.reverse ++ c.sent⟩

def actAll (c : Cluster κ σ) (deed : Deed κ σ) : Except Crash (Cluster κ σ) :=
  (c.seats.map (·.setup.id)).foldlM (fun c id => c.act id deed) c

def hear (packet : Packet) : Deed κ σ := fun s n => (n.receive s packet).settle s

def startUp : Deed κ σ := fun s n => do (← n.start s).settle s

/-- The letter in transit that was sent first, or the one sent last. -/
def next? (c : Cluster κ σ) (latest : Bool) : Option (Letter × Cluster κ σ) :=
  if latest then c.transit.getLast?.map fun l => (l, { c with transit := c.transit.dropLast })
  else c.transit.head?.map fun l => (l, { c with transit := c.transit.tail })

def deliver (latest : Bool) (lost : Letter → Bool) (c : Cluster κ σ) :
    Except Crash (Cluster κ σ) :=
  match c.next? latest with
  | none => .ok c
  | some (letter, c) =>
      if lost letter then .ok c else c.act letter.receiver (hear letter.packet)

def deliverMany (latest : Bool) (lost : Letter → Bool) :
    Nat → Cluster κ σ → Except Crash (Cluster κ σ)
  | 0, c => return c
  | count + 1, c => do
      if c.transit.isEmpty then return c
      deliverMany latest lost count (← c.deliver latest lost)

/-- The first signature each node published with so many contributions, if all
nodes have one. -/
def outcomes? (c : Cluster κ σ) (card : Nat) : Option (List (Multisig σ)) :=
  c.seats.mapM fun seat => seat.node.published.reverse.find? (card ≤ ·.card)

/-- Delivers what is in transit; when nothing is, the nodes send their updates
and their timers ask. -/
def round (c : Cluster κ σ) : Except Crash (Cluster κ σ) := do
  let c ← deliverMany false (fun _ => false) c.transit.length c
  if c.transit.isEmpty then
    let c ← c.actAll fun s n => n.renew s
    c.actAll fun s n => (n.timeout s).map (·.2)
  else return c

def gather (card : Nat) : (rounds : Nat) → Cluster κ σ → Except Crash (Cluster κ σ)
  | 0, c => return c
  | rounds + 1, c => do
      if (c.outcomes? card).isSome then return c
      gather card rounds (← c.round)

end Cluster

end MultisigTree
