import MultisigTree.Node.Basic

/-!
# Packets coming in

A packet is turned into an offer if its sender is a member of the level it
names and its payload is a multi-signature with one position for each member
of that level, at least one of them marked. Anything else is reported with the
first fault found.
-/
namespace MultisigTree

variable {κ σ : Type}

def Setup.read (s : Setup κ σ) (packet : Packet) : Except Fault (Offer σ) := do
  let size := s.roster.size
  if packet.origin.toInt < 0 ∨ size ≤ packet.origin.toInt.toNat then
    throw (.originBeyond packet.origin size)
  let level := packet.level.toNat
  if s.maxLevel < level then throw (.packetLevel packet.level s.maxLevel)
  let expected := s.place.sizeAt level
  if expected = 0 then throw (.levelEmpty level)
  let m ← Multisig.decode s.scheme packet.payload
  if m.length ≠ expected then throw (.maskLength expected m.length)
  if m.card = 0 then throw .noContribution
  let _ ← s.place.indexAt packet.origin level
  return ⟨packet.origin, packet.level, m⟩

namespace Node

/-- Queues the offer of a packet, or reports its sender. A stopped node hears
nothing, and no node hears those it excludes. -/
def receive (s : Setup κ σ) (n : Node κ σ) (packet : Packet) : Node κ σ :=
  if n.phase = .stopped ∨ s.exclusion n.reports packet.origin then n
  else
    match s.read packet with
    | .ok o => { n with backlog := n.backlog.add o }
    | .error fault => n.record (.report packet.origin fault)

end Node

end MultisigTree
