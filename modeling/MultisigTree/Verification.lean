import MultisigTree.Tree.Contact
import MultisigTree.Multisig

/-!
# Verifying an offer

An offer is genuine if its mask has one position for each member of its level
and its signature verifies under the merged keys of the marked ones.
-/
namespace MultisigTree

/-- All that a node needs to verify offers: its place among the members of a
roster, the signature scheme and the message. -/
structure Verifier (κ σ : Type) where
  scheme : Scheme κ σ
  roster : Roster κ
  place : Place
  message : List UInt8

namespace Verifier

variable {κ σ : Type}

def verify (v : Verifier κ σ) (o : Offer σ) : Except Failure Unit := do
  let members ← (v.place.membersAt v.roster o.level.toNat).mapError .refused
  if o.multisig.length ≠ members.size then
    throw (.refused (.maskLength members.size o.multisig.length))
  let signers ← (Member.select members o.multisig.mask.ones).mapError .crashed
  let key := v.scheme.aggregateKey (signers.map (·.key))
  (v.scheme.check key v.message o.multisig.signature).mapError fun cause =>
    .refused (.scheme cause)

end Verifier

end MultisigTree
