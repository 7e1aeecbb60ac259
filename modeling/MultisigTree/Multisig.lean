import MultisigTree.Mask.Wire
import MultisigTree.Scheme.Basic

/-!
# Multi-signatures

A signature together with the mask of those who contributed to it, and its
form on the wire: the size of the encoded mask, two bytes wide, the mask, and
the signature up to the end.
-/
namespace MultisigTree

structure Multisig (σ : Type) where
  mask : Mask
  signature : σ
  deriving DecidableEq

namespace Multisig

variable {κ σ : Type}

def card (m : Multisig σ) : Nat :=
  m.mask.card

def length (m : Multisig σ) : Nat :=
  m.mask.length

def render (m : Multisig σ) : String :=
  s!"ms({m.card}/{m.length})"

def encode (scheme : Scheme κ σ) (m : Multisig σ) : Except Fault (List UInt8) := do
  let mask ← m.mask.encode
  if mask.length < 2 ^ 16 then
    return BigEndian.encode 2 mask.length ++ mask ++ scheme.encode m.signature
  else throw (.maskTooLarge mask.length)

def decode (scheme : Scheme κ σ) (bytes : List UInt8) : Except Fault (Multisig σ) := do
  if bytes.length < 2 then throw (.shortBuffer 2 bytes.length)
  let size := BigEndian.decode (bytes.take 2)
  if bytes.length < 2 + size then throw (.shortBuffer (2 + size) bytes.length)
  let mask ← Mask.decode ((bytes.drop 2).take size)
  match scheme.decode (bytes.drop (2 + size)) with
  | .ok signature => return ⟨mask, signature⟩
  | .error cause => throw (.scheme cause)

end Multisig

/-- A multi-signature as a member sent it: from whom it came, and the level of
the receiver's tree that its mask is about. -/
structure Offer (σ : Type) where
  origin : Int32
  level : UInt8
  multisig : Multisig σ
  deriving DecidableEq

def Offer.render {σ : Type} (o : Offer σ) : String :=
  s!"sig(lvl {o.level} from {o.origin}): {o.multisig.render}"

end MultisigTree
