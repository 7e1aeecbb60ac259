import MultisigTree.Fault

/-!
# Signature schemes

All that the protocol asks of a signature scheme: keys and signatures that can
be merged, each with a neutral value, a check of a signature over a message,
and an encoding of signatures. Nothing else in the library knows more about
keys and signatures than a `Scheme` says.
-/
namespace MultisigTree

structure Scheme (κ σ : Type) where
  neutralKey : κ
  neutralSignature : σ
  mergeKeys : κ → κ → κ
  merge : σ → σ → σ
  /-- The signature was made over the message by all the owners of the key. -/
  verifies : κ → List UInt8 → σ → Bool
  encode : σ → List UInt8
  decode : List UInt8 → Except SchemeFault σ

namespace Scheme

variable {κ σ : Type}

/-- The key of all the listed owners. -/
def aggregateKey (scheme : Scheme κ σ) (keys : List κ) : κ :=
  keys.foldl scheme.mergeKeys scheme.neutralKey

/-- The signatures merged from the left, the first one as it is. -/
def aggregate? (scheme : Scheme κ σ) : List σ → Option σ
  | [] => none
  | s :: rest => some (rest.foldl scheme.merge s)

def check (scheme : Scheme κ σ) (key : κ) (message : List UInt8) (signature : σ) :
    Except SchemeFault Unit :=
  if scheme.verifies key message signature then .ok () else .error .invalidSignature

end Scheme

end MultisigTree
