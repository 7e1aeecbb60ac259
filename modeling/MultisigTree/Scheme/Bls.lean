import MultisigTree.Curve.Compressed
import MultisigTree.Curve.HashToG2
import MultisigTree.Curve.Pairing
import MultisigTree.Scheme.Basic
import MultisigTree.Scheme.KeyCache

/-!
# The BLS scheme

Signatures on the curve BLS12-381. A secret key is a number, its public key
that multiple of the generator of the first group, and its signature that
multiple of the message hashed to the second group. Merging is adding, and a
signature is checked with the pairing.
-/
namespace MultisigTree.Bls

open Curve

abbrev Key := G1

abbrev Signature := G2

/-- What makes the hashes of this scheme its own. -/
def tag : List UInt8 :=
  "BLS_SIG_BLS12381G2_XMD:SHA-256_SSWU_RO_NUL_".toUTF8.toList

def keyWidth : Nat := 48

def signatureWidth : Nat := 96

/-- A secret key from its bytes, the lowest first. -/
def secretOfBytes (bytes : List UInt8) : Nat :=
  BigEndian.decode bytes.reverse

def publicKey (secret : Nat) : Key :=
  G1.generator.times secret

def sign (secret : Nat) (message : List UInt8) : Signature :=
  (HashToG2.hash tag message).times secret

/-- The point at infinity is nobody's key and verifies nothing. -/
def verifies (key : Key) (message : List UInt8) (signature : Signature) : Bool :=
  key ≠ .infinity &&
    Pairing.agree key (HashToG2.hash tag message) G1.generator signature

def encodeKey (key : Key) : List UInt8 :=
  G1.compression.compress key

def decodeKey (bytes : List UInt8) : Except EncodingFault Key :=
  if bytes.length ≠ keyWidth then .error (.keyLength bytes.length)
  else
    match G1.compression.decompress? bytes with
    | some key => .ok key
    | none => .error .keyPoint

def encodeSignature (signature : Signature) : List UInt8 :=
  G2.compression.compress signature

def decodeSignature (bytes : List UInt8) : Except SchemeFault Signature :=
  if bytes.length ≠ signatureWidth then
    .error (.malformedSignature (.signatureLength bytes.length))
  else
    match G2.compression.decompress? bytes with
    | some signature => .ok signature
    | none => .error (.malformedSignature .signaturePoint)

def scheme : Scheme Key Signature where
  neutralKey := .infinity
  neutralSignature := .infinity
  mergeKeys := Point.add
  merge := Point.add
  verifies := verifies
  encode := encodeSignature
  decode := decodeSignature

/-- The decoded keys kept by a node. -/
def cache : KeyCache Key :=
  .empty 10000

/-- `decodeKey`, by way of a cache. -/
def decodeKeyVia (c : KeyCache Key) (bytes : List UInt8) :
    Except EncodingFault Key × KeyCache Key :=
  c.decode keyWidth decodeKey bytes

end MultisigTree.Bls
