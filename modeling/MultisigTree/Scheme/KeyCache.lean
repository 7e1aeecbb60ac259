import MultisigTree.Fault

/-!
# Decoding keys once

Decoding a key is dear, and the same keys come again and again. A cache keeps
the decoded keys used last, up to a capacity, under their encodings.
-/
namespace MultisigTree

structure KeyCache (κ : Type) where
  capacity : Nat
  entries : List (List UInt8 × κ)

namespace KeyCache

variable {κ : Type}

def empty (capacity : Nat) : KeyCache κ := ⟨capacity, []⟩

def find? (c : KeyCache κ) (bytes : List UInt8) : Option κ :=
  c.entries.lookup bytes

/-- Puts a key in front, under its encoding; the key used least lately goes if
the cache is full. -/
def use (c : KeyCache κ) (bytes : List UInt8) (key : κ) : KeyCache κ :=
  { c with entries := ((bytes, key) :: c.entries.filter (·.1 != bytes)).take c.capacity }

/-- The key that `decode` gives for the bytes, from the cache if it is there.
Only keys are kept, and only byte strings of the right width are looked up. -/
def decode (width : Nat) (decode : List UInt8 → Except EncodingFault κ) (c : KeyCache κ)
    (bytes : List UInt8) : Except EncodingFault κ × KeyCache κ :=
  if bytes.length ≠ width then (.error (.keyLength bytes.length), c)
  else
    match c.find? bytes with
    | some key => (.ok key, c.use bytes key)
    | none =>
        match decode bytes with
        | .ok key => (.ok key, c.use bytes key)
        | .error fault => (.error fault, c)

end KeyCache

end MultisigTree
