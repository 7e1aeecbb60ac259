import MultisigTree.BigEndian
import MultisigTree.Fault

/-!
# Packets

What travels between nodes: the number of the sender in four bytes, the level
in one, and the encoded multi-signature.
-/
namespace MultisigTree

structure Packet where
  origin : Int32
  level : UInt8
  payload : List UInt8
  deriving DecidableEq, Repr

namespace Packet

def encode (p : Packet) : List UInt8 :=
  BigEndian.encodeId p.origin ++ p.level :: p.payload

def decode : List UInt8 → Except Fault Packet
  | a :: b :: c :: d :: level :: payload =>
      .ok ⟨BigEndian.decodeId [a, b, c, d], level, payload⟩
  | bytes => .error (.shortBuffer 5 bytes.length)

theorem decode_encode (p : Packet) : decode p.encode = .ok p := by
  have h := BigEndian.decodeId_encodeId p.origin
  simp only [encode, BigEndian.encodeId, BigEndian.encode, List.cons_append, List.nil_append,
    decode] at h ⊢
  rw [h]

/-- Exactly the byte strings of at least five bytes are packets, each of one
packet only. -/
theorem decode_eq_ok_iff {bytes : List UInt8} {p : Packet} :
    decode bytes = .ok p ↔ bytes = p.encode := by
  constructor
  · intro h
    unfold decode at h
    split at h
    · cases h
      simp only [encode]
      rw [BigEndian.encodeId_decodeId rfl]
      rfl
    · simp at h
  · rintro rfl
    exact decode_encode p

end Packet

end MultisigTree
