import MultisigTree.Multisig
import MultisigTree.Proofs.RunLengthCode

/-!
# Written forms are read back

A mask of fewer than `2 ^ 16` positions has a written form, and so has every
multi-signature with such a mask: the coding of the mask always fits its
two-byte size. Reading a written form gives back what was written.
-/
namespace MultisigTree

namespace Mask

theorem decode_encode {m : Mask} {bytes : List UInt8} (h : m.encode = .ok bytes) :
    decode bytes = .ok m := by
  unfold encode at h
  split at h
  · rename_i hlen
    rw [Except.ok.injEq] at h
    subst h
    have hsize : (BigEndian.encode 2 m.length).length = 2 := BigEndian.length_encode 2 _
    have htake : (BigEndian.encode 2 m.length ++ RunLength.encode m.runs).take 2 =
        BigEndian.encode 2 m.length := List.take_left' hsize
    have hdrop : (BigEndian.encode 2 m.length ++ RunLength.encode m.runs).drop 2 =
        RunLength.encode m.runs := List.drop_left' hsize
    have hlength : BigEndian.decode (BigEndian.encode 2 m.length) = m.length := by
      rw [BigEndian.decode_encode]
      omega
    have htotal := m.total_runs_le
    have hshort : ¬ (BigEndian.encode 2 m.length ++ RunLength.encode m.runs).length < 2 := by
      rw [List.length_append, hsize]
      omega
    simp only [decode, if_neg hshort, htake, hdrop, hlength,
      RunLength.decode_encode m.proper_runs (by omega), m.ofRuns?_runs]
  · cases h

theorem length_encode_lt {m : Mask} {bytes : List UInt8} (h : m.encode = .ok bytes) :
    bytes.length < 2 ^ 16 := by
  unfold encode at h
  split at h
  · rw [Except.ok.injEq] at h
    subst h
    have := RunLength.length_encode_le m.proper_runs
    have := m.total_runs_le
    rw [List.length_append, BigEndian.length_encode]
    omega
  · cases h

end Mask

namespace Multisig

variable {κ σ : Type} {scheme : Scheme κ σ} {m : Multisig σ}

theorem encode_eq_ok_iff {payload : List UInt8} :
    m.encode scheme = .ok payload ↔ ∃ bytes, m.mask.encode = .ok bytes ∧
      payload = BigEndian.encode 2 bytes.length ++ bytes ++ scheme.encode m.signature := by
  unfold encode
  cases h : m.mask.encode with
  | error fault => simp [bind, Except.bind]
  | ok bytes =>
      have hlt := Mask.length_encode_lt h
      simp only [bind, Except.bind, if_pos hlt, pure, Except.pure, Except.ok.injEq]
      constructor
      · intro hp
        exact ⟨bytes, rfl, hp.symm⟩
      · rintro ⟨_, rfl, hp⟩
        exact hp.symm

/-- Exactly the multi-signatures of fewer than `2 ^ 16` positions have a
written form. -/
theorem encode_isOk_iff : (∃ payload, m.encode scheme = .ok payload) ↔ m.length < 2 ^ 16 := by
  rw [length, ← Mask.encode_isOk_iff]
  constructor
  · rintro ⟨payload, h⟩
    obtain ⟨bytes, hbytes, -⟩ := encode_eq_ok_iff.1 h
    exact ⟨bytes, hbytes⟩
  · rintro ⟨bytes, h⟩
    exact ⟨_, encode_eq_ok_iff.2 ⟨bytes, h, rfl⟩⟩

/-- A coded mask with its size in front and a signature behind it are read. -/
theorem decode_parts {mask signature : List UInt8} (hmask : m.mask.encode = .ok mask)
    (hsignature : scheme.decode signature = .ok m.signature) :
    decode scheme (BigEndian.encode 2 mask.length ++ mask ++ signature) = .ok m := by
  have hlt := Mask.length_encode_lt hmask
  have hsize : (BigEndian.encode 2 mask.length).length = 2 := BigEndian.length_encode 2 _
  have htake : (BigEndian.encode 2 mask.length ++ (mask ++ signature)).take 2 =
      BigEndian.encode 2 mask.length := List.take_left' hsize
  have hdrop : (BigEndian.encode 2 mask.length ++ (mask ++ signature)).drop 2 =
      mask ++ signature := List.drop_left' hsize
  have hcount : BigEndian.decode (BigEndian.encode 2 mask.length) = mask.length := by
    rw [BigEndian.decode_encode]
    omega
  have hcut : (mask ++ signature).take mask.length = mask := List.take_left
  have hrest : (BigEndian.encode 2 mask.length ++ (mask ++ signature)).drop (2 + mask.length) =
      signature := by
    rw [← List.drop_drop, hdrop, List.drop_left]
  have hlong : (BigEndian.encode 2 mask.length ++ (mask ++ signature)).length =
      2 + mask.length + signature.length := by
    simp only [List.length_append, hsize]
    omega
  rw [List.append_assoc]
  simp only [decode, htake, hdrop, hcount, hcut, hrest, hlong, Mask.decode_encode hmask, hsignature]
  rw [if_neg (by omega), if_neg (by omega)]
  rfl

theorem decode_encode {payload : List UInt8}
    (hscheme : scheme.decode (scheme.encode m.signature) = .ok m.signature)
    (h : m.encode scheme = .ok payload) : decode scheme payload = .ok m := by
  obtain ⟨mask, hmask, rfl⟩ := encode_eq_ok_iff.1 h
  exact decode_parts hmask hscheme

end Multisig

end MultisigTree
