import MultisigTree.Packet
import MultisigTree.Proofs.CanonicalMasks
import MultisigTree.Proofs.Vouching

/-!
# Multi-signatures in packets

The written form of a multi-signature is the size of the coded mask, the coded
mask and the signature. A text that is read as a multi-signature has these
three parts (`Multisig.parts_of_decode`), and the mask in it is the written
form of the mask read. So writing again what was read from a text changes at
most the signature. Over the plain scheme, whatever can be written reaches the
receiver of a packet unchanged (`Multisig.packet_round_trip`).
-/
namespace MultisigTree.Multisig

variable {κ σ : Type} {scheme : Scheme κ σ} {m : Multisig σ}

theorem parts_of_decode {bytes : List UInt8} (h : decode scheme bytes = .ok m) :
    ∃ mask signature, bytes = BigEndian.encode 2 mask.length ++ mask ++ signature ∧
      m.mask.encode = .ok mask ∧ scheme.decode signature = .ok m.signature := by
  unfold decode at h
  by_cases hshort : bytes.length < 2
  · simp only [if_pos hshort] at h
    cases h
  · simp only [if_neg hshort, bind, Except.bind] at h
    generalize hsize : BigEndian.decode (bytes.take 2) = size at h
    by_cases hcut : bytes.length < 2 + size
    · simp only [if_pos hcut] at h
      cases h
    · simp only [if_neg hcut] at h
      cases hmask : Mask.decode ((bytes.drop 2).take size) with
      | error fault =>
          rw [hmask] at h
          cases h
      | ok mask =>
          simp only [hmask] at h
          cases hsignature : scheme.decode (bytes.drop (2 + size)) with
          | error cause =>
              rw [hsignature] at h
              cases h
          | ok signature =>
              rw [hsignature] at h
              cases h
              have hstart : (bytes.take 2).length = 2 := List.length_take_of_le (by omega)
              have hlen : ((bytes.drop 2).take size).length = size := by
                rw [List.length_take, List.length_drop]
                omega
              have hcode := BigEndian.encode_decode (bytes.take 2)
              rw [hstart, hsize] at hcode
              refine ⟨(bytes.drop 2).take size, bytes.drop (2 + size), ?_,
                Mask.encode_of_decode hmask, hsignature⟩
              rw [hlen, hcode, List.append_assoc, ← List.drop_drop, List.take_append_drop,
                List.take_append_drop]

theorem decode_eq_ok_iff {bytes : List UInt8} :
    decode scheme bytes = .ok m ↔ ∃ mask signature,
      bytes = BigEndian.encode 2 mask.length ++ mask ++ signature ∧
        m.mask.encode = .ok mask ∧ scheme.decode signature = .ok m.signature := by
  refine ⟨parts_of_decode, ?_⟩
  rintro ⟨mask, signature, rfl, hmask, hsignature⟩
  exact decode_parts hmask hsignature

theorem encode_ne_maskTooLarge (scheme : Scheme κ σ) (m : Multisig σ) (size : Nat) :
    m.encode scheme ≠ .error (.maskTooLarge size) := by
  unfold encode
  cases hmask : m.mask.encode with
  | error fault =>
      intro h
      cases h
      unfold Mask.encode at hmask
      split at hmask <;> cases hmask
  | ok bytes =>
      have hlt := Mask.length_encode_lt hmask
      simp only [bind, Except.bind, if_pos hlt]
      nofun

theorem rewrite_of_decode {bytes : List UInt8}
    (hscheme : ∀ s, scheme.decode (scheme.encode s) = .ok s) (h : decode scheme bytes = .ok m) :
    ∃ mask signature payload, m.mask.encode = .ok mask ∧
      bytes = BigEndian.encode 2 mask.length ++ mask ++ signature ∧
      payload = BigEndian.encode 2 mask.length ++ mask ++ scheme.encode m.signature ∧
      m.encode scheme = .ok payload ∧ decode scheme payload = .ok m := by
  obtain ⟨mask, signature, hbytes, hmask, -⟩ := parts_of_decode h
  have hencode : m.encode scheme =
      .ok (BigEndian.encode 2 mask.length ++ mask ++ scheme.encode m.signature) :=
    encode_eq_ok_iff.2 ⟨mask, hmask, rfl⟩
  exact ⟨mask, signature, _, hmask, hbytes, rfl, hencode,
    decode_encode (hscheme m.signature) hencode⟩

/-- Over the plain scheme the multi-signatures of fewer than `2 ^ 16` positions
can be written, and no others: the coded mask always fits its two-byte size. A
packet that carries one is read back, and so is the multi-signature from its
payload. Whatever is read from a text, whichever order and repetition of signers
it has, can be written again with the same mask byte for byte, and is read from
that. -/
theorem packet_round_trip (origin : Int32) (level : UInt8) (m : Multisig Plain.Signature) :
    ((∃ payload, m.encode Plain.scheme = .ok payload) ↔ m.length < 2 ^ 16) ∧
      (∀ size, m.encode Plain.scheme ≠ .error (.maskTooLarge size)) ∧
      (∀ payload, m.encode Plain.scheme = .ok payload →
        Packet.decode (Packet.encode ⟨origin, level, payload⟩) = .ok ⟨origin, level, payload⟩ ∧
          decode Plain.scheme payload = .ok m) ∧
      ∀ bytes, decode Plain.scheme bytes = .ok m →
        ∃ mask signature payload, m.mask.encode = .ok mask ∧
          bytes = BigEndian.encode 2 mask.length ++ mask ++ signature ∧
          payload = BigEndian.encode 2 mask.length ++ mask ++ Plain.scheme.encode m.signature ∧
          m.encode Plain.scheme = .ok payload ∧ decode Plain.scheme payload = .ok m := by
  have hscheme := Plain.lawful_scheme.decode_encode
  refine ⟨encode_isOk_iff, encode_ne_maskTooLarge _ m, fun payload h => ?_, fun bytes h => ?_⟩
  · exact ⟨Packet.decode_encode _, decode_encode (hscheme m.signature) h⟩
  · exact rewrite_of_decode hscheme h

/-- A forged signature of members -2 and 3 under a mask of ten positions, read
from a text that names its signers out of order and one of them twice. -/
theorem packet_round_trip_of_forged :
    ∃ m : Multisig Plain.Signature, m = ⟨.ofList 10 [1, 9], ⟨.ofList [3, -2], false⟩⟩ ∧
      m.encode Plain.scheme =
        .ok [0, 4, 0, 10, 216, 11, 0, 255, 255, 255, 254, 0, 0, 0, 3] ∧
      Packet.decode (Packet.encode
          ⟨-1, 255, [0, 4, 0, 10, 216, 11, 0, 255, 255, 255, 254, 0, 0, 0, 3]⟩) =
        .ok ⟨-1, 255, [0, 4, 0, 10, 216, 11, 0, 255, 255, 255, 254, 0, 0, 0, 3]⟩ ∧
      decode Plain.scheme [0, 4, 0, 10, 216, 11, 0, 255, 255, 255, 254, 0, 0, 0, 3] = .ok m ∧
      decode Plain.scheme [0, 4, 0, 10, 216, 11, 7, 0, 0, 0, 3, 255, 255, 255, 254, 0, 0, 0, 3] =
        .ok m ∧
      ∃ mask signature, m.mask.encode = .ok mask ∧
        [0, 4, 0, 10, 216, 11, 7, 0, 0, 0, 3, 255, 255, 255, 254, 0, 0, 0, 3] =
          BigEndian.encode 2 mask.length ++ mask ++ signature := by
  have hwrite : (⟨.ofList 10 [1, 9], ⟨.ofList [3, -2], false⟩⟩ : Multisig Plain.Signature).encode
      Plain.scheme = .ok [0, 4, 0, 10, 216, 11, 0, 255, 255, 255, 254, 0, 0, 0, 3] := by decide
  have hread : decode Plain.scheme
      [0, 4, 0, 10, 216, 11, 7, 0, 0, 0, 3, 255, 255, 255, 254, 0, 0, 0, 3] =
      .ok ⟨.ofList 10 [1, 9], ⟨.ofList [3, -2], false⟩⟩ := by decide +kernel
  have htrip := packet_round_trip (-1) 255 ⟨.ofList 10 [1, 9], ⟨.ofList [3, -2], false⟩⟩
  have hcarried := htrip.2.2.1 _ hwrite
  obtain ⟨mask, signature, -, hmask, hbytes, -⟩ := htrip.2.2.2 _ hread
  exact ⟨_, rfl, hwrite, hcarried.1, hcarried.2, hread, mask, signature, hmask, hbytes⟩

end MultisigTree.Multisig
