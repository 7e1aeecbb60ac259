import MultisigTree.Word

/-!
# Big-endian integers

Numbers as byte strings of a fixed width, the most significant byte first.
Reading gives back what was written, up to the width (`decode_encode`), and
every byte string is the writing of the number it reads as (`encode_decode`).
-/
namespace MultisigTree.BigEndian

/-- The low `width` bytes of `n`. -/
def encode : (width : Nat) → Nat → List UInt8
  | 0, _ => []
  | width + 1, n => UInt8.ofNat (n / 256 ^ width) :: encode width n

def decode (bytes : List UInt8) : Nat :=
  bytes.foldl (fun n byte => n * 256 + byte.toNat) 0

/-- A member number as four bytes, a negative one in two's complement. -/
def encodeId (id : Int32) : List UInt8 :=
  encode 4 id.toUInt32.toNat

def decodeId (bytes : List UInt8) : Int32 :=
  (UInt32.ofNat (decode bytes)).toInt32

theorem length_encode (width n : Nat) : (encode width n).length = width := by
  induction width with
  | zero => rfl
  | succ width ih => simp [encode, ih]

theorem decode_append (xs ys : List UInt8) :
    decode (xs ++ ys) = decode xs * 256 ^ ys.length + decode ys := by
  suffices ∀ n, ys.foldl (fun n byte => n * 256 + byte.toNat) n = n * 256 ^ ys.length + decode ys by
    rw [decode, List.foldl_append, this]; rfl
  induction ys with
  | nil => simp [decode]
  | cons y ys ih =>
      intro n
      rw [decode, List.foldl_cons, List.foldl_cons, ih, ih, List.length_cons, Nat.pow_succ]
      grind

theorem decode_lt (bytes : List UInt8) : decode bytes < 256 ^ bytes.length := by
  induction bytes with
  | nil => decide
  | cons x xs ih =>
      have h : decode (x :: xs) = x.toNat * 256 ^ xs.length + decode xs := by
        simpa [decode] using decode_append [x] xs
      have : x.toNat + 1 ≤ 256 := x.toNat_lt
      have := Nat.mul_le_mul_right (256 ^ xs.length) this
      rw [h, List.length_cons, Nat.pow_succ]
      grind

theorem decode_encode (width n : Nat) : decode (encode width n) = n % 256 ^ width := by
  induction width with
  | zero => simp [encode, decode, Nat.mod_one]
  | succ width ih =>
      have h : decode (encode (width + 1) n) =
          n / 256 ^ width % 256 * 256 ^ width + decode (encode width n) := by
        simpa [encode, decode, length_encode] using
          decode_append [UInt8.ofNat (n / 256 ^ width)] (encode width n)
      rw [h, ih, Nat.pow_succ, Nat.mod_mul, Nat.mul_comm, Nat.add_comm]

theorem encode_mod (width n : Nat) {m : Nat} (h : width ≤ m) :
    encode width (n % 256 ^ m) = encode width n := by
  induction width with
  | zero => rfl
  | succ width ih =>
      rw [encode, encode, ih (by omega)]
      congr 1
      apply UInt8.toNat_inj.1
      obtain ⟨k, rfl⟩ := Nat.exists_eq_add_of_le h
      have : 256 ^ (width + 1 + k) = 256 ^ width * (256 * 256 ^ k) := by
        rw [Nat.pow_add, Nat.pow_succ, Nat.mul_assoc]
      simp only [UInt8.toNat_ofNat', this, Nat.mod_mul_right_div_self]
      exact Nat.mod_mul_right_mod _ _ _

theorem encode_decode (bytes : List UInt8) : encode bytes.length (decode bytes) = bytes := by
  induction bytes with
  | nil => rfl
  | cons x xs ih =>
      have h : decode (x :: xs) = x.toNat * 256 ^ xs.length + decode xs := by
        simpa [decode] using decode_append [x] xs
      have hlt := decode_lt xs
      rw [List.length_cons, encode, h, Nat.mul_comm, Nat.mul_add_div (by omega),
        Nat.div_eq_of_lt hlt, Nat.add_zero, UInt8.ofNat_toNat,
        ← encode_mod _ _ (Nat.le_refl _), Nat.mul_add_mod, Nat.mod_eq_of_lt hlt, ih]

theorem decodeId_encodeId (id : Int32) : decodeId (encodeId id) = id := by
  have hlt : id.toUInt32.toNat < 256 ^ 4 := id.toUInt32.toNat_lt
  rw [decodeId, encodeId, decode_encode, Nat.mod_eq_of_lt hlt, UInt32.ofNat_toNat,
    Int32.toInt32_toUInt32]

theorem encodeId_decodeId {bytes : List UInt8} (h : bytes.length = 4) :
    encodeId (decodeId bytes) = bytes := by
  have hlt := decode_lt bytes
  rw [h] at hlt
  rw [decodeId, encodeId, UInt32.toUInt32_toInt32, UInt32.toNat_ofNat_of_lt' hlt, ← h,
    encode_decode]

end MultisigTree.BigEndian
