import MultisigTree.Word

/-!
# Bit strings

A byte string as the string of its bits, the least significant bit of each
byte first. A bit string is read as if zeros went on for ever, so zeros at its
end say nothing and `trim` takes them away.
-/
namespace MultisigTree.Bits

/-- The number whose binary digits are `bits`, the lowest first. -/
def toNat : List Bool → Nat
  | [] => 0
  | b :: bits => b.toNat + 2 * toNat bits

/-- The lowest `width` binary digits of `n`. -/
def ofNat : (width : Nat) → Nat → List Bool
  | 0, _ => []
  | width + 1, n => (n % 2 == 1) :: ofNat width (n / 2)

def ofBytes (bytes : List UInt8) : List Bool :=
  bytes.flatMap fun b => ofNat 8 b.toNat

/-- Eight bits a byte, the last byte filled up with zeros. -/
def toBytes : List Bool → List UInt8
  | a :: b :: c :: d :: e :: f :: g :: h :: rest =>
      UInt8.ofNat (toNat [a, b, c, d, e, f, g, h]) :: toBytes rest
  | [] => []
  | bits => [UInt8.ofNat (toNat bits)]

/-- Without the zeros at the end. -/
def trim : List Bool → List Bool
  | [] => []
  | b :: bits =>
      match trim bits with
      | [] => if b then [true] else []
      | rest => b :: rest

theorem toNat_lt (bits : List Bool) : toNat bits < 2 ^ bits.length := by
  induction bits with
  | nil => decide
  | cons b bits ih =>
      rw [toNat, List.length_cons, Nat.pow_succ]
      cases b <;> simp <;> omega

theorem length_ofNat (width n : Nat) : (ofNat width n).length = width := by
  induction width generalizing n with
  | zero => rfl
  | succ width ih => simp [ofNat, ih]

theorem toNat_ofNat (width n : Nat) : toNat (ofNat width n) = n % 2 ^ width := by
  induction width generalizing n with
  | zero => simp [ofNat, toNat, Nat.mod_one]
  | succ width ih =>
      rw [ofNat, toNat, ih, Nat.pow_succ, Nat.mul_comm (2 ^ width) 2, Nat.mod_mul]
      have : n % 2 = 0 ∨ n % 2 = 1 := by omega
      rcases this with h | h <;> simp [h]

theorem ofNat_toNat (bits : List Bool) : ofNat bits.length (toNat bits) = bits := by
  induction bits with
  | nil => rfl
  | cons b bits ih =>
      rw [List.length_cons, ofNat, toNat]
      have h : (b.toNat + 2 * toNat bits) / 2 = toNat bits := by
        have := b.toNat_lt
        omega
      rw [h, ih]
      cases b <;> simp

end MultisigTree.Bits
