import MultisigTree.Bits

/-!
# Arithmetic of fields

The operations of a field, and raising to a power by squaring along the binary
digits of the exponent.
-/
namespace MultisigTree.Curve

class Arith (F : Type) extends Add F, Sub F, Neg F, Mul F where
  zero : F
  one : F
  decEq : DecidableEq F
  /-- The inverse, and zero for zero. -/
  inv : F → F

/-- The binary digits of `n`, the lowest first. -/
def digits (n : Nat) : List Bool :=
  Bits.ofNat (Nat.log2 n + 1) n

namespace Arith

variable {F : Type} [Arith F]

instance : DecidableEq F := decEq

def power (x : F) (n : Nat) : F :=
  (digits n).foldr (fun digit y => if digit then y * y * x else y * y) one

def double (x : F) : F := x + x

def square (x : F) : F := x * x

end Arith

end MultisigTree.Curve
