import MultisigTree.Curve.Arith

/-!
# The base field

The integers modulo the 381-bit prime of the curve BLS12-381. The prime leaves
3 modulo 4, so a square root is a power.
-/
namespace MultisigTree.Curve

def modulus : Nat :=
  0x1a0111ea397fe69a4b1ba7b6434bacd764774b84f38512bf6730d2a0f6b0f6241eabfffeb153ffffb9feffffffffaaab

instance : @NeZero Nat Zero.ofOfNat0 modulus := ⟨by decide⟩

structure Fp where
  val : Fin modulus
  deriving DecidableEq

namespace Fp

def ofNat (n : Nat) : Fp := ⟨Fin.ofNat modulus n⟩

def toNat (x : Fp) : Nat := x.val.val

/-- The number itself, if it is below the modulus. -/
def ofNat? (n : Nat) : Option Fp :=
  if h : n < modulus then some ⟨⟨n, h⟩⟩ else none

def inverse (x : Fp) : Fp :=
  ⟨(digits (modulus - 2)).foldr (fun digit y => if digit then y * y * x.val else y * y) 1⟩

instance : Arith Fp where
  add x y := ⟨x.val + y.val⟩
  sub x y := ⟨x.val - y.val⟩
  neg x := ⟨-x.val⟩
  mul x y := ⟨x.val * y.val⟩
  decEq := inferInstance
  zero := ⟨0⟩
  one := ⟨1⟩
  inv := inverse

def sqrt? (x : Fp) : Option Fp :=
  let y := Arith.power x ((modulus + 1) / 4)
  if y * y = x then some y else none

/-- The larger of a number and its negative. -/
def isUpper (x : Fp) : Bool :=
  (modulus - 1) / 2 < x.toNat

end Fp

end MultisigTree.Curve
