import MultisigTree.Curve.Fp

/-!
# The tower of extension fields

`Fp2` adjoins a square root `u` of -1 to the base field, `Fp6` a cube root `v`
of `1 + u`, and `Fp12` a square root `w` of `v`.
-/
namespace MultisigTree.Curve

/-- `re + im * u`. -/
structure Fp2 where
  re : Fp
  im : Fp
  deriving DecidableEq

namespace Fp2

def ofFp (x : Fp) : Fp2 := ⟨x, Arith.zero⟩

instance : Arith Fp2 where
  add x y := ⟨x.re + y.re, x.im + y.im⟩
  sub x y := ⟨x.re - y.re, x.im - y.im⟩
  neg x := ⟨-x.re, -x.im⟩
  mul x y := ⟨x.re * y.re - x.im * y.im, x.re * y.im + x.im * y.re⟩
  decEq := inferInstance
  zero := ⟨Arith.zero, Arith.zero⟩
  one := ⟨Arith.one, Arith.zero⟩
  inv x :=
    let d := Arith.inv (x.re * x.re + x.im * x.im)
    ⟨x.re * d, -x.im * d⟩

def twist (x : Fp2) : Fp2 := ⟨x.re - x.im, x.re + x.im⟩

/-- A square root by powers, as the prime leaves 3 modulo 4. -/
def sqrt? (x : Fp2) : Option Fp2 :=
  let root := Arith.power x ((modulus - 3) / 4)
  let y := root * x
  let unit := root * y
  let candidate :=
    if unit = -Arith.one then ⟨-y.im, y.re⟩
    else Arith.power (Arith.one + unit) ((modulus - 1) / 2) * y
  if candidate * candidate = x then some candidate else none

/-- The larger of a number and its negative, compared by `im` and then by
`re`. -/
def isUpper (x : Fp2) : Bool :=
  x.im.isUpper || (x.im = Arith.zero && x.re.isUpper)

/-- The parity of the first part that is not zero. -/
def isOdd (x : Fp2) : Bool :=
  x.re.toNat % 2 = 1 || (x.re = Arith.zero && x.im.toNat % 2 = 1)

end Fp2

/-- `a + b * v + c * v²`. -/
structure Fp6 where
  a : Fp2
  b : Fp2
  c : Fp2
  deriving DecidableEq

namespace Fp6

instance : Arith Fp6 where
  add x y := ⟨x.a + y.a, x.b + y.b, x.c + y.c⟩
  sub x y := ⟨x.a - y.a, x.b - y.b, x.c - y.c⟩
  neg x := ⟨-x.a, -x.b, -x.c⟩
  mul x y :=
    ⟨x.a * y.a + (x.b * y.c + x.c * y.b).twist,
      x.a * y.b + x.b * y.a + (x.c * y.c).twist,
      x.a * y.c + x.b * y.b + x.c * y.a⟩
  decEq := inferInstance
  zero := ⟨Arith.zero, Arith.zero, Arith.zero⟩
  one := ⟨Arith.one, Arith.zero, Arith.zero⟩
  inv x :=
    let a := x.a * x.a - (x.b * x.c).twist
    let b := (x.c * x.c).twist - x.a * x.b
    let c := x.b * x.b - x.a * x.c
    let d := Arith.inv (x.a * a + (x.c * b + x.b * c).twist)
    ⟨a * d, b * d, c * d⟩

def twist (x : Fp6) : Fp6 := ⟨x.c.twist, x.a, x.b⟩

end Fp6

/-- `a + b * w`. -/
structure Fp12 where
  a : Fp6
  b : Fp6
  deriving DecidableEq

namespace Fp12

instance : Arith Fp12 where
  add x y := ⟨x.a + y.a, x.b + y.b⟩
  sub x y := ⟨x.a - y.a, x.b - y.b⟩
  neg x := ⟨-x.a, -x.b⟩
  mul x y := ⟨x.a * y.a + (x.b * y.b).twist, x.a * y.b + x.b * y.a⟩
  decEq := inferInstance
  zero := ⟨Arith.zero, Arith.zero⟩
  one := ⟨Arith.one, Arith.zero⟩
  inv x :=
    let d := Arith.inv (x.a * x.a - (x.b * x.b).twist)
    ⟨x.a * d, -x.b * d⟩

/-- `a - b * w`, the power of `a + b * w` by `modulus ^ 6`. -/
def conjugate (x : Fp12) : Fp12 := ⟨x.a, -x.b⟩

end Fp12

end MultisigTree.Curve
