import MultisigTree.Curve.Groups

/-!
# The pairing

A bilinear map from both groups to `Fp12`, computed up to the final power by a
walk over the binary digits of the curve parameter. Only products of pairings
are compared with one, so a common final power does for all factors.
-/
namespace MultisigTree.Curve.Pairing

open Arith

/-- The size of the curve parameter, which is negative. -/
def parameter : Nat :=
  0xd201000000010000

def line (slope x y : Fp2) (px py : Fp) : Fp12 :=
  ⟨⟨slope * x - y, -(slope * .ofFp px), zero⟩, ⟨zero, .ofFp py, zero⟩⟩

/-- The third point of the curve on a line through points with the first
coordinates `x` and `x'`, with its second coordinate negated. -/
def third (slope x y x' : Fp2) : Fp2 × Fp2 :=
  let x3 := square slope - x - x'
  (x3, slope * (x - x3) - y)

/-- One step of the walk at the point `(x, y)`: doubling, and for a digit one
adding `(qx, qy)`. -/
def step (px py : Fp) (qx qy : Fp2) (digit : Bool) (state : Fp12 × Fp2 × Fp2) :
    Fp12 × Fp2 × Fp2 :=
  let (f, x, y) := state
  let slope := (double (square x) + square x) * inv (double y)
  let f := square f * line slope x y px py
  let (x, y) := third slope x y x
  if digit then
    let slope := (qy - y) * inv (qx - x)
    let f := f * line slope x y px py
    let (x, y) := third slope x y qx
    (f, x, y)
  else (f, x, y)

def miller : G1 → G2 → Fp12
  | .affine px py, .affine qx qy =>
      ((digits parameter).dropLast.foldr (step px py qx qy) (one, qx, qy)).1.conjugate
  | _, _ => one

/-- The power that takes the result of a walk to the pairing, in two parts:
`(modulus ^ 6 - 1) (modulus ^ 2 + 1)` and the rest. -/
def finalPower (f : Fp12) : Fp12 :=
  let f := f.conjugate * inv f
  let f := power f (modulus ^ 2 + 1)
  power f ((modulus ^ 4 - modulus ^ 2 + 1) / order)

def agree (p : G1) (q : G2) (p' : G1) (q' : G2) : Bool :=
  finalPower (miller p q * miller p'.neg q') = one

end MultisigTree.Curve.Pairing
