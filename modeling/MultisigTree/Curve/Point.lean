import MultisigTree.Curve.Arith

/-!
# Points of a curve

The group of the curve `y² = x³ + b`, whatever `b` is: the formulas of the group
do not mention it. Sums are computed on fractions, with one inverse at the end.
-/
namespace MultisigTree.Curve

inductive Point (F : Type) where
  | infinity
  | affine (x y : F)
  deriving DecidableEq

/-- The point `(x / z², y / z³)`, the point at infinity when `z` is zero. -/
structure Fraction (F : Type) where
  x : F
  y : F
  z : F

namespace Fraction

open Arith

variable {F : Type} [Arith F]

def infinity : Fraction F := ⟨one, one, zero⟩

def ofPoint : Point F → Fraction F
  | .infinity => infinity
  | .affine x y => ⟨x, y, one⟩

def toPoint (p : Fraction F) : Point F :=
  if p.z = zero then .infinity
  else
    let d := inv p.z
    .affine (p.x * (d * d)) (p.y * (d * d * d))

def twice (p : Fraction F) : Fraction F :=
  let a := square p.x
  let b := square p.y
  let c := square b
  let d := double (square (p.x + b) - a - c)
  let e := double a + a
  let x := square e - double d
  ⟨x, e * (d - x) - double (double (double c)), double (p.y * p.z)⟩

def add (p q : Fraction F) : Fraction F :=
  if p.z = zero then q
  else if q.z = zero then p
  else
    let pz := square p.z
    let qz := square q.z
    let px := p.x * qz
    let qx := q.x * pz
    let py := p.y * q.z * qz
    let qy := q.y * p.z * pz
    if px = qx then
      if py = qy then p.twice else infinity
    else
      let h := qx - px
      let h2 := square h
      let h3 := h * h2
      let r := qy - py
      let v := px * h2
      let x := square r - h3 - double v
      ⟨x, r * (v - x) - py * h3, p.z * q.z * h⟩

/-- The multiple of a point, by doubling along the binary digits. -/
def times (n : Nat) (p : Fraction F) : Fraction F :=
  (digits n).foldr (fun digit q => if digit then q.twice.add p else q.twice) infinity

end Fraction

namespace Point

variable {F : Type} [Arith F]

def neg : Point F → Point F
  | .infinity => .infinity
  | .affine x y => .affine x (-y)

def add (p q : Point F) : Point F :=
  ((Fraction.ofPoint p).add (.ofPoint q)).toPoint

def times (n : Nat) (p : Point F) : Point F :=
  ((Fraction.ofPoint p).times n).toPoint

/-- The point lies on the curve `y² = x³ + b`. -/
def isOn (b : F) : Point F → Bool
  | .infinity => true
  | .affine x y => y * y = x * x * x + b

end Point

end MultisigTree.Curve
