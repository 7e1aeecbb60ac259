import MultisigTree.BigEndian
import MultisigTree.Curve.Groups

/-!
# Compressed points

A point is written as its first coordinate, the highest byte first, with three
flags in the top bits of the first byte: the form is compressed, the point is
the point at infinity, the second coordinate is the larger of the two. Only
points of the group of prime order are read, and only in this form.
-/
namespace MultisigTree.Curve

/-- How coordinates are written and second coordinates are found. -/
structure Compression (F : Type) where
  width : Nat
  encode : F → List UInt8
  decode? : List UInt8 → Option F
  lift? : F → Option F
  isUpper : F → Bool

namespace Compression

variable {F : Type} [Arith F] (c : Compression F)

def flag (infinity upper : Bool) : List UInt8 → List UInt8
  | [] => []
  | first :: rest =>
      (first ||| 0x80 ||| (if infinity then 0x40 else 0) ||| (if upper then 0x20 else 0)) :: rest

def compress : Point F → List UInt8
  | .infinity => flag true false (List.replicate c.width 0)
  | .affine x y => flag false (c.isUpper y) (c.encode x)

def lift (bytes : List UInt8) : Option (Point F) :=
  match bytes with
  | [] => none
  | first :: rest => do
      let infinity := decide (first &&& 0x40 ≠ 0)
      let upper := decide (first &&& 0x20 ≠ 0)
      if first &&& 0x80 = 0 then none
      let x ← c.decode? ((first &&& 0x1f) :: rest)
      if infinity then
        if x = Arith.zero ∧ !upper then some .infinity else none
      else
        let y ← c.lift? x
        some (.affine x (if c.isUpper y = upper then y else -y))

/-- The point of the group that the bytes stand for. -/
def decompress? (bytes : List UInt8) : Option (Point F) :=
  if bytes.length = c.width then (c.lift bytes).filter isTorsion else none

end Compression

def encodeFp (x : Fp) : List UInt8 :=
  BigEndian.encode 48 x.toNat

def decodeFp? (bytes : List UInt8) : Option Fp :=
  Fp.ofNat? (BigEndian.decode bytes)

namespace G1

def compression : Compression Fp where
  width := 48
  encode := encodeFp
  decode? := decodeFp?
  lift? x := (x * x * x + b).sqrt?
  isUpper := Fp.isUpper

end G1

namespace G2

/-- The part with `u` is written first. -/
def compression : Compression Fp2 where
  width := 96
  encode x := encodeFp x.im ++ encodeFp x.re
  decode? bytes := do
    let im ← decodeFp? (bytes.take 48)
    let re ← decodeFp? (bytes.drop 48)
    return ⟨re, im⟩
  lift? x := (x * x * x + b).sqrt?
  isUpper := Fp2.isUpper

end G2

end MultisigTree.Curve
