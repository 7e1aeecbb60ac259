import MultisigTree.Curve.Groups
import MultisigTree.Digest.Sha256

/-!
# Hashing to the second group

A message is expanded to 256 bytes with SHA-256, these are read as two numbers
of `Fp2`, each number is mapped to a point of the curve `y² = x³ + 240u x +
1012(1 + u)`, from there by an isogeny of degree 3 to the twisted curve, and
the sum of both points is multiplied into the group of prime order.
-/
namespace MultisigTree.Curve.HashToG2

open Arith

def num (a b : Int) : Fp2 :=
  ⟨.ofNat (a % modulus).toNat, .ofNat (b % modulus).toNat⟩

/-- The bytes number `index` of the expansion, in chunks of 32, each from the
one before. -/
def chunks (base : List UInt8) (tag : List UInt8) :
    (count : Nat) → (index : Nat) → (previous : List UInt8) → List (List UInt8)
  | 0, _, _ => []
  | count + 1, index, previous =>
      let chunk := Sha256.digest
        (List.zipWith (· ^^^ ·) base previous ++ UInt8.ofNat index :: tag)
      chunk :: chunks base tag count (index + 1) chunk

/-- 256 bytes from a message and the tag of the application. -/
def expand (tag message : List UInt8) : List UInt8 :=
  let tag := tag ++ [UInt8.ofNat tag.length]
  let base := Sha256.digest
    (List.replicate 64 0 ++ message ++ BigEndian.encode 2 256 ++ 0 :: tag)
  (chunks base tag 8 1 (List.replicate 32 0)).flatten

/-- Four numbers of the base field, from 64 bytes each. -/
def numbers (bytes : List UInt8) : Fp2 × Fp2 :=
  let number i := Fp.ofNat (BigEndian.decode ((bytes.drop (64 * i)).take 64))
  (⟨number 0, number 1⟩, ⟨number 2, number 3⟩)

def a' : Fp2 := num 0 240

def b' : Fp2 := num 1012 1012

def z : Fp2 := num (-2) (-1)

/-- Maps a number to a point: of two first coordinates that belong to it, one
has a second coordinate, and this is taken with the parity of the number. -/
def mapToCurve (t : Fp2) : Fp2 × Fp2 :=
  let zt := z * square t
  let d := square zt + zt
  let x1 := if d = zero then b' * inv (z * a') else -b' * inv a' * (one + inv d)
  let side (x : Fp2) := x * x * x + a' * x + b'
  let (x, y) := match (side x1).sqrt? with
    | some y => (x1, y)
    | none => (zt * x1, ((side (zt * x1)).sqrt?).getD zero)
  (x, if t.isOdd = y.isOdd then y else -y)

/-- The isogeny to the twisted curve; its poles go to infinity. -/
def isogeny (x y : Fp2) : G2 :=
  let pole := x + num 6 (-6)
  if pole = zero then .infinity
  else
    let d := inv pole
    let x2 := square x
    let x3 := x2 * x
    let xs := x3 + num 12 (-12) * x2 + num 0 (-24) * x + num 304 304
    let ys := x3 + num 18 (-18) * x2 + num 0 (-264) * x + num (-752) (-752)
    .affine (xs * square d * inv (num 9 0)) (-(y * ys * (square d * d) * inv (num 27 0)))

/-- The multiple that takes every point of the twisted curve into the group. -/
def cofactor : Nat :=
  0xbc69f08f2ee75b3584c6a0ea91b352888e2a8e9145ad7689986ff031508ffe1329c2f178731db956d82bf015d1212b02ec0ec69d7477c1ae954cbc06689f6a359894c0adebbf6b4e8020005aaa95551

def hash (tag message : List UInt8) : G2 :=
  let (t1, t2) := numbers (expand tag message)
  let point (t : Fp2) : G2 := let (x, y) := mapToCurve t; isogeny x y
  ((point t1).add (point t2)).times cofactor

end MultisigTree.Curve.HashToG2
