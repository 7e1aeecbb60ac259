import MultisigTree.Curve.Point
import MultisigTree.Curve.Tower

/-!
# The two groups

Keys are points over the base field, signatures are points of the twisted
curve over `Fp2`. In both curves only the points of prime order `order` count.
-/
namespace MultisigTree.Curve

/-- The prime order of the groups. -/
def order : Nat :=
  0x73eda753299d7d483339d80809a1d80553bda402fffe5bfeffffffff00000001

abbrev G1 := Point Fp

abbrev G2 := Point Fp2

namespace G1

def b : Fp := .ofNat 4

def generator : G1 :=
  .affine
    (.ofNat 0x17f1d3a73197d7942695638c4fa9ac0fc3688c4f9774b905a14e3a3f171bac586c55e83ff97a1aeffb3af00adb22c6bb)
    (.ofNat 0x08b3f481e3aaa0f1a09e30ed741d8ae4fcf5e095d5d00af600db18cb2c04b3edd03cc744a2888ae40caa232946c5e7e1)

end G1

namespace G2

def b : Fp2 := ⟨.ofNat 4, .ofNat 4⟩

end G2

/-- The point belongs to the group of prime order. -/
def isTorsion {F : Type} [Arith F] (p : Point F) : Bool :=
  p.times order = .infinity

end MultisigTree.Curve
