import MultisigTree.Span
import MultisigTree.Word

/-!
# Walking down the binary tree

The members are the leaves of a complete binary tree, read off the binary
digits of their numbers. A walk starts at the root and halves its span at each
digit of a leaf's number, from the highest digit on. It either stays with the
leaf all the way to the stopping place or turns away from it in the last step,
into the sibling half.
-/
namespace MultisigTree.Walk

def depth (size : Nat) : Nat :=
  if size ≤ 1 then 0 else Nat.log2 (size - 1) + 1

/-- Halves `s` at the digits `bit - 1`, `bit - 2`, …, `level - 1` of `leaf`.
With `turn` the last halving takes the half without the leaf. -/
def descend (leaf level : Nat) (turn : Bool) : (bit : Nat) → Span → Span
  | 0, s => s
  | bit + 1, s =>
      if level ≤ bit + 1 ∧ s.lo < s.hi then
        let middle := (s.lo + s.hi) / 2
        let upper := leaf.testBit bit ^^ (turn && level == bit + 1)
        descend leaf level turn bit (if upper then ⟨middle, s.hi⟩ else ⟨s.lo, middle⟩)
      else s

def walk (depth leaf level : Nat) (turn : Bool) : Span :=
  descend leaf level turn depth ⟨0, 2 ^ depth⟩

/-- The aligned span of `2 ^ (level - 1)` leaves that holds `leaf`. -/
def block (leaf level : Nat) : Span :=
  let width := 2 ^ (level - 1)
  ⟨leaf / width * width, (leaf / width + 1) * width⟩

def siblingBlock (leaf level : Nat) : Span :=
  let width := 2 ^ (level - 1)
  let index := leaf / width ^^^ 1
  ⟨index * width, (index + 1) * width⟩

end MultisigTree.Walk
