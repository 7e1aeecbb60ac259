import MultisigTree.Fault

/-!
# Machine words

Counts and positions are natural numbers that have to fit 64 bits. `add`,
`sub` and `mul` crash where the result does not, and are the usual operations
where it does.
-/
namespace MultisigTree

-- Modules that know powers in monoids could read `2 ^ 64` in two ways. All read
-- it as the core library does.
@[default_instance 20000]
instance (priority := 2000) powNat : Pow Nat Nat := instPowNat

namespace Word

/-- The first number too large for a word. -/
def limit : Nat :=
  2 ^ 64

def add (a b : Nat) : Except Crash Nat :=
  if a + b < limit then .ok (a + b) else .error .addOverflow

def sub (a b : Nat) : Except Crash Nat :=
  if b ≤ a then .ok (a - b) else .error .subOverflow

def mul (a b : Nat) : Except Crash Nat :=
  if a * b < limit then .ok (a * b) else .error .mulOverflow

/-- The remainder, which needs a divisor. -/
def mod (a b : Nat) : Except Crash Nat :=
  if b = 0 then .error .zeroDivisor else .ok (a % b)

theorem add_eq_ok_iff {a b c : Nat} : add a b = .ok c ↔ a + b < limit ∧ c = a + b := by
  unfold add
  split <;> grind

theorem mul_eq_ok_iff {a b c : Nat} : mul a b = .ok c ↔ a * b < limit ∧ c = a * b := by
  unfold mul
  split <;> grind

end Word

end MultisigTree
