/-!
# Half-open intervals of positions

A `Span` holds the positions from `lo` on and below `hi`.
-/
namespace MultisigTree

structure Span where
  lo : Nat
  hi : Nat
  deriving DecidableEq, Repr

namespace Span

def size (s : Span) : Nat :=
  s.hi - s.lo

def Contains (s : Span) (i : Nat) : Prop :=
  s.lo ≤ i ∧ i < s.hi

instance (s : Span) (i : Nat) : Decidable (s.Contains i) :=
  inferInstanceAs (Decidable (_ ∧ _))

/-- The positions in increasing order. -/
def toList (s : Span) : List Nat :=
  List.range' s.lo s.size

/-- The part below `bound`; the lower end stays. -/
def clip (s : Span) (bound : Nat) : Span :=
  ⟨s.lo, min s.hi bound⟩

theorem mem_toList {s : Span} {i : Nat} : i ∈ s.toList ↔ s.Contains i := by
  simp only [toList, size, Contains, List.mem_range'_1]
  omega

theorem length_toList (s : Span) : s.toList.length = s.size := by
  simp [toList]

/-- Puts `i` in front of the spans of larger positions, growing the first of
them if `i` touches it. -/
def push (i : Nat) : List Span → List Span
  | [] => [⟨i, i + 1⟩]
  | s :: rest => if s.lo = i + 1 then ⟨i, s.hi⟩ :: rest else ⟨i, i + 1⟩ :: s :: rest

/-- The maximal spans of an ascending list of positions. -/
def cover (is : List Nat) : List Span :=
  is.foldr push []

end Span

end MultisigTree
