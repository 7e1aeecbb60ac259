import MultisigTree.Random.ChaCha

/-!
# Shuffling

The last entry is exchanged with one of all entries, drawn at random, then the
last but one with one of those up to it, and so on. Numbers are drawn without
bias: a word whose product with the bound falls into the incomplete part of
the range is thrown away.
-/
namespace MultisigTree.Shuffle

open ChaCha (Generator)

def zone (bound : Nat) : Nat :=
  bound * 2 ^ (31 - Nat.log2 bound) - 1

/-- A number below `bound`, from at most so many words. -/
def draw (bound words : Nat) (g : Generator) : Nat × Generator :=
  match words with
  | 0 => (0, g)
  | words + 1 =>
      let product := g.next.1.toNat * bound
      if product % 2 ^ 32 ≤ zone bound then (product / 2 ^ 32, g.next.2)
      else draw bound words g.next.2
termination_by words

/-- A number below `bound`. Past a whole period the generator would only
repeat words that were thrown away already. -/
@[irreducible] def below (bound : Nat) (g : Generator) : Nat × Generator :=
  draw bound ChaCha.period g

/-- Exchanges entries `i`, `i - 1`, …, 1 with an entry not above them. -/
def exchange {α : Type} : (i : Nat) → Array α → Generator → Array α
  | 0, xs, _ => xs
  | i + 1, xs, g =>
      let drawn := below (i + 2) g
      exchange i (xs.swapIfInBounds (i + 1) drawn.1) drawn.2

def shuffle {α : Type} (xs : Array α) (g : Generator) : Array α :=
  exchange (xs.size - 1) xs g

theorem draw_lt (bound words : Nat) (g : Generator) (h : 0 < bound) :
    (draw bound words g).1 < bound := by
  induction words generalizing g with
  | zero => simpa [draw] using h
  | succ words ih =>
      rw [draw]
      split
      · refine Nat.div_lt_of_lt_mul (Nat.mul_lt_mul_of_pos_right ?_ h)
        exact g.next.1.toNat_lt
      · exact ih _

theorem below_lt (bound : Nat) (g : Generator) (h : 0 < bound) : (below bound g).1 < bound := by
  rw [below]
  exact draw_lt bound _ g h

/-- Each exchange is one of two entries that are there. -/
theorem exchange_succ {α : Type} {xs : Array α} {i : Nat} (h : i + 1 < xs.size) (g : Generator) :
    ∃ hdrawn : (below (i + 2) g).1 < xs.size,
      exchange (i + 1) xs g =
        exchange i (xs.swap (i + 1) (below (i + 2) g).1 h hdrawn) (below (i + 2) g).2 := by
  have hdrawn : (below (i + 2) g).1 < xs.size :=
    Nat.lt_of_lt_of_le (below_lt (i + 2) g (Nat.succ_pos _)) h
  refine ⟨hdrawn, ?_⟩
  rw [exchange, Array.swapIfInBounds_def, dif_pos h, dif_pos hdrawn]

theorem exchange_perm {α : Type} {xs : Array α} {i : Nat} (h : i ≤ xs.size - 1) (g : Generator) :
    (exchange i xs g).Perm xs := by
  induction i generalizing xs g with
  | zero => exact .rfl
  | succ i ih =>
      have hlast : i + 1 < xs.size := by omega
      obtain ⟨hdrawn, hexchange⟩ := exchange_succ hlast g
      rw [hexchange]
      exact (ih (by rw [Array.size_swap]; omega) _).trans (Array.swap_perm _ _)

theorem shuffle_perm {α : Type} (xs : Array α) (g : Generator) : (shuffle xs g).Perm xs :=
  exchange_perm (Nat.le_refl _) g

end MultisigTree.Shuffle
