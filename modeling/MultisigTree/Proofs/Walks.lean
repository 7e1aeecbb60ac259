import Mathlib.Data.Nat.Bitwise
import Mathlib.Tactic.Ring
import MultisigTree.Tree.Walk

/-!
# Where a walk ends

A walk that stays with its leaf ends at the aligned block of the leaf, and one
that turns away in its last step ends at the block beside it. On the way it only
comes through aligned blocks, none of them empty: halving a block gives two of
half its width, and the digit of the leaf tells in which one the leaf is
(`Walk.descend_succ`). So the place where a walk ends has a closed form
(`Walk.walk_eq_cell`).
-/
namespace MultisigTree.Walk

/-- The aligned span number `index` among those of `width` leaves. -/
def cell (width index : Nat) : Span :=
  ⟨index * width, (index + 1) * width⟩

theorem cell_lo_lt_hi {width : Nat} (hwidth : 0 < width) (index : Nat) :
    (cell width index).lo < (cell width index).hi :=
  Nat.mul_lt_mul_of_pos_right (Nat.lt_succ_self index) hwidth

theorem contains_cell {width index i : Nat} (hwidth : 0 < width) :
    (cell width index).Contains i ↔ i / width = index := by
  rw [Nat.div_eq_iff hwidth]
  simp only [Span.Contains, cell]
  have : (index + 1) * width = index * width + width := Nat.succ_mul _ _
  omega

theorem block_zero (leaf : Nat) : block leaf 0 = ⟨leaf, leaf + 1⟩ := by
  simp [block]

theorem block_succ (leaf bit : Nat) : block leaf (bit + 1) = cell (2 ^ bit) (leaf / 2 ^ bit) := rfl

theorem siblingBlock_succ (leaf bit : Nat) :
    siblingBlock leaf (bit + 1) = cell (2 ^ bit) (leaf / 2 ^ bit ^^^ 1) := rfl

theorem size_block (leaf level : Nat) : (block leaf level).size = 2 ^ (level - 1) := by
  unfold block Span.size
  dsimp only
  rw [Nat.succ_mul]
  exact Nat.add_sub_cancel_left _ _

theorem middle_cell (width index : Nat) :
    ((cell (2 * width) index).lo + (cell (2 * width) index).hi) / 2 = (2 * index + 1) * width := by
  have h : index * (2 * width) + (index + 1) * (2 * width) = 2 * ((2 * index + 1) * width) := by
    ring
  simp only [cell, h]
  omega

/-- The halves of an aligned span are aligned. -/
theorem half_cell (width index : Nat) (upper : Bool) :
    (if upper then
        ⟨((cell (2 * width) index).lo + (cell (2 * width) index).hi) / 2,
          (cell (2 * width) index).hi⟩
      else
        ⟨(cell (2 * width) index).lo,
          ((cell (2 * width) index).lo + (cell (2 * width) index).hi) / 2⟩ : Span) =
      cell width (2 * index + upper.toNat) := by
  have heven : index * (2 * width) = (2 * index) * width := by ring
  have hend : (index + 1) * (2 * width) = (2 * index + 1 + 1) * width := by ring
  rw [middle_cell]
  cases upper <;> simp [cell, heven, hend]

theorem div_two_pow_succ (leaf bit : Nat) : leaf / 2 ^ (bit + 1) = leaf / 2 ^ bit / 2 := by
  rw [Nat.pow_succ, Nat.div_div_eq_div_mul]

theorem two_mul_add_testBit (leaf bit : Nat) :
    2 * (leaf / 2 ^ (bit + 1)) + (leaf.testBit bit).toNat = leaf / 2 ^ bit := by
  rw [div_two_pow_succ, Nat.testBit_eq_decide_div_mod_eq]
  have := Nat.mod_two_eq_zero_or_one (leaf / 2 ^ bit)
  rcases this with h | h <;> simp [h] <;> omega

theorem two_mul_add_not_testBit (leaf bit : Nat) :
    2 * (leaf / 2 ^ (bit + 1)) + (!leaf.testBit bit).toNat = leaf / 2 ^ bit ^^^ 1 := by
  rw [← two_mul_add_testBit leaf bit]
  generalize leaf / 2 ^ (bit + 1) = q
  cases leaf.testBit bit
  · simp [Nat.xor_one_of_even (even_two_mul q)]
  · simp [Nat.xor_one_of_odd (odd_two_mul_add_one q)]

/-- One halving: into the half with the leaf, or into the one without. -/
theorem descend_succ {leaf level bit : Nat} (h : level ≤ bit + 1) (turn : Bool) :
    descend leaf level turn (bit + 1) (block leaf (bit + 2)) =
      descend leaf level turn bit
        (if turn && level == bit + 1 then siblingBlock leaf (bit + 1)
          else block leaf (bit + 1)) := by
  have hlt : (block leaf (bit + 2)).lo < (block leaf (bit + 2)).hi :=
    cell_lo_lt_hi (Nat.two_pow_pos _) _
  have hblock : block leaf (bit + 2) = cell (2 * 2 ^ bit) (leaf / 2 ^ (bit + 1)) := by
    rw [block_succ, Nat.pow_succ, Nat.mul_comm]
  simp only [descend, if_pos (And.intro h hlt)]
  rw [hblock, half_cell, block_succ, siblingBlock_succ]
  cases turn && level == bit + 1
  · rw [Bool.xor_false, two_mul_add_testBit]
    rfl
  · rw [Bool.xor_true, two_mul_add_not_testBit]
    rfl

theorem descend_of_lt {leaf level bit : Nat} (h : bit < level) (turn : Bool) (s : Span) :
    descend leaf level turn bit s = s := by
  cases bit with
  | zero => rfl
  | succ bit => exact if_neg fun k => absurd k.1 (by omega)

theorem descend_stay {leaf level bit : Nat} (h : level ≤ bit + 1) :
    descend leaf level false bit (block leaf (bit + 1)) = block leaf level := by
  induction bit with
  | zero =>
      rcases Nat.le_one_iff_eq_zero_or_eq_one.1 h with rfl | rfl <;> rfl
  | succ bit ih =>
      rcases Nat.lt_or_ge (bit + 1) level with hlt | hle
      · rw [descend_of_lt hlt, show level = bit + 2 by omega]
      · rw [descend_succ hle]
        exact ih hle

theorem descend_turn {leaf level bit : Nat} (hpos : 0 < level) (h : level ≤ bit) :
    descend leaf level true bit (block leaf (bit + 1)) = siblingBlock leaf level := by
  induction bit with
  | zero => omega
  | succ bit ih =>
      rw [descend_succ h]
      rcases Nat.lt_or_ge bit level with hlt | hle
      · obtain rfl : level = bit + 1 := by omega
        simp [descend_of_lt hlt]
      · have hne : (level == bit + 1) = false := by simp; omega
        simp only [hne, Bool.and_false, Bool.false_eq_true, if_false]
        exact ih hle

theorem descend_zero (leaf bit : Nat) (s : Span) :
    descend leaf 0 true bit s = descend leaf 0 false bit s := by
  induction bit generalizing s with
  | zero => rfl
  | succ bit ih => simp [descend, ih]

theorem root_eq_block {depth leaf : Nat} (h : leaf < 2 ^ depth) :
    (⟨0, 2 ^ depth⟩ : Span) = block leaf (depth + 1) := by
  simp [block_succ, cell, Nat.div_eq_of_lt h]

/-- A walk that stays with its leaf. -/
theorem walk_stay {depth leaf level : Nat} (hleaf : leaf < 2 ^ depth) (h : level ≤ depth + 1) :
    walk depth leaf level false = block leaf level := by
  rw [walk, root_eq_block hleaf, descend_stay h]

/-- A walk that turns away in its last step. -/
theorem walk_turn {depth leaf level : Nat} (hleaf : leaf < 2 ^ depth) (hpos : 0 < level)
    (h : level ≤ depth) : walk depth leaf level true = siblingBlock leaf level := by
  rw [walk, root_eq_block hleaf, descend_turn hpos h]

theorem walk_turn_zero {depth leaf : Nat} (hleaf : leaf < 2 ^ depth) :
    walk depth leaf 0 true = block leaf 0 := by
  rw [walk, descend_zero, ← walk, walk_stay hleaf (Nat.zero_le _)]

theorem walk_turn_root {depth leaf : Nat} (hleaf : leaf < 2 ^ depth) :
    walk depth leaf (depth + 1) true = block leaf (depth + 1) := by
  rw [walk, descend_of_lt (Nat.lt_succ_self depth), root_eq_block hleaf]

/-- At the two ends there is no last step in which a walk could turn away. -/
theorem walk_turn_of_end {depth leaf level : Nat} (hleaf : leaf < 2 ^ depth)
    (h : level = 0 ∨ level = depth + 1) :
    walk depth leaf level true = walk depth leaf level false := by
  rcases h with rfl | rfl
  · rw [walk_turn_zero hleaf, walk_stay hleaf (Nat.zero_le _)]
  · rw [walk_turn_root hleaf, walk_stay hleaf (Nat.le_refl _)]

/-- The closed form of a walk. One that stays with its leaf ends at the span of
`2 ^ (level - 1)` leaves, aligned to its width, that holds the leaf. One that turns
away ends at the same span at the two ends, and else at the one whose number
differs from it in the last binary digit. The span is not empty. -/
theorem walk_eq_cell {depth leaf level : Nat} (hleaf : leaf < 2 ^ depth)
    (hlevel : level ≤ depth + 1) :
    walk depth leaf level false = cell (2 ^ (level - 1)) (leaf / 2 ^ (level - 1)) ∧
      (∀ index, (cell (2 ^ (level - 1)) index).Contains leaf ↔ index = leaf / 2 ^ (level - 1)) ∧
      (level = 0 ∨ level = depth + 1 →
        walk depth leaf level true = walk depth leaf level false) ∧
      (1 ≤ level ∧ level ≤ depth →
        walk depth leaf level true = cell (2 ^ (level - 1)) (leaf / 2 ^ (level - 1) ^^^ 1)) ∧
      ∀ turn, (walk depth leaf level turn).lo < (walk depth leaf level turn).hi := by
  have hwidth : 0 < 2 ^ (level - 1) := Nat.two_pow_pos _
  have hstay : walk depth leaf level false = cell (2 ^ (level - 1)) (leaf / 2 ^ (level - 1)) :=
    walk_stay hleaf hlevel
  have hturn : 1 ≤ level ∧ level ≤ depth →
      walk depth leaf level true = cell (2 ^ (level - 1)) (leaf / 2 ^ (level - 1) ^^^ 1) :=
    fun h => walk_turn hleaf h.1 h.2
  refine ⟨hstay, fun index => (contains_cell hwidth).trans eq_comm, walk_turn_of_end hleaf, hturn,
    fun turn => ?_⟩
  cases turn with
  | false =>
      rw [hstay]
      exact cell_lo_lt_hi hwidth _
  | true =>
      by_cases hend : level = 0 ∨ level = depth + 1
      · rw [walk_turn_of_end hleaf hend, hstay]
        exact cell_lo_lt_hi hwidth _
      · rw [hturn (by omega)]
        exact cell_lo_lt_hi hwidth _

/-- In a tree of eight leaves the sixth stands in the third pair, beside the
fourth. -/
theorem walk_eq_cell_of_eight : (5 < 2 ^ 3 ∧ 2 ≤ 3 + 1) ∧ walk 3 5 2 false = ⟨4, 6⟩ ∧
    walk 3 5 2 true = ⟨6, 8⟩ ∧ ∀ turn, (walk 3 5 2 turn).lo < (walk 3 5 2 turn).hi := by
  have hleaf : 5 < 2 ^ 3 := by decide
  have hlevel : 2 ≤ 3 + 1 := by decide
  obtain ⟨hstay, -, -, hturn, hlt⟩ := walk_eq_cell hleaf hlevel
  exact ⟨⟨hleaf, hlevel⟩, hstay, hturn (by decide), hlt⟩

end MultisigTree.Walk
