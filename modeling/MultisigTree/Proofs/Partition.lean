import Mathlib.Data.Nat.Size
import MultisigTree.Proofs.Walks
import MultisigTree.Tree.Place

/-!
# Levels partition the members

Seen from a place, every member is on exactly one level: the number of the
highest binary digit in which its number differs from the place's own
(`Place.levelOf`). A level holds the members on it, the subtree below a level
those on lower levels, and two places put each other on the same level. So the
peers that one of them has at that level are the subtree of the other below it.
-/
namespace MultisigTree

namespace Span

theorem contains_clip {s : Span} {bound i : Nat} :
    (s.clip bound).Contains i ↔ s.Contains i ∧ i < bound := by
  simp only [clip, Contains]
  omega

theorem contains_lo {s : Span} (h : s.lo < s.hi) : s.Contains s.lo :=
  ⟨Nat.le_refl _, h⟩

theorem contains_lo_add {s : Span} {k : Nat} : s.Contains (s.lo + k) ↔ k < s.size := by
  simp only [Contains, size]
  omega

end Span

namespace Walk

theorem contains_block {leaf level i : Nat} (hpos : 0 < level) :
    (block leaf level).Contains i ↔ Nat.size (leaf ^^^ i) < level := by
  obtain ⟨bit, rfl⟩ := Nat.exists_eq_add_of_lt hpos
  rw [Nat.zero_add, block_succ, contains_cell (Nat.two_pow_pos _), Nat.lt_succ_iff, Nat.size_le,
    ← Nat.div_eq_zero_iff_lt (Nat.two_pow_pos bit), Nat.xor_div_two_pow, Nat.xor_eq_zero_iff]
  exact eq_comm

theorem contains_siblingBlock {leaf level i : Nat} (hpos : 0 < level) :
    (siblingBlock leaf level).Contains i ↔ Nat.size (leaf ^^^ i) = level := by
  obtain ⟨bit, rfl⟩ := Nat.exists_eq_add_of_lt hpos
  have hsize : Nat.size (leaf ^^^ i) = bit + 1 ↔ (leaf ^^^ i) / 2 ^ bit = 1 := by
    have hle : Nat.size (leaf ^^^ i) ≤ bit + 1 ↔ leaf ^^^ i < 2 * 2 ^ bit := by
      rw [Nat.size_le, Nat.pow_succ, Nat.mul_comm]
    have hge : bit < Nat.size (leaf ^^^ i) ↔ 2 ^ bit ≤ leaf ^^^ i := Nat.lt_size
    have := Nat.two_pow_pos bit
    rw [Nat.div_eq_iff this]
    omega
  rw [Nat.zero_add, siblingBlock_succ, contains_cell (Nat.two_pow_pos _), hsize,
    Nat.xor_div_two_pow]
  constructor
  · intro h
    rw [h, ← Nat.xor_assoc, Nat.xor_self, Nat.zero_xor]
  · intro h
    rw [← h, ← Nat.xor_assoc, Nat.xor_self, Nat.zero_xor]

theorem siblingBlock_lo_lt_hi (leaf level : Nat) :
    (siblingBlock leaf level).lo < (siblingBlock leaf level).hi :=
  cell_lo_lt_hi (Nat.two_pow_pos _) _

end Walk

namespace Place

open Walk

variable (p : Place)

/-- The level that member `i` is on, seen from the place. -/
def levelOf (i : Nat) : Nat :=
  Nat.size (p.leaf ^^^ i)

theorem levelOf_comm {p q : Place} : p.levelOf q.leaf = q.levelOf p.leaf := by
  simp only [levelOf, Nat.xor_comm]

theorem levelOf_eq_zero_iff {i : Nat} : p.levelOf i = 0 ↔ i = p.leaf := by
  rw [levelOf, Nat.size_eq_zero, Nat.xor_eq_zero_iff]
  exact eq_comm

theorem size_le_two_pow : p.size ≤ 2 ^ p.maxLevel := by
  unfold maxLevel depth
  split
  · omega
  · have := Nat.lt_log2_self (n := p.size - 1)
    omega

theorem leaf_lt_two_pow : p.leaf < 2 ^ p.maxLevel :=
  Nat.lt_of_lt_of_le p.leaf_lt p.size_le_two_pow

theorem levelOf_le_maxLevel {i : Nat} (h : i < p.size) : p.levelOf i ≤ p.maxLevel :=
  Nat.size_le.2 (Nat.xor_lt_two_pow p.leaf_lt_two_pow (Nat.lt_of_lt_of_le h p.size_le_two_pow))

theorem maxLevel_le_of_size_le {bits : Nat} (h : p.size ≤ 2 ^ bits) : p.maxLevel ≤ bits := by
  unfold maxLevel depth
  split
  · omega
  · have : Nat.log2 (p.size - 1) < bits := (Nat.log2_lt (by omega)).2 (by omega)
    omega

theorem below_eq {level : Nat} (h : level ≤ p.maxLevel + 1) :
    p.below level = .ok ((block p.leaf level).clip p.size) := by
  simp only [below, checkLevel, if_pos h, walk_stay p.leaf_lt_two_pow h]
  rfl

/-- The subtree below a level holds the members on the lower levels. -/
theorem contains_below {level i : Nat} {s : Span} (hpos : 0 < level)
    (hle : level ≤ p.maxLevel + 1) (h : p.below level = .ok s) :
    s.Contains i ↔ i < p.size ∧ p.levelOf i < level := by
  rw [below_eq p hle, Except.ok.injEq] at h
  rw [← h, Span.contains_clip, contains_block hpos, and_comm]
  rfl

theorem below_hi_le {level : Nat} {s : Span} (hle : level ≤ p.maxLevel + 1)
    (h : p.below level = .ok s) : s.hi ≤ p.size := by
  rw [below_eq p hle, Except.ok.injEq] at h
  rw [← h]
  exact Nat.min_le_right _ _

theorem peers_zero : p.peers 0 = .ok ⟨p.leaf, p.leaf + 1⟩ := by
  have hlo : ¬ p.size ≤ p.leaf := Nat.not_le.2 p.leaf_lt
  have hmin : min (p.leaf + 1) p.size = p.leaf + 1 := Nat.min_eq_left p.leaf_lt
  simp only [peers, checkLevel, Nat.zero_le, if_true, walk_turn_zero p.leaf_lt_two_pow,
    block_zero]
  simp [bind, Except.bind, pure, Except.pure, hlo, Span.clip, hmin]

theorem peers_eq {level : Nat} (hpos : 0 < level) (h : level ≤ p.maxLevel) :
    p.peers level =
      if p.size ≤ (siblingBlock p.leaf level).lo then .error (.levelEmpty level)
      else .ok ((siblingBlock p.leaf level).clip p.size) := by
  simp only [peers, checkLevel, if_pos (Nat.le_succ_of_le h), walk_turn p.leaf_lt_two_pow hpos h]
  split <;> rfl

/-- A level holds the members that are on it, and is not empty. -/
theorem peers_spec {level : Nat} {s : Span} (hle : level ≤ p.maxLevel)
    (h : p.peers level = .ok s) :
    s.lo < s.hi ∧ s.hi ≤ p.size ∧ ∀ i, s.Contains i ↔ i < p.size ∧ p.levelOf i = level := by
  rcases Nat.eq_zero_or_pos level with rfl | hpos
  · rw [peers_zero, Except.ok.injEq] at h
    subst h
    refine ⟨Nat.lt_succ_self _, p.leaf_lt, fun i => ?_⟩
    have := p.leaf_lt
    simp only [Span.Contains, levelOf_eq_zero_iff]
    omega
  · rw [peers_eq p hpos hle] at h
    split at h
    · exact absurd h (by simp)
    · rename_i hlo
      rw [Except.ok.injEq] at h
      subst h
      have hlt := siblingBlock_lo_lt_hi p.leaf level
      refine ⟨?_, Nat.min_le_right _ _, fun i => ?_⟩
      · simp only [Span.clip]
        omega
      · rw [Span.contains_clip, contains_siblingBlock hpos, and_comm]
        rfl

/-- The level after the last one is the whole roster. -/
theorem peers_root : p.peers (p.maxLevel + 1) = .ok ⟨0, p.size⟩ := by
  have hlo : ¬ p.size ≤ 0 := Nat.not_le.2 (Nat.zero_lt_of_lt p.leaf_lt)
  simp only [peers, checkLevel, Nat.le_refl, if_true, walk_turn_root p.leaf_lt_two_pow,
    ← root_eq_block p.leaf_lt_two_pow]
  simp [bind, Except.bind, pure, Except.pure, hlo, Span.clip, p.size_le_two_pow]

/-- Below the level after the last one is the whole roster. -/
theorem below_root : p.below (p.maxLevel + 1) = .ok ⟨0, p.size⟩ := by
  rw [p.below_eq (Nat.le_refl _), ← root_eq_block p.leaf_lt_two_pow]
  simp [Span.clip, p.size_le_two_pow]

theorem peers_beyond {level : Nat} (h : p.maxLevel + 1 < level) :
    p.peers level = .error (.levelBeyond level (p.maxLevel + 1)) := by
  simp only [peers, checkLevel, if_neg (Nat.not_le.2 h)]
  rfl

/-- A level that has a span has members, all of them in the roster. -/
theorem bounds_of_peers {level : Nat} {s : Span} (h : p.peers level = .ok s) :
    s.lo < s.hi ∧ s.hi ≤ p.size := by
  rcases Nat.lt_trichotomy level (p.maxLevel + 1) with hlt | rfl | hgt
  · have hspec := p.peers_spec (Nat.le_of_lt_succ hlt) h
    exact ⟨hspec.1, hspec.2.1⟩
  · rw [peers_root, Except.ok.injEq] at h
    exact h ▸ ⟨Nat.zero_lt_of_lt p.leaf_lt, Nat.le_refl _⟩
  · rw [peers_beyond p hgt] at h
    cases h

theorem lt_size_of_peers {level i : Nat} {s : Span} (h : p.peers level = .ok s)
    (hi : s.Contains i) : i < p.size :=
  Nat.lt_of_lt_of_le hi.2 (p.bounds_of_peers h).2

theorem contains_lo_of_peers {level : Nat} {s : Span} (h : p.peers level = .ok s) :
    s.Contains s.lo :=
  Span.contains_lo (p.bounds_of_peers h).1

/-- The subtree below a level holds the members of every lower level. -/
theorem contains_below_of_lower {lower level i : Nat} (hlower : lower < level)
    (hle : level ≤ p.maxLevel + 1) {s w : Span} (hs : p.peers lower = .ok s)
    (hw : p.below level = .ok w) (hi : s.Contains i) : w.Contains i := by
  obtain ⟨hlt, hlevel⟩ := ((p.peers_spec (by omega) hs).2.2 i).1 hi
  exact (p.contains_below (by omega) hle hw).2 ⟨hlt, hlevel ▸ hlower⟩

/-- A level with a member on it has a span. -/
theorem exists_peers {level i : Nat} (hi : i < p.size) (h : p.levelOf i = level) :
    ∃ s, p.peers level = .ok s := by
  rcases Nat.eq_zero_or_pos level with rfl | hpos
  · exact ⟨_, p.peers_zero⟩
  · have hle := p.levelOf_le_maxLevel hi
    have hmem : (siblingBlock p.leaf level).Contains i := (contains_siblingBlock hpos).2 h
    rw [peers_eq p hpos (h ▸ hle), if_neg]
    · exact ⟨_, rfl⟩
    · have := hmem.1
      omega

theorem exists_peers_of_sizeAt_pos {level : Nat} (h : 0 < p.sizeAt level) :
    ∃ s, p.peers level = .ok s ∧ s.size = p.sizeAt level := by
  unfold sizeAt at h ⊢
  split
  · rename_i s hs
    exact ⟨s, hs, rfl⟩
  · rename_i hs
    rw [hs] at h
    exact absurd h (Nat.lt_irrefl 0)

theorem sizeAt_eq {level : Nat} {s : Span} (h : p.peers level = .ok s) :
    p.sizeAt level = s.size := by
  rw [sizeAt, h]

theorem sizeAt_zero : p.sizeAt 0 = 1 := by
  rw [sizeAt_eq p p.peers_zero]
  simp [Span.size]

theorem sizeAt_pos {level : Nat} {s : Span} (hle : level ≤ p.maxLevel)
    (h : p.peers level = .ok s) : 0 < p.sizeAt level := by
  rw [sizeAt_eq p h, Span.size]
  have := (peers_spec p hle h).1
  omega

theorem sizeAt_le_size {level : Nat} (hle : level ≤ p.maxLevel) : p.sizeAt level ≤ p.size := by
  unfold sizeAt
  split
  · rename_i s hs
    have := (peers_spec p hle hs).2.1
    rw [Span.size]
    omega
  · exact Nat.zero_le _

/-- What one place has at the level of another is the subtree of the other
below that level. -/
theorem peers_eq_below {p q : Place} (hsize : p.size = q.size) (hpos : 0 < p.levelOf q.leaf) :
    q.peers (p.levelOf q.leaf) = p.below (p.levelOf q.leaf) := by
  have hle : p.levelOf q.leaf ≤ p.maxLevel := p.levelOf_le_maxLevel (hsize ▸ q.leaf_lt)
  have hmax : q.maxLevel = p.maxLevel := by rw [maxLevel, maxLevel, hsize]
  generalize hl : p.levelOf q.leaf = level at hpos hle ⊢
  have hmem : (siblingBlock q.leaf level).Contains p.leaf :=
    (contains_siblingBlock hpos).2 (levelOf_comm.trans hl)
  have hblock : siblingBlock q.leaf level = block p.leaf level := by
    obtain ⟨bit, rfl⟩ := Nat.exists_eq_add_of_lt hpos
    rw [Nat.zero_add, siblingBlock_succ] at hmem ⊢
    rw [contains_cell (Nat.two_pow_pos _)] at hmem
    rw [← hmem, block_succ]
  rw [below_eq p (Nat.le_succ_of_le hle), peers_eq q hpos (hmax ▸ hle), if_neg, hblock, hsize]
  have := hmem.1
  have := p.leaf_lt
  omega

end Place

end MultisigTree
