import Mathlib.Algebra.BigOperators.Group.Finset.Basic
import Mathlib.Order.Interval.Finset.Nat
import MultisigTree.Proofs.DenseRosters

/-!
# Levels cover the roster

Whatever the size of the roster, each member is on exactly one of the levels
from 0 up to the last one (`Place.hasAt_iff`), the last level is not empty
unless the roster has a single member, and the subtree below a level is made up
of the lower levels. The sizes of the levels add up to the size of the roster
(`Place.sum_sizeAt`), and a member's index at a level is its position in the
list of the level (`Place.levels_cover`).
-/
namespace MultisigTree

namespace Place

open Walk

variable (p : Place)

def HasAt (level i : Nat) : Prop :=
  ∃ s, p.peers level = .ok s ∧ s.Contains i

variable {p}

theorem hasAt_iff {level i : Nat} (hle : level ≤ p.maxLevel) :
    p.HasAt level i ↔ i < p.size ∧ p.levelOf i = level := by
  constructor
  · rintro ⟨s, hs, hi⟩
    exact ((p.peers_spec hle hs).2.2 i).1 hi
  · rintro ⟨hi, hlevel⟩
    obtain ⟨s, hs⟩ := p.exists_peers hi hlevel
    exact ⟨s, hs, ((p.peers_spec hle hs).2.2 i).2 ⟨hi, hlevel⟩⟩

theorem sizeAt_pos_of_hasAt {level i : Nat} (hle : level ≤ p.maxLevel) (h : p.HasAt level i) :
    0 < p.sizeAt level := by
  obtain ⟨s, hs, -⟩ := h
  exact p.sizeAt_pos hle hs

theorem existsUnique_hasAt {i : Nat} (hi : i < p.size) :
    ∃! level, level ≤ p.maxLevel ∧ p.HasAt level i := by
  have hle := p.levelOf_le_maxLevel hi
  refine ⟨p.levelOf i, ⟨hle, (hasAt_iff hle).2 ⟨hi, rfl⟩⟩, ?_⟩
  rintro level ⟨hlevel, hat⟩
  exact ((hasAt_iff hlevel).1 hat).2.symm

/-- The subtree below a level is made up of the lower levels. -/
theorem contains_below_iff {level i : Nat} {s : Span} (hpos : 0 < level)
    (hle : level ≤ p.maxLevel + 1) (h : p.below level = .ok s) :
    s.Contains i ↔ ∃ lower < level, p.HasAt lower i := by
  rw [p.contains_below hpos hle h]
  constructor
  · rintro ⟨hi, hlt⟩
    exact ⟨_, hlt, (hasAt_iff (p.levelOf_le_maxLevel hi)).2 ⟨hi, rfl⟩⟩
  · rintro ⟨lower, hlt, hat⟩
    obtain ⟨hi, rfl⟩ := (hasAt_iff (by omega)).1 hat
    exact ⟨hi, hlt⟩

theorem card_levelOf {level : Nat} (hle : level ≤ p.maxLevel) :
    ((Finset.range p.size).filter (p.levelOf · = level)).card = p.sizeAt level := by
  cases hs : p.peers level with
  | error fault =>
      rw [sizeAt, hs]
      refine Finset.card_eq_zero.2 (Finset.filter_eq_empty_iff.2 fun i hi hlevel => ?_)
      obtain ⟨s, hs'⟩ := p.exists_peers (Finset.mem_range.1 hi) hlevel
      rw [hs] at hs'
      cases hs'
  | ok s =>
      rw [p.sizeAt_eq hs, Span.size, ← Nat.card_Ico]
      congr 1
      ext i
      rw [Finset.mem_filter, Finset.mem_range, Finset.mem_Ico]
      exact ((p.peers_spec hle hs).2.2 i).symm

/-- Every member is counted once. -/
theorem sum_sizeAt : ∑ level ∈ Finset.range (p.maxLevel + 1), p.sizeAt level = p.size := by
  have hmaps : ∀ i ∈ Finset.range p.size, p.levelOf i ∈ Finset.range (p.maxLevel + 1) :=
    fun i hi => Finset.mem_range.2
      (Nat.lt_succ_of_le (p.levelOf_le_maxLevel (Finset.mem_range.1 hi)))
  calc ∑ level ∈ Finset.range (p.maxLevel + 1), p.sizeAt level
      = ∑ level ∈ Finset.range (p.maxLevel + 1),
          ((Finset.range p.size).filter (p.levelOf · = level)).card :=
        Finset.sum_congr rfl fun level hlevel =>
          (card_levelOf (Nat.le_of_lt_succ (Finset.mem_range.1 hlevel))).symm
    _ = p.size := by rw [← Finset.card_eq_sum_card_fiberwise hmaps, Finset.card_range]

theorem mem_levels {level : Nat} :
    level ∈ p.levels ↔ 0 < level ∧ level ≤ p.maxLevel ∧ 0 < p.sizeAt level := by
  have hpeers : level ≤ p.maxLevel → ((p.peers level).toBool = true ↔ 0 < p.sizeAt level) := by
    intro hle
    unfold sizeAt
    cases hs : p.peers level with
    | error fault => simp [Except.toBool]
    | ok s =>
        have := (p.bounds_of_peers hs).1
        simp only [Except.toBool, Span.size, true_iff]
        omega
  unfold levels
  rw [List.mem_filter, List.mem_range'_1]
  constructor
  · rintro ⟨⟨hpos, hlt⟩, hbool⟩
    have hle : level ≤ p.maxLevel := by omega
    exact ⟨hpos, hle, (hpeers hle).1 hbool⟩
  · rintro ⟨hpos, hle, hsize⟩
    exact ⟨⟨hpos, by omega⟩, (hpeers hle).2 hsize⟩

theorem sum_levels : (p.levels.map p.sizeAt).sum = p.size - 1 := by
  have hnodup : p.levels.Nodup := by
    unfold levels
    exact List.Nodup.filter _ List.nodup_range'
  have hlevels : ∑ level ∈ p.levels.toFinset, p.sizeAt level =
      ∑ level ∈ (Finset.range p.maxLevel).image (· + 1), p.sizeAt level := by
    refine Finset.sum_subset (fun level hlevel => ?_) (fun level hlevel hnot => ?_)
    · obtain ⟨hpos, hle, -⟩ := mem_levels.1 (List.mem_toFinset.1 hlevel)
      exact Finset.mem_image.2 ⟨level - 1, Finset.mem_range.2 (by omega), by omega⟩
    · obtain ⟨lower, hlower, rfl⟩ := Finset.mem_image.1 hlevel
      rw [List.mem_toFinset, mem_levels] at hnot
      have := Finset.mem_range.1 hlower
      omega
  have hall := p.sum_sizeAt
  rw [Finset.sum_range_succ', p.sizeAt_zero] at hall
  rw [← List.sum_toFinset _ hnodup, hlevels,
    Finset.sum_image fun _ _ _ _ h => Nat.add_right_cancel h]
  omega

theorem two_pow_lt_size (h : 2 ≤ p.size) : 0 < p.maxLevel ∧ 2 ^ (p.maxLevel - 1) < p.size := by
  have hlog := Nat.log2_self_le (n := p.size - 1) (by omega)
  unfold maxLevel depth
  rw [if_neg (by omega)]
  refine ⟨Nat.succ_pos _, ?_⟩
  rw [Nat.add_sub_cancel]
  omega

theorem sizeAt_maxLevel_pos (h : 2 ≤ p.size) : 0 < p.sizeAt p.maxLevel := by
  obtain ⟨hpos, hsize⟩ := two_pow_lt_size h
  have hlo : ¬ p.size ≤ (siblingBlock p.leaf p.maxLevel).lo := by
    obtain ⟨bit, hbit⟩ := Nat.exists_eq_add_of_lt hpos
    rw [Nat.zero_add] at hbit
    have hleaf := p.leaf_lt_two_pow
    rw [hbit] at hsize hleaf ⊢
    -- The two halves of the tree: whichever the leaf is in, the other one has a member.
    have hhalf : p.leaf / 2 ^ bit < 2 := Nat.div_lt_of_lt_mul (by rwa [Nat.pow_succ] at hleaf)
    rw [siblingBlock_succ]
    rcases Nat.le_one_iff_eq_zero_or_eq_one.1 (Nat.le_of_lt_succ hhalf) with h0 | h1
    · simpa [cell, h0] using hsize
    · simpa [cell, h1] using Nat.ne_zero_of_lt p.leaf_lt
  exact p.sizeAt_pos (Nat.le_refl _) ((p.peers_eq hpos (Nat.le_refl _)).trans (if_neg hlo))

theorem indexAt_eq_ok_iff {id : Int32} {level k : Nat} :
    p.indexAt id level = .ok k ↔
      ∃ s, p.peers level = .ok s ∧ id.toInt = (s.lo + k : Nat) ∧ s.Contains (s.lo + k) := by
  unfold indexAt
  cases p.peers level with
  | error fault => simp [bind, Except.bind]
  | ok s =>
      by_cases h : 0 ≤ id.toInt ∧ s.Contains id.toInt.toNat
      · have hlo := h.2.1
        have hid : s.lo + (id.toInt.toNat - s.lo) = id.toInt.toNat := Nat.add_sub_cancel' hlo
        simp only [bind, Except.bind, if_pos h, pure, Except.pure, Except.ok.injEq, exists_eq_left']
        constructor
        · rintro rfl
          exact ⟨by omega, hid.symm ▸ h.2⟩
        · rintro ⟨hnumber, -⟩
          omega
      · simp only [bind, Except.bind, if_neg h, Except.ok.injEq, exists_eq_left']
        refine ⟨nofun, ?_⟩
        rintro ⟨hnumber, hmem⟩
        refine absurd ⟨by omega, ?_⟩ h
        rwa [hnumber, Int.toNat_natCast]

theorem indexAt_isOk_iff {id : Int32} {level : Nat} (hid : 0 ≤ id.toInt) :
    (∃ k, p.indexAt id level = .ok k) ↔ p.HasAt level id.toInt.toNat := by
  simp only [indexAt_eq_ok_iff]
  constructor
  · rintro ⟨k, s, hs, hnumber, hmem⟩
    refine ⟨s, hs, ?_⟩
    rwa [hnumber, Int.toNat_natCast]
  · rintro ⟨s, hs, hmem⟩
    have hlo : s.lo + (id.toInt.toNat - s.lo) = id.toInt.toNat := Nat.add_sub_cancel' hmem.1
    refine ⟨id.toInt.toNat - s.lo, s, hs, ?_, ?_⟩
    · rw [hlo, Int.toNat_of_nonneg hid]
    · rwa [hlo]

/-- The index of a member at a level is its position in the list of the level. -/
theorem indexAt_iff_membersAt {κ : Type} {roster : Roster κ} (hdense : roster.Dense)
    (hsize : p.size = roster.size) {id : Int32} {level k : Nat} :
    p.indexAt id level = .ok k ↔
      ∃ members m, p.membersAt roster level = .ok members ∧ members[k]? = some m ∧ m.id = id := by
  rw [indexAt_eq_ok_iff]
  constructor
  · rintro ⟨s, hs, hid, hmem⟩
    obtain ⟨members, hmembers, -, hget⟩ := membersAt_eq hdense hsize hs
    obtain ⟨m, hm, hnumber⟩ := hdense.numbered _ (hsize ▸ p.lt_size_of_peers hs hmem)
    refine ⟨members, m, hmembers, ?_, Int32.toInt_inj.1 (hnumber.trans hid.symm)⟩
    rw [hget k (Span.contains_lo_add.1 hmem)]
    exact hm
  · rintro ⟨members, m, hmembers, hm, rfl⟩
    cases hs : p.peers level with
    | error fault =>
        simp only [membersAt, hs, bind, Except.bind] at hmembers
        cases hmembers
    | ok s =>
        obtain ⟨members', hmembers', hcount, hget⟩ := membersAt_eq hdense hsize hs
        obtain rfl : members' = members := Except.ok.inj (hmembers'.symm.trans hmembers)
        have hk : k < s.size := by
          rw [← hcount]
          exact (Array.getElem?_eq_some_iff.1 hm).1
        have hmem := Span.contains_lo_add.2 hk
        rw [hget k hk] at hm
        exact ⟨s, rfl, hdense.toInt_id (hsize ▸ p.lt_size_of_peers hs hmem) hm, hmem⟩

/-- For every size of the roster and every place in it, the levels that have
members are a partition of the roster, and the subtree below a level is made up
of those below it. The sizes of the levels above 0 add up to all members but
one, and nobody but a single member is alone below its last level. A number is
the index of a member at a level exactly if the list of the level has the member
at that position. -/
theorem levels_cover {κ : Type} {roster : Roster κ} (hdense : roster.Dense) {p : Place}
    (hsize : p.size = roster.size) :
    (∀ i < roster.size, ∃! level, level ≤ p.maxLevel ∧ p.HasAt level i) ∧
      (∀ level s, p.peers level = .ok s → s.lo < s.hi ∧ s.hi ≤ roster.size) ∧
      (∀ level, 1 ≤ level → level ≤ p.maxLevel + 1 → ∃ s, p.below level = .ok s ∧
        ∀ i, s.Contains i ↔ ∃ lower < level, p.HasAt lower i) ∧
      (p.levels.map p.sizeAt).sum = roster.size - 1 ∧
      (2 ≤ roster.size → ∃ s, p.peers p.maxLevel = .ok s) ∧
      ∀ id level k, p.indexAt id level = .ok k ↔
        ∃ members m, p.membersAt roster level = .ok members ∧ members[k]? = some m ∧ m.id = id := by
  rw [← hsize]
  refine ⟨fun i hi => existsUnique_hasAt hi, fun level s => p.bounds_of_peers,
    fun level hpos hle => ?_, sum_levels, fun hpair => ?_, fun id level k => ?_⟩
  · exact ⟨_, p.below_eq hle, fun i => contains_below_iff hpos hle (p.below_eq hle)⟩
  · obtain ⟨s, hs, -⟩ := p.exists_peers_of_sizeAt_pos (sizeAt_maxLevel_pos hpair)
    exact ⟨s, hs⟩
  · exact indexAt_iff_membersAt hdense hsize

/-- The fifth of six members: its neighbour is on level 1, nobody on level 2,
and the first four members are on the last level. -/
theorem levels_cover_of_six : ∃ p : Place, p.leaf = 4 ∧
    ((Plain.roster 6).Dense ∧ p.size = (Plain.roster 6).size) ∧
    p.peers 2 = .error (.levelEmpty 2) ∧
    (∃! level, level ≤ p.maxLevel ∧ p.HasAt level 2) ∧
    (p.levels.map p.sizeAt).sum = 5 ∧
    ∃ s, p.below 3 = .ok s ∧ ∀ i, s.Contains i ↔ ∃ lower < 3, p.HasAt lower i := by
  have hsize : (Plain.roster 6).size = 6 := Plain.size_roster 6
  obtain ⟨hunique, -, hbelow, hsum, -⟩ :=
    levels_cover (Plain.dense_roster 6) (p := ⟨6, 4, by decide⟩) hsize.symm
  rw [hsize] at hunique hsum
  exact ⟨⟨6, 4, by decide⟩, rfl, ⟨Plain.dense_roster 6, hsize.symm⟩, rfl, hunique 2 (by decide),
    hsum, hbelow 3 (by decide) (by decide)⟩

end Place

end MultisigTree
