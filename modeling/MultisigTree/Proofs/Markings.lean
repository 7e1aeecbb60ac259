import Mathlib.Data.Finset.Card
import Mathlib.Data.List.Perm.Subperm
import MultisigTree.Mask.Basic

/-!
# What masks mark

An operation on masks is told by the length of its result and by the positions
the result marks (`Mask.get_append`, `Mask.get_slice`, `Mask.get_union`,
`Mask.get_inter`). Masks with the same of both are equal, so the laws of these
operations are laws of their positions: what was put together is cut out again,
and no mark is lost on the way (`Mask.algebra`).
-/
namespace MultisigTree

namespace Mask

theorem get_of_length_le {m : Mask} {i : Nat} (h : m.length ≤ i) : m.get i = false := by
  simpa [get] using fun hi => Nat.not_lt.2 h (m.bounded i hi)

theorem decide_and_get (m : Mask) (i : Nat) : (decide (i < m.length) && m.get i) = m.get i := by
  by_cases hi : i < m.length
  · simp [hi]
  · simp [hi, get_of_length_le (Nat.not_lt.1 hi)]

/-! ## Lengths and positions -/

@[simp] theorem length_append (m n : Mask) : (m ++ n).length = m.length + n.length := rfl

@[simp] theorem length_union (m n : Mask) : (m.union n).length = m.length := rfl

@[simp] theorem length_inter (m n : Mask) : (m.inter n).length = m.length := rfl

theorem length_slice {m : Mask} {lo hi : Nat} (hle : lo ≤ hi) (hhi : hi ≤ m.length) :
    (m.slice lo hi).length = hi - lo := by
  unfold slice
  rw [if_pos ⟨hle, hhi⟩]

theorem slice_of_invalid {m : Mask} {lo hi : Nat} (h : ¬ (lo ≤ hi ∧ hi ≤ m.length)) :
    m.slice lo hi = m := by
  unfold slice
  rw [if_neg h]

theorem mem_append {m n : Mask} {i : Nat} :
    i ∈ (m ++ n).ones ↔ i ∈ m.ones ∨ ∃ k ∈ n.ones, k + m.length = i := by
  change i ∈ m.ones ++ n.ones.map (· + m.length) ↔ _
  simp

theorem mem_slice {m : Mask} {lo hi i : Nat} (hle : lo ≤ hi) (hhi : hi ≤ m.length) :
    i ∈ (m.slice lo hi).ones ↔ i < hi - lo ∧ lo + i ∈ m.ones := by
  unfold slice
  rw [if_pos ⟨hle, hhi⟩, List.mem_map]
  constructor
  · rintro ⟨k, hk, rfl⟩
    obtain ⟨hmem, hbounds⟩ := List.mem_filter.1 hk
    simp only [Bool.and_eq_true, decide_eq_true_eq] at hbounds
    refine ⟨by omega, ?_⟩
    rwa [Nat.add_sub_cancel' hbounds.1]
  · rintro ⟨hlt, hmem⟩
    refine ⟨lo + i, List.mem_filter.2 ⟨hmem, ?_⟩, Nat.add_sub_cancel_left lo i⟩
    simp only [Bool.and_eq_true, decide_eq_true_eq]
    omega

theorem mem_union {m n : Mask} {i : Nat} :
    i ∈ (m.union n).ones ↔ i ∈ m.ones ∨ i ∈ n.ones ∧ i < m.length := by
  simp [union, AscendingList.mem_union]

theorem mem_inter {m n : Mask} {i : Nat} : i ∈ (m.inter n).ones ↔ i ∈ m.ones ∧ i ∈ n.ones :=
  MultisigTree.mem_inter m.ascending n.ascending

/-- The positions of the second mask follow those of the first. -/
theorem get_append (m n : Mask) (i : Nat) :
    (m ++ n).get i = if i < m.length then m.get i else n.get (i - m.length) := by
  split
  · rename_i hlt
    have hnot : ∀ k, k + m.length ≠ i := by omega
    simp [get, mem_append, hnot]
  · rename_i hge
    have hm : i ∉ m.ones := fun hi => hge (m.bounded i hi)
    have hshift : (∃ k ∈ n.ones, k + m.length = i) ↔ i - m.length ∈ n.ones := by
      constructor
      · rintro ⟨k, hk, rfl⟩
        rwa [Nat.add_sub_cancel]
      · intro hk
        exact ⟨_, hk, Nat.sub_add_cancel (Nat.not_lt.1 hge)⟩
    simp [get, mem_append, hm, hshift]

theorem get_slice {m : Mask} {lo hi : Nat} (hle : lo ≤ hi) (hhi : hi ≤ m.length) (i : Nat) :
    (m.slice lo hi).get i = (decide (i < hi - lo) && m.get (lo + i)) := by
  simp [get, mem_slice hle hhi]

theorem get_union (m n : Mask) (i : Nat) :
    (m.union n).get i = (decide (i < m.length) && (m.get i || n.get i)) := by
  have hm : i ∈ m.ones → i < m.length := m.bounded i
  rw [Bool.eq_iff_iff]
  simp only [get, mem_union, Bool.and_eq_true, Bool.or_eq_true, decide_eq_true_eq]
  tauto

theorem get_inter (m n : Mask) (i : Nat) : (m.inter n).get i = (m.get i && n.get i) := by
  simp [get, mem_inter]

@[simp] theorem length_set (m : Mask) (i : Nat) (value : Bool) :
    (m.set i value).length = m.length := by
  unfold set
  split
  · split <;> rfl
  · rfl

/-- Setting a position changes that one, if the mask has it, and no other. -/
theorem get_set (m : Mask) (i : Nat) (value : Bool) (j : Nat) :
    (m.set i value).get j = if j = i ∧ i < m.length then value else m.get j := by
  unfold set
  by_cases hi : i < m.length
  · by_cases hj : j = i
    · cases value <;> simp [hi, hj, get, AscendingList.mem_insert, AscendingList.mem_erase]
    · cases value <;> simp [hi, hj, get, AscendingList.mem_insert, AscendingList.mem_erase]
  · simp [hi]

theorem get_ofList (length : Nat) (positions : List Nat) (i : Nat) :
    (ofList length positions).get i = decide (i < length ∧ i ∈ positions) := by
  simp [ofList, get, AscendingList.mem_ofList, and_comm]

/-- Listing what a mask marks gives the mask. -/
theorem ofList_ones (m : Mask) : ofList m.length m.ones = m := by
  apply ext_get
  · rfl
  · intro i
    have hbound := m.bounded i
    rw [get_ofList, Bool.eq_iff_iff, decide_eq_true_eq, get_eq_true_iff]
    tauto

theorem length_foldl_set (m : Mask) (positions : List Nat) :
    (positions.foldl (·.set · true) m).length = m.length := by
  induction positions generalizing m with
  | nil => rfl
  | cons i positions ih => rw [List.foldl_cons, ih, length_set]

theorem get_foldl_set (m : Mask) (positions : List Nat) (i : Nat) :
    (positions.foldl (·.set · true) m).get i =
      (m.get i || decide (i < m.length ∧ i ∈ positions)) := by
  induction positions generalizing m with
  | nil => simp
  | cons j positions ih =>
      rw [List.foldl_cons, ih, get_set, length_set]
      by_cases hij : i = j
      · subst hij
        by_cases hi : i < m.length <;> simp [hi]
      · simp [hij]

/-- A mask of listed positions is made by marking them one after the other. -/
theorem ofList_eq_foldl (length : Nat) (positions : List Nat) :
    ofList length positions = positions.foldl (·.set · true) (empty length) := by
  apply ext_get
  · rw [length_foldl_set]
    rfl
  · intro i
    have hclear : (empty length).get i = false := by simp [get, empty]
    rw [get_ofList, get_foldl_set, hclear, Bool.false_or]
    rfl

/-! ## Concatenation -/

theorem append_assoc (a b c : Mask) : a ++ b ++ c = a ++ (b ++ c) := by
  apply ext_get
  · simp [Nat.add_assoc]
  · intro i
    simp only [get_append, length_append]
    grind

theorem slice_append_left (a b : Mask) : (a ++ b).slice 0 a.length = a := by
  have hle : a.length ≤ (a ++ b).length := by simp
  apply ext_get
  · rw [length_slice (Nat.zero_le _) hle, Nat.sub_zero]
  · intro i
    rw [get_slice (Nat.zero_le _) hle, get_append]
    by_cases hi : i < a.length
    · simp [hi]
    · simp [hi, get_of_length_le (Nat.not_lt.1 hi)]

theorem slice_append_right (a b : Mask) :
    (a ++ b).slice a.length (a.length + b.length) = b := by
  have hlo : a.length ≤ a.length + b.length := Nat.le_add_right _ _
  have hhi : a.length + b.length ≤ (a ++ b).length := by simp
  apply ext_get
  · rw [length_slice hlo hhi, Nat.add_sub_cancel_left]
  · intro i
    rw [get_slice hlo hhi, get_append, if_neg (Nat.not_lt.2 (Nat.le_add_right _ _)),
      Nat.add_sub_cancel_left, Nat.add_sub_cancel_left, decide_and_get]

theorem append_slice {a : Mask} {k : Nat} (h : k ≤ a.length) :
    a.slice 0 k ++ a.slice k a.length = a := by
  have hfront : (a.slice 0 k).length = k := by rw [length_slice (Nat.zero_le _) h, Nat.sub_zero]
  have hback : (a.slice k a.length).length = a.length - k := length_slice h (Nat.le_refl _)
  apply ext_get
  · rw [length_append, hfront, hback, Nat.add_sub_cancel' h]
  · intro i
    rw [get_append, hfront, get_slice (Nat.zero_le _) h, get_slice h (Nat.le_refl _)]
    split
    · rename_i hlt
      simp [hlt]
    · rename_i hge
      have hshift : i - k < a.length - k ↔ i < a.length := by omega
      rw [Nat.add_sub_cancel' (Nat.not_lt.1 hge), decide_eq_decide.2 hshift, decide_and_get]

/-- The whole of a mask, cut out of it, is the mask. -/
theorem slice_all (m : Mask) : m.slice 0 m.length = m := by
  apply ext_get
  · rw [length_slice (Nat.zero_le _) (Nat.le_refl _), Nat.sub_zero]
  · intro i
    rw [get_slice (Nat.zero_le _) (Nat.le_refl _), Nat.sub_zero, Nat.zero_add, decide_and_get]

theorem concat_eq_ok {m n : Mask} (h : m.length + n.length < Word.limit) :
    m.concat n = .ok (m ++ n) := by
  unfold concat
  rw [Word.add_eq_ok_iff.2 ⟨h, rfl⟩]
  rfl

/-! ## Counting -/

theorem nodup_ones (m : Mask) : m.ones.Nodup :=
  m.ascending.imp Nat.ne_of_lt

theorem subperm_range (m : Mask) : m.ones.Subperm (List.range m.length) :=
  List.Nodup.subperm m.nodup_ones fun i hi => List.mem_range.2 (m.bounded i hi)

theorem card_le_length (m : Mask) : m.card ≤ m.length := by
  have := m.subperm_range.length_le
  rwa [List.length_range] at this

/-- A mask that marks nothing that another does not mark has no more marks. -/
theorem card_le_card {m n : Mask} (h : ∀ i ∈ m.ones, i ∈ n.ones) : m.card ≤ n.card :=
  (List.Nodup.subperm m.nodup_ones h).length_le

theorem card_toFinset_ones (m : Mask) : m.ones.toFinset.card = m.card :=
  List.toFinset_card_of_nodup m.nodup_ones

/-- What is in both is counted twice. -/
theorem card_union_add_card_inter {a b : Mask} (h : a.length = b.length) :
    (a.union b).card + (a.inter b).card = a.card + b.card := by
  have hunion : (a.union b).ones.toFinset = a.ones.toFinset ∪ b.ones.toFinset := by
    ext i
    have := b.bounded i
    simp only [List.mem_toFinset, Finset.mem_union, mem_union]
    grind
  have hinter : (a.inter b).ones.toFinset = a.ones.toFinset ∩ b.ones.toFinset := by
    ext i
    simp [mem_inter]
  simp only [← card_toFinset_ones, hunion, hinter, Finset.card_union_add_card_inter]

/-- A full mask marks every position. -/
theorem isFull_iff {m : Mask} : m.isFull = true ↔ ∀ i < m.length, m.get i = true := by
  simp only [isFull, decide_eq_true_eq, get_eq_true_iff]
  constructor
  · intro hcard i hi
    have hlen : (List.range m.length).length ≤ m.ones.length := by
      rw [List.length_range]
      exact hcard.ge
    exact (m.subperm_range.perm_of_length_le hlen).mem_iff.2 (List.mem_range.2 hi)
  · intro hall
    have hlen := (List.Nodup.subperm List.nodup_range fun i hi =>
      hall i (List.mem_range.1 hi)).length_le
    rw [List.length_range] at hlen
    exact Nat.le_antisymm m.card_le_length hlen

/-- Masks that do not meet have no marked position in common. -/
theorem meets_eq_false_iff {m n : Mask} : m.meets n = false ↔ ∀ i ∈ m.ones, i ∉ n.ones := by
  simp [meets, isEmpty_iff, List.eq_nil_iff_forall_not_mem, mem_inter]

theorem meets_iff {m n : Mask} : m.meets n = true ↔ ∃ i, m.get i = true ∧ n.get i = true := by
  rw [← Bool.not_eq_false, meets_eq_false_iff]
  simp [get]

theorem meets_comm (m n : Mask) : m.meets n = n.meets m := by
  rw [Bool.eq_iff_iff, meets_iff, meets_iff]
  simp only [and_comm]

/-! ## All together -/

/-- Masks put end to end, however they are grouped, are cut apart again, and a
mask cut at any position is put together again. The union marks what either
mask marks within the length of the first, the intersection what both mark, and
two masks meet if there is such a position. No sum of lengths may leave a word;
a slice with no bounds within the mask is the mask. -/
theorem algebra (a b c : Mask) :
    (a.length + b.length < Word.limit →
      ∃ ab, a.concat b = .ok ab ∧ ab.slice 0 a.length = a ∧
        ab.slice a.length (a.length + b.length) = b) ∧
    (a.length < Word.limit → ∀ k ≤ a.length,
      (a.slice 0 k).concat (a.slice k a.length) = .ok a) ∧
    (a.length + b.length + c.length < Word.limit →
      ∃ ab bc abc, a.concat b = .ok ab ∧ b.concat c = .ok bc ∧
        ab.concat c = .ok abc ∧ a.concat bc = .ok abc) ∧
    ((a.union b).length = a.length ∧
      ∀ i, (a.union b).get i = true ↔ i < a.length ∧ (a.get i = true ∨ b.get i = true)) ∧
    ((a.inter b).length = a.length ∧
      ∀ i, (a.inter b).get i = true ↔ a.get i = true ∧ b.get i = true) ∧
    (a.meets b = b.meets a ∧ (a.meets b = true ↔ ∃ i, a.get i = true ∧ b.get i = true)) ∧
    (a.length = b.length → (a.union b).card + (a.inter b).card = a.card + b.card) ∧
    ∀ lo hi, ¬ (lo ≤ hi ∧ hi ≤ a.length) → a.slice lo hi = a := by
  refine ⟨?_, ?_, ?_, ⟨length_union a b, ?_⟩, ⟨length_inter a b, ?_⟩, ⟨meets_comm a b, meets_iff⟩,
    card_union_add_card_inter, fun lo hi => slice_of_invalid⟩
  · intro hfits
    exact ⟨a ++ b, concat_eq_ok hfits, slice_append_left a b, slice_append_right a b⟩
  · intro hfits k hk
    have hsum : (a.slice 0 k).length + (a.slice k a.length).length < Word.limit := by
      rwa [← length_append, append_slice hk]
    rw [concat_eq_ok hsum, append_slice hk]
  · intro hfits
    have hleft : (a ++ b).length + c.length < Word.limit := hfits
    have hright : a.length + (b ++ c).length < Word.limit := by
      rwa [length_append, ← Nat.add_assoc]
    refine ⟨a ++ b, b ++ c, a ++ b ++ c, concat_eq_ok (by omega), concat_eq_ok (by omega),
      concat_eq_ok hleft, ?_⟩
    rw [concat_eq_ok hright, append_assoc]
  · simp [get_union]
  · simp [get_inter]

/-- Two masks of four positions with position 2 in common, and a third one. -/
theorem algebra_of_four :
    ∃ a b c ab bc abc : Mask,
      (a = ofList 4 [0, 2] ∧ b = ofList 4 [1, 2] ∧ c = ofList 2 [0, 5]) ∧
      a.length + b.length + c.length < Word.limit ∧ a.length = b.length ∧
      a.concat b = .ok ab ∧ ab.slice 0 4 = a ∧ ab.slice 4 8 = b ∧
      (a.slice 0 3).concat (a.slice 3 4) = .ok a ∧
      b.concat c = .ok bc ∧ ab.concat c = .ok abc ∧ a.concat bc = .ok abc ∧
      (∀ i, (a.union b).get i = true ↔ i < 4 ∧ (a.get i = true ∨ b.get i = true)) ∧
      a.meets b = true ∧ (a.union b).card = 3 ∧ (a.inter b).card = 1 ∧ a.card + b.card = 4 ∧
      ¬ (3 ≤ 1 ∧ 1 ≤ a.length) ∧ a.slice 3 1 = a := by
  obtain ⟨a, b, c, ha, hb, hc⟩ : ∃ a b c : Mask,
      a = ofList 4 [0, 2] ∧ b = ofList 4 [1, 2] ∧ c = ofList 2 [0, 5] := ⟨_, _, _, rfl, rfl, rfl⟩
  have hlena : a.length = 4 := by rw [ha]; rfl
  have hlenb : b.length = 4 := by rw [hb]; rfl
  have hlenc : c.length = 2 := by rw [hc]; rfl
  have hfits : a.length + b.length + c.length < Word.limit := by
    rw [hlena, hlenb, hlenc]
    decide
  have hinvalid : ¬ (3 ≤ 1 ∧ 1 ≤ a.length) := by omega
  obtain ⟨hcut, hsplit, hassoc, ⟨-, hunion⟩, -, ⟨-, hmeets⟩, hcount, hslice⟩ := algebra a b c
  obtain ⟨ab, hab, hfront, hback⟩ := hcut (by omega)
  obtain ⟨ab', bc, abc, hab', hbc, habc, habc'⟩ := hassoc hfits
  obtain rfl : ab = ab' := Except.ok.inj (hab.symm.trans hab')
  have hcard : (a.inter b).card = 1 := by rw [ha, hb]; decide
  have hcards : a.card + b.card = 4 := by rw [ha, hb]; decide
  have hsum := hcount (hlena.trans hlenb.symm)
  rw [hlena, hlenb] at hback
  rw [hlena] at hfront hunion hsplit
  refine ⟨a, b, c, ab, bc, abc, ⟨ha, hb, hc⟩, hfits, hlena.trans hlenb.symm, hab, hfront, hback,
    hsplit (by decide) 3 (by decide), hbc, habc, habc', hunion, hmeets.2 ⟨2, ?_⟩, by omega, hcard,
    hcards, hinvalid, hslice 3 1 hinvalid⟩
  rw [ha, hb]
  decide

end Mask

end MultisigTree
