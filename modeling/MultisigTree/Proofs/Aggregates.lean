import MultisigTree.Proofs.Gains

/-!
# Aggregates of what is held

Holdings are tidy if every multi-signature held has one position for each
member of its level and marks at least one of them, and there is one for level
0, the member's own. Tidy holdings show each member at most once, on its level
(`Holdings.Shows`). What they show on the levels below some level, or on all of
them, is aggregated without a crash and laid out where the members stand
(`Holdings.combined_eq`, `Holdings.whole_eq`).
-/
namespace MultisigTree

namespace Holdings

variable {κ σ : Type}

structure Tidy (p : Place) (h : Holdings σ) : Prop where
  suits : h.Each p.Suits
  marked : h.Each fun _ m => 0 < m.card
  own : ∃ m, h.best? 0 = some m

/-- Member `i` is marked by what is held for its level. -/
def Shows (p : Place) (h : Holdings σ) (i : Nat) : Prop :=
  ∃ m, h.best? (p.levelOf i) = some m ∧ i ∈ m.marks (p.startOf (p.levelOf i))

variable {p : Place} {h : Holdings σ}

theorem mem_parts {part : Part σ} :
    part ∈ h.parts ↔ h.best? part.level = some part.multisig := by
  unfold best? parts
  rw [LevelMap.get?_eq_some_iff, List.mem_map]
  constructor
  · rintro ⟨⟨level, m⟩, hmem, rfl⟩
    exact hmem
  · intro hmem
    exact ⟨_, hmem, rfl⟩

theorem Each.spread (hsuits : h.Each p.Suits) (keep : Part σ → Bool) :
    p.Spread (h.parts.filter keep) where
  ascending := by
    refine List.Pairwise.filter _ ?_
    unfold parts
    rw [List.pairwise_map]
    exact List.pairwise_map.1 h.table.ascending
  suits part hpart := hsuits _ _ (mem_parts.1 (List.mem_filter.1 hpart).1)

theorem Tidy.level_le (tidy : h.Tidy p) {level : Nat} {m : Multisig σ}
    (hbest : h.best? level = some m) : level ≤ p.maxLevel :=
  (tidy.suits level m hbest).1

/-- No level has more contributions than members. -/
theorem Tidy.count_le (tidy : h.Tidy p) (level : Nat) : h.count level ≤ p.sizeAt level := by
  unfold count
  cases hbest : h.best? level with
  | none => exact Nat.zero_le _
  | some m =>
      obtain ⟨-, s, hs, hlen⟩ := tidy.suits level m hbest
      rw [p.sizeAt_eq hs, ← hlen]
      exact m.mask.card_le_length

/-- Contributions held for all the levels below `bound`. -/
def below (h : Holdings σ) (bound : Nat) : Nat :=
  ∑ level ∈ Finset.range bound, h.count level

theorem below_le_below {h h' : Holdings σ} (hle : ∀ level, h.count level ≤ h'.count level)
    (bound : Nat) : h.below bound ≤ h'.below bound :=
  Finset.sum_le_sum fun level _ => hle level

theorem below_lt_below {h h' : Holdings σ} (hle : ∀ level, h.count level ≤ h'.count level)
    {level bound : Nat} (hlevel : level < bound) (hlt : h.count level < h'.count level) :
    h.below bound < h'.below bound :=
  Finset.sum_lt_sum (fun level _ => hle level) ⟨level, Finset.mem_range.2 hlevel, hlt⟩

theorem sum_card_parts (h : Holdings σ) (bound : Nat) :
    ((h.parts.filter (·.level < bound)).map (·.multisig.card)).sum = h.below bound := by
  unfold below
  have hcard : (h.parts.filter (·.level < bound)).map (·.multisig.card) =
      ((h.parts.filter (·.level < bound)).map (·.level)).map h.count := by
    rw [List.map_map]
    refine List.map_congr_left fun part hpart => ?_
    exact (count_eq (mem_parts.1 (List.mem_filter.1 hpart).1)).symm
  have hnodup : ((h.parts.filter (·.level < bound)).map (·.level)).Nodup := by
    have hasc : (h.parts.map (·.level)).Pairwise (· < ·) := by
      unfold parts
      rw [List.map_map]
      exact h.table.ascending
    exact (hasc.sublist (List.filter_sublist.map _)).imp Nat.ne_of_lt
  rw [hcard, ← List.sum_toFinset _ hnodup]
  refine Finset.sum_subset (fun level hlevel => ?_) (fun level hlevel hnot => ?_)
  · obtain ⟨part, hpart, rfl⟩ := List.mem_map.1 (List.mem_toFinset.1 hlevel)
    simpa using (List.mem_filter.1 hpart).2
  · unfold count
    cases hbest : h.best? level with
    | none => rfl
    | some m =>
        have hpart : (⟨level, m⟩ : Part σ) ∈ h.parts.filter (·.level < bound) :=
          List.mem_filter.2 ⟨mem_parts.2 hbest, by simpa using hlevel⟩
        exact absurd (List.mem_toFinset.2 (List.mem_map.2 ⟨_, hpart, rfl⟩)) hnot

theorem Each.mem_marks_iff (hsuits : h.Each p.Suits) {scheme : Scheme κ σ} {w : Span}
    {m : Multisig σ} {bound : Nat}
    (hm : p.Gathers scheme (h.parts.filter (·.level < bound)) w m) {i : Nat} :
    i ∈ m.marks w.lo ↔ h.Shows p i ∧ p.levelOf i < bound := by
  rw [hm.mem_marks_iff]
  constructor
  · rintro ⟨part, hpart, hi⟩
    obtain ⟨hmem, hlt⟩ := List.mem_filter.1 hpart
    have hbest := mem_parts.1 hmem
    have hlevel := ((hsuits _ _ hbest).mem_marks hi).2
    rw [← hlevel] at hbest hi hlt
    exact ⟨⟨part.multisig, hbest, hi⟩, by simpa using hlt⟩
  · rintro ⟨⟨held, hbest, hi⟩, hlt⟩
    exact ⟨⟨p.levelOf i, held⟩, List.mem_filter.2 ⟨mem_parts.2 hbest, by simpa using hlt⟩, hi⟩

theorem Tidy.mem_marks_iff (tidy : h.Tidy p) {scheme : Scheme κ σ} {w : Span} {m : Multisig σ}
    {bound : Nat} (hm : p.Gathers scheme (h.parts.filter (·.level < bound)) w m) {i : Nat} :
    i ∈ m.marks w.lo ↔ h.Shows p i ∧ p.levelOf i < bound :=
  tidy.suits.mem_marks_iff hm

theorem Each.shows_lt (hsuits : h.Each p.Suits) {i : Nat} (hi : h.Shows p i) : i < p.size := by
  obtain ⟨m, hbest, hmem⟩ := hi
  exact ((hsuits _ _ hbest).mem_marks hmem).1

/-- What is held for levels up to some level is combined if there is any. -/
theorem Each.exists_combined (hsuits : h.Each p.Suits) (scheme : Scheme κ σ)
    (hlimit : p.size ≤ Word.limit) {level lower : Nat} (hlower : lower ≤ min level p.maxLevel)
    {held : Multisig σ} (hheld : h.best? lower = some held) :
    ∃ w m, p.below (min level p.maxLevel + 1) = .ok w ∧
      h.combined scheme p level = .ok (some m) ∧
      p.Gathers scheme (h.parts.filter (·.level < min level p.maxLevel + 1)) w m := by
  have hpart : (⟨lower, held⟩ : Part σ) ∈
      h.parts.filter (·.level < min level p.maxLevel + 1) :=
    List.mem_filter.2 ⟨mem_parts.2 hheld, by simpa using Nat.lt_succ_of_le hlower⟩
  obtain ⟨w, m, hw, hm, hgathers⟩ := Place.combine_eq scheme (hsuits.spread _)
    (List.ne_nil_of_mem hpart) (fun part hpart => by simpa using (List.mem_filter.1 hpart).2)
    (Nat.succ_le_succ (Nat.min_le_right level p.maxLevel)) hlimit
  refine ⟨w, m, hw, ?_, hgathers⟩
  have hfilter : h.parts.filter (·.level ≤ min level p.maxLevel) =
      h.parts.filter (·.level < min level p.maxLevel + 1) :=
    List.filter_congr fun part _ => by simp only [Nat.lt_succ_iff]
  simp only [combined, hfilter]
  exact hm

theorem combined_eq (tidy : h.Tidy p) (scheme : Scheme κ σ) (hlimit : p.size ≤ Word.limit)
    {level : Nat} (hpos : 0 < level) (hle : level ≤ p.maxLevel + 1) :
    ∃ w m, p.below level = .ok w ∧ h.combined scheme p (level - 1) = .ok (some m) ∧
      p.Gathers scheme (h.parts.filter (·.level < level)) w m := by
  obtain ⟨own, hown⟩ := tidy.own
  have hcombined := tidy.suits.exists_combined scheme hlimit
    (Nat.zero_le (min (level - 1) p.maxLevel)) hown
  have hmin : min (level - 1) p.maxLevel + 1 = level := by omega
  rwa [hmin] at hcombined

/-- All that is held is combined if there is any. -/
theorem Each.exists_whole (hsuits : h.Each p.Suits) (scheme : Scheme κ σ)
    (hlimit : p.size ≤ Word.limit) {level : Nat} {held : Multisig σ}
    (hheld : h.best? level = some held) :
    ∃ m, h.whole scheme p = .ok (some m) ∧
      p.Gathers scheme (h.parts.filter (·.level < p.maxLevel + 1)) ⟨0, p.size⟩ m := by
  have hall : h.parts.filter (·.level < p.maxLevel + 1) = h.parts := by
    refine List.filter_eq_self.2 fun part hpart => ?_
    have := (hsuits _ _ (mem_parts.1 hpart)).1
    simp only [decide_eq_true_eq]
    omega
  have hspread := hsuits.spread fun part => part.level < p.maxLevel + 1
  rw [hall] at hspread ⊢
  have hpart : (⟨level, held⟩ : Part σ) ∈ h.parts := mem_parts.2 hheld
  exact Place.combineAll_eq scheme hspread (List.ne_nil_of_mem hpart) hlimit

theorem whole_eq (tidy : h.Tidy p) (scheme : Scheme κ σ) (hlimit : p.size ≤ Word.limit) :
    ∃ m, h.whole scheme p = .ok (some m) ∧
      p.Gathers scheme (h.parts.filter (·.level < p.maxLevel + 1)) ⟨0, p.size⟩ m := by
  obtain ⟨own, hown⟩ := tidy.own
  exact tidy.suits.exists_whole scheme hlimit hown

theorem gathers_of_whole (tidy : h.Tidy p) {scheme : Scheme κ σ} (hlimit : p.size ≤ Word.limit)
    {m : Multisig σ} (hm : h.whole scheme p = .ok (some m)) :
    p.Gathers scheme (h.parts.filter (·.level < p.maxLevel + 1)) ⟨0, p.size⟩ m := by
  obtain ⟨m', hm', hgathers⟩ := whole_eq tidy scheme hlimit
  obtain rfl : m = m' := Option.some.inj (Except.ok.inj (hm.symm.trans hm'))
  exact hgathers

theorem joins_suits (scheme : Scheme κ σ) (p : Place) :
    Joins (σ := σ) scheme p.Suits := by
  rintro level a b ⟨hle, s, hs, hlen⟩ - - -
  exact ⟨hle, s, hs, hlen⟩

theorem joins_marked (scheme : Scheme κ σ) :
    Joins scheme fun _ (m : Multisig σ) => 0 < m.card := by
  intro level a b ha _ hlen hmeets
  have := Multisig.card_join scheme hlen hmeets
  omega

theorem Tidy.add (tidy : h.Tidy p) (scheme : Scheme κ σ) {level : Nat} {m : Multisig σ}
    (hsuits : p.Suits level m) (hmarked : 0 < m.card) :
    (h.add scheme level m).2.Tidy p where
  suits := tidy.suits.add (joins_suits scheme p) hsuits
  marked := tidy.marked.add (joins_marked scheme) hmarked
  own := by
    obtain ⟨own, hown⟩ := tidy.own
    have hpos := tidy.marked 0 own hown
    have hle := count_le_count_add scheme h level m 0
    rw [count_eq hown] at hle
    cases hbest : (h.add scheme level m).2.best? 0 with
    | none =>
        rw [count, hbest] at hle
        exact absurd hle (Nat.not_le.2 hpos)
    | some m' => exact ⟨m', rfl⟩

end Holdings

namespace Verifier

variable {κ σ : Type} {v : Verifier κ σ}

/-- A multi-signature of a level vouches for the members it marks. -/
def VouchesAt (v : Verifier κ σ) (level : Nat) (m : Multisig σ) : Prop :=
  v.Vouches (v.place.startOf level) m

theorem joins_vouchesAt (lawful : v.scheme.Lawful) :
    Holdings.Joins v.scheme v.VouchesAt := by
  intro level a b ha hb hlen hmeets
  have hperm : ((a.join v.scheme b).marks (v.place.startOf level)).Perm
      (a.marks (v.place.startOf level) ++ b.marks (v.place.startOf level)) := by
    have := (Multisig.perm_ones_join v.scheme hlen hmeets).map (v.place.startOf level + ·)
    rwa [List.map_append] at this
  unfold VouchesAt Vouches
  rw [v.keyOf_perm lawful hperm, v.keyOf_append lawful]
  exact lawful.verifies_merge _ _ _ _ _ ha hb

/-- What holdings are aggregated to vouches for the members it marks. -/
theorem vouches_of_each (lawful : v.scheme.Lawful) {p : Place} {h : Holdings σ}
    (hp : p = v.place) (heach : h.Each v.VouchesAt) {keep : Part σ → Bool} {w : Span}
    {m : Multisig σ} (hm : p.Gathers v.scheme (h.parts.filter keep) w m) : v.Vouches w.lo m := by
  subst hp
  refine vouches_of_gathers lawful hm fun part hpart => ?_
  exact heach _ _ (Holdings.mem_parts.1 (List.mem_filter.1 hpart).1)

end Verifier

end MultisigTree
