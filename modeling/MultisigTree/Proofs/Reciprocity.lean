import MultisigTree.Proofs.Coverage
import MultisigTree.Proofs.Windows

/-!
# Two places see each other alike

Two members put each other on the same level, and what one of them has at that
level is the subtree of the other below it. So a mask that one combines for the
level has one position for each member that the other has there, in the same
order (`Place.levels_reciprocal`).
-/
namespace MultisigTree

namespace Place

variable {p q : Place}

theorem maxLevel_eq (hsize : p.size = q.size) : p.maxLevel = q.maxLevel := by
  rw [maxLevel, maxLevel, hsize]

theorem hasAt_comm (hsize : p.size = q.size) {level : Nat} (hle : level ≤ p.maxLevel) :
    p.HasAt level q.leaf ↔ q.HasAt level p.leaf := by
  rw [hasAt_iff hle, hasAt_iff (maxLevel_eq hsize ▸ hle), levelOf_comm]
  have hp := p.leaf_lt
  have hq := q.leaf_lt
  rw [hsize] at hp ⊢
  simp only [hp, hq, true_and]

theorem levelOf_pos (hne : p.leaf ≠ q.leaf) : 0 < p.levelOf q.leaf :=
  Nat.pos_of_ne_zero fun h => hne (p.levelOf_eq_zero_iff.1 h).symm

/-- The members below the level of another one are those that it has on that
level. -/
theorem levelOf_lt_iff (hsize : p.size = q.size) (hpos : 0 < p.levelOf q.leaf) {i : Nat}
    (hi : i < p.size) : p.levelOf i < p.levelOf q.leaf ↔ q.levelOf i = p.levelOf q.leaf := by
  have hle : p.levelOf q.leaf ≤ p.maxLevel := p.levelOf_le_maxLevel (hsize ▸ q.leaf_lt)
  have hbelow := p.below_eq (Nat.le_succ_of_le hle)
  have hpeers := (peers_eq_below hsize hpos).trans hbelow
  have hleft := p.contains_below (i := i) hpos (Nat.le_succ_of_le hle) hbelow
  have hright := (q.peers_spec (maxLevel_eq hsize ▸ hle) hpeers).2.2 i
  rw [hleft, ← hsize] at hright
  constructor
  · intro h
    exact (hright.1 ⟨hi, h⟩).2
  · intro h
    exact (hright.2 ⟨hi, h⟩).2

/-- Two different members of one roster, whatever its size: each is on a level
of the other exactly if the other is on that level of it, and there is one such
level. What the second has at that level is the subtree of the first below it,
so whatever the first combines for the level has one position for each member
that the second lists there, marked if the parts mark that member. -/
theorem levels_reciprocal {κ : Type} {roster : Roster κ} (hdense : roster.Dense)
    (hp : p.size = roster.size) (hq : q.size = roster.size) (hne : p.leaf ≠ q.leaf) :
    (∀ level, 1 ≤ level → level ≤ p.maxLevel →
      (p.HasAt level q.leaf ↔ q.HasAt level p.leaf) ∧
      (p.HasAt level q.leaf → ∃ w members, p.below level = .ok w ∧ q.peers level = .ok w ∧
        q.membersAt roster level = .ok members ∧
        ∀ {σ : Type} (scheme : Scheme κ σ) parts m,
          p.combine scheme parts level = .ok (some m) → m.length = members.size ∧
            ∀ k member, members[k]? = some member →
              (m.mask.get k = true ↔ ∃ part ∈ parts, ∃ s, p.peers part.level = .ok s ∧
                member.id.toInt.toNat ∈ part.multisig.marks s.lo))) ∧
      ∃! level, (1 ≤ level ∧ level ≤ p.maxLevel) ∧ p.HasAt level q.leaf := by
  have hsize : p.size = q.size := hp.trans hq.symm
  have hlt : q.leaf < p.size := hsize ▸ q.leaf_lt
  refine ⟨fun level hpos hle => ⟨hasAt_comm hsize hle, fun hat => ?_⟩, ?_⟩
  · obtain ⟨-, rfl⟩ := (hasAt_iff hle).1 hat
    have hw := p.below_eq (Nat.le_succ_of_le hle)
    generalize (Walk.block p.leaf (p.levelOf q.leaf)).clip p.size = w at hw
    have hpeers := (peers_eq_below hsize hpos).trans hw
    obtain ⟨members, hmembers, hcount, hget⟩ := membersAt_eq hdense hq hpeers
    refine ⟨w, members, hw, hpeers, hmembers, fun scheme parts m hm => ?_⟩
    obtain ⟨hlen, hmem⟩ := mem_combine hw hm
    refine ⟨hlen.trans hcount.symm, fun k member hmember => ?_⟩
    have hk : k < w.size := by
      rw [← hcount]
      exact (Array.getElem?_eq_some_iff.1 hmember).1
    have hmember' := (hget k hk).symm.trans hmember
    have hnumber : member.id.toInt.toNat = w.lo + k := by
      have := hdense.toInt_id (hq ▸ q.lt_size_of_peers hpeers (Span.contains_lo_add.2 hk)) hmember'
      omega
    rw [Mask.get_eq_true_iff, hmem, hnumber]
    simp only [hk, true_and]
  · have hle := p.levelOf_le_maxLevel hlt
    refine ⟨p.levelOf q.leaf, ⟨⟨levelOf_pos hne, hle⟩, (hasAt_iff hle).2 ⟨hlt, rfl⟩⟩, ?_⟩
    rintro level ⟨⟨-, hlevel⟩, hat⟩
    exact ((hasAt_iff hlevel).1 hat).2.symm

/-- The fifth and the second of six members are on level 3 of each other, where
the second has only two members, the last of the roster. -/
theorem levels_reciprocal_of_six : ∃ p q : Place, (p.leaf = 4 ∧ q.leaf = 1) ∧
    ((Plain.roster 6).Dense ∧ p.size = (Plain.roster 6).size ∧ q.size = (Plain.roster 6).size ∧
      p.leaf ≠ q.leaf) ∧
    (p.HasAt 3 1 ↔ q.HasAt 3 4) ∧ p.below 3 = .ok ⟨4, 6⟩ ∧ q.peers 3 = .ok ⟨4, 6⟩ ∧
    ∃! level, (1 ≤ level ∧ level ≤ p.maxLevel) ∧ p.HasAt level 1 := by
  have hsize : (Plain.roster 6).size = 6 := Plain.size_roster 6
  obtain ⟨hlevels, hunique⟩ := levels_reciprocal (Plain.dense_roster 6)
    (p := ⟨6, 4, by decide⟩) (q := ⟨6, 1, by decide⟩) hsize.symm hsize.symm (by decide)
  exact ⟨⟨6, 4, by decide⟩, ⟨6, 1, by decide⟩, ⟨rfl, rfl⟩,
    ⟨Plain.dense_roster 6, hsize.symm, hsize.symm, by decide⟩,
    (hlevels 3 (by decide) (by decide)).1, rfl, rfl, hunique⟩

end Place

end MultisigTree
