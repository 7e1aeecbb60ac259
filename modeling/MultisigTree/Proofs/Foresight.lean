import MultisigTree.Proofs.Provenance

/-!
# The score of an offer foretells its use

What is held changes by an offer exactly if the score that the offer had before
is not 0. It changes at the level of the offer only, which gains contributions:
all those of the offer if the score announced a join. So an offer that marks
nothing new is of no use, and neither is one that was taken in just before
(`Holdings.foretold_add`). Over any offers, what is held for a level never loses
contributions and has at least those of each offer
(`Holdings.every_offer_is_foretold`).
-/
namespace MultisigTree

namespace Holdings

variable {κ σ : Type} {scheme : Scheme κ σ} {h : Holdings σ} {level : Nat} {m : Multisig σ}

theorem changed_iff_evaluate_ne_zero (scheme : Scheme κ σ) (h : Holdings σ) (o : Offer σ) :
    (h.add scheme o.level.toNat o.multisig).1 = true ↔ h.evaluate o ≠ 0 := by
  unfold add evaluate
  cases h.gain o.level.toNat o.multisig <;> simp [Gain.score]

theorem eq_of_gain_joins {held : Multisig σ} (hgain : h.gain level m = .joins held) :
    h.best? level = some held ∧ held.length = m.length ∧ held.mask.meets m.mask = false := by
  unfold gain gainOver at hgain
  by_cases hzero : m.card = 0
  · rw [if_pos hzero] at hgain
    cases hgain
  · rw [if_neg hzero] at hgain
    cases hbest : h.best? level with
    | none =>
        rw [hbest] at hgain
        cases hgain
    | some old =>
        rw [hbest] at hgain
        dsimp only at hgain
        by_cases hjoin : old.length = m.length ∧ (!old.mask.meets m.mask) = true
        · rw [if_pos hjoin] at hgain
          cases hgain
          exact ⟨rfl, hjoin.1, by simpa using hjoin.2⟩
        · rw [if_neg hjoin] at hgain
          split at hgain <;> cases hgain

/-- A score of 2 announces that the offer is joined with what is held. -/
theorem best?_add_of_evaluate_eq_two (scheme : Scheme κ σ) {o : Offer σ}
    (htwo : h.evaluate o = 2) :
    ∃ held, h.best? o.level.toNat = some held ∧
      (h.add scheme o.level.toNat o.multisig).2.best? o.level.toNat =
        some (held.join scheme o.multisig) ∧
      (held.join scheme o.multisig).card = held.card + o.multisig.card := by
  unfold evaluate at htwo
  cases hgain : h.gain o.level.toNat o.multisig with
  | nothing =>
      rw [hgain] at htwo
      cases htwo
  | replaces =>
      rw [hgain] at htwo
      cases htwo
  | joins held =>
      obtain ⟨hbest, hlen, hmeets⟩ := eq_of_gain_joins hgain
      refine ⟨held, hbest, ?_, Multisig.card_join scheme hlen hmeets⟩
      unfold add
      rw [hgain]
      exact best?_insert_self h _ _

theorem add_of_covered (scheme : Scheme κ σ) {held : Multisig σ}
    (hbest : h.best? level = some held) (hlen : held.length = m.length)
    (hcovered : ∀ i ∈ m.mask.ones, i ∈ held.mask.ones) :
    h.add scheme level m = (false, h) := by
  have htaken := taken_add scheme h level m
  generalize h.add scheme level m = r at htaken ⊢
  cases htaken with
  | useless => rfl
  | replaced _ hlt =>
      have hle : m.card ≤ held.card := Mask.card_le_card hcovered
      exact absurd (hlt held hbest) (Nat.not_lt.2 hle)
  | joined old hpos hold _ hmeets =>
      obtain rfl : old = held := Option.some.inj (hold.symm.trans hbest)
      have hapart := Mask.meets_eq_false_iff.1 hmeets
      obtain ⟨i, hi⟩ := List.exists_mem_of_length_pos hpos
      exact absurd hi (hapart i (hcovered i hi))

theorem add_again (scheme : Scheme κ σ) (h : Holdings σ) (level : Nat) (m : Multisig σ) :
    (h.add scheme level m).2.add scheme level m = (false, (h.add scheme level m).2) := by
  cases hchanged : (h.add scheme level m).1 with
  | false =>
      rw [add_snd_of_unchanged hchanged]
      exact Prod.ext hchanged (add_snd_of_unchanged hchanged)
  | true =>
      have htaken := taken_add scheme h level m
      generalize h.add scheme level m = r at htaken hchanged ⊢
      cases htaken with
      | useless => cases hchanged
      | replaced => exact add_of_covered scheme (best?_insert_self h level m) rfl fun _ hi => hi
      | joined held _ _ hlen =>
          refine add_of_covered scheme (best?_insert_self h level _) hlen fun i hi => ?_
          exact (Multisig.mem_join hlen).2 (.inr hi)

/-- What the score of an offer and the entry of its level tell of the moment
when the offer is taken in. -/
structure Foretold (h : Holdings σ) (o : Offer σ) (scheme : Scheme κ σ) (changed : Bool)
    (h' : Holdings σ) : Prop where
  changed_iff_score : changed = true ↔ h.evaluate o ≠ 0
  changed_iff_best : changed = true ↔ h'.best? o.level.toNat ≠ h.best? o.level.toNat
  gains : changed = true →
    ∃ now, h'.best? o.level.toNat = some now ∧ h.count o.level.toNat < now.card
  joins : h.evaluate o = 2 → ∃ held now, h.best? o.level.toNat = some held ∧
    h'.best? o.level.toNat = some now ∧ now.card = held.card + o.multisig.card
  same : changed = false → h' = h
  elsewhere : ∀ other, other ≠ o.level.toNat → h'.best? other = h.best? other
  covered : ∀ held, h.best? o.level.toNat = some held → held.length = o.multisig.length →
    (∀ i, o.multisig.mask.get i = true → held.mask.get i = true) → changed = false
  again : h'.add scheme o.level.toNat o.multisig = (false, h')

theorem foretold_add (scheme : Scheme κ σ) (h : Holdings σ) (o : Offer σ) :
    h.Foretold o scheme (h.add scheme o.level.toNat o.multisig).1
      (h.add scheme o.level.toNat o.multisig).2 where
  changed_iff_score := changed_iff_evaluate_ne_zero scheme h o
  changed_iff_best := by
    constructor
    · intro hchanged hsame
      have hlt := count_lt_of_changed hchanged
      unfold count at hlt
      rw [hsame] at hlt
      exact Nat.lt_irrefl _ hlt
    · intro hbest
      rw [← Bool.not_eq_false]
      intro hunchanged
      exact hbest (by rw [add_snd_of_unchanged hunchanged])
  gains hchanged := by
    have hlt := count_lt_of_changed hchanged
    obtain ⟨now, hnow⟩ := exists_best?_of_count_pos (Nat.zero_lt_of_lt hlt)
    rw [count_eq hnow] at hlt
    exact ⟨now, hnow, hlt⟩
  joins htwo := by
    obtain ⟨held, hbest, hnow, hcard⟩ := best?_add_of_evaluate_eq_two scheme htwo
    exact ⟨held, _, hbest, hnow, hcard⟩
  same := add_snd_of_unchanged
  elsewhere other hne := best?_add_of_ne hne.symm
  covered held hbest hlen hcovered := by
    simp only [Mask.get_eq_true_iff] at hcovered
    rw [add_of_covered scheme hbest hlen hcovered]
  again := add_again scheme h _ _

theorem ofOffers_append (scheme : Scheme κ σ) (offers further : List (Offer σ)) :
    ofOffers scheme (offers ++ further) = (ofOffers scheme offers).addAll scheme further :=
  List.foldl_append

/-- Whatever was offered before, one more offer changes what is held exactly if
its score just before is not 0, and exactly if the entry of its level is another
one then. The entry has more contributions in this case, those of both if the
score said that the offer joins the entry. Otherwise nothing changes at all, and
the other levels never do. An offer that marks nothing beyond an entry of its
length is refused, and so is the same offer once more. So the contributions held
for a level never get fewer, however many offers follow, and they are at least
those of every offer made for the level. -/
theorem every_offer_is_foretold (scheme : Scheme κ σ) (offers : List (Offer σ)) :
    (∀ o, (ofOffers scheme offers).Foretold o scheme
      ((ofOffers scheme offers).add scheme o.level.toNat o.multisig).1
      (ofOffers scheme (offers ++ [o]))) ∧
    ∀ level : UInt8,
      (∀ further, (ofOffers scheme offers).count level.toNat ≤
        (ofOffers scheme (offers ++ further)).count level.toNat) ∧
      ∀ m ∈ offeredAt offers level, m.card ≤ (ofOffers scheme offers).count level.toNat := by
  refine ⟨fun o => ?_, fun level => ⟨fun further => ?_, fun m hm => ?_⟩⟩
  · rw [ofOffers_append]
    exact foretold_add scheme _ o
  · rw [ofOffers_append]
    exact count_le_count_addAll scheme _ further _
  · obtain ⟨o, ho, rfl⟩ := List.mem_map.1 hm
    obtain ⟨hmem, hlevel⟩ := List.mem_filter.1 ho
    rw [← of_decide_eq_true hlevel]
    exact card_le_count_addAll scheme .empty hmem

/-- Two of the last four of eight members have contributed. The offer of a third
has score 2, is joined with them, and is refused when it comes again; that of one
of the first two is refused at once. -/
theorem every_offer_is_foretold_of_third : ∃ (offers : List (Offer Plain.Signature)) (o : _),
    offers = [⟨4, 3, ⟨.ofList 4 [0, 1], ⟨.ofList [4, 5], true⟩⟩⟩] ∧
    o = (⟨6, 3, ⟨.ofList 4 [2], ⟨.ofList [6], true⟩⟩⟩ : Offer Plain.Signature) ∧
    (ofOffers Plain.scheme offers).evaluate o = 2 ∧
    (∃ held now, (ofOffers Plain.scheme offers).best? 3 = some held ∧
      (ofOffers Plain.scheme (offers ++ [o])).best? 3 = some now ∧ now.card = held.card + 1) ∧
    (ofOffers Plain.scheme (offers ++ [o])).add Plain.scheme 3 o.multisig =
      (false, ofOffers Plain.scheme (offers ++ [o])) ∧
    ((ofOffers Plain.scheme offers).add Plain.scheme 3
      ⟨.ofList 4 [1], ⟨.ofList [5], true⟩⟩).1 = false := by
  have hscore : (ofOffers Plain.scheme
      [⟨4, 3, ⟨.ofList 4 [0, 1], ⟨.ofList [4, 5], true⟩⟩⟩]).evaluate
      ⟨6, 3, ⟨.ofList 4 [2], ⟨.ofList [6], true⟩⟩⟩ = 2 := by decide
  have hentry : (ofOffers Plain.scheme
      [⟨4, 3, ⟨.ofList 4 [0, 1], ⟨.ofList [4, 5], true⟩⟩⟩]).best? 3 =
      some ⟨.ofList 4 [0, 1], ⟨.ofList [4, 5], true⟩⟩ := by decide
  obtain ⟨hforetold, -⟩ := every_offer_is_foretold Plain.scheme
    [⟨4, 3, ⟨.ofList 4 [0, 1], ⟨.ofList [4, 5], true⟩⟩⟩]
  have hjoin := hforetold ⟨6, 3, ⟨.ofList 4 [2], ⟨.ofList [6], true⟩⟩⟩
  have hcovered := hforetold ⟨5, 3, ⟨.ofList 4 [1], ⟨.ofList [5], true⟩⟩⟩
  refine ⟨_, _, rfl, rfl, hscore, hjoin.joins hscore, hjoin.again, ?_⟩
  refine hcovered.covered _ hentry rfl fun i hi => ?_
  obtain rfl : i = 1 := List.mem_singleton.1 (Mask.get_eq_true_iff.1 hi)
  decide

end Holdings

end MultisigTree
