import MultisigTree.Proofs.Aggregates

/-!
# Where holdings come from

Whatever is held for a level is made of multi-signatures offered for that
level, in the order of their offers, no contribution being in two of them
(`Holdings.Made`). So no contribution is counted twice, however many offers
overlap, and what is held for a level verifies there if all that was offered
for it does (`Holdings.held_is_made_of_offers`).
-/
namespace MultisigTree

namespace Scheme

variable {κ σ : Type}

theorem aggregate?_concat (scheme : Scheme κ σ) {signatures : List σ} {s : σ}
    (h : scheme.aggregate? signatures = some s) (t : σ) :
    scheme.aggregate? (signatures ++ [t]) = some (scheme.merge s t) := by
  cases signatures with
  | nil => cases h
  | cons first rest =>
      cases h
      rw [List.cons_append, aggregate?, List.foldl_append]
      rfl

end Scheme

namespace Verifier

variable {κ σ : Type} {v : Verifier κ σ}

/-- Genuine multi-signatures of one level without a common contribution make a
genuine one. -/
theorem verify_join (lawful : v.scheme.Lawful) {origin : Int32} {level : UInt8}
    {a b : Multisig σ} (ha : v.verify ⟨origin, level, a⟩ = .ok ())
    (hb : v.verify ⟨origin, level, b⟩ = .ok ()) (hlen : a.length = b.length)
    (hmeets : a.mask.meets b.mask = false) :
    v.verify ⟨origin, level, a.join v.scheme b⟩ = .ok () := by
  obtain ⟨members, hmembers, hsize, hverifies⟩ := (v.verify_eq_ok_iff_membersAt _).1 ha
  obtain ⟨members', hmembers', -, hverifies'⟩ := (v.verify_eq_ok_iff_membersAt _).1 hb
  dsimp only at hmembers hmembers' hsize hverifies hverifies'
  rw [hmembers] at hmembers'
  cases hmembers'
  refine (v.verify_eq_ok_iff_membersAt _).2 ⟨members, hmembers, hsize, ?_⟩
  have hperm := ((Multisig.perm_ones_join v.scheme hlen hmeets).filterMap (members[·]?)).map
    (·.key)
  rw [List.filterMap_append, List.map_append] at hperm
  dsimp only
  rw [Scheme.aggregateKey_perm lawful hperm, Scheme.aggregateKey_append lawful]
  exact lawful.verifies_merge _ _ _ _ _ hverifies hverifies'

end Verifier

namespace Holdings

variable {κ σ : Type} {scheme : Scheme κ σ}

def addAll (scheme : Scheme κ σ) (h : Holdings σ) (offers : List (Offer σ)) : Holdings σ :=
  offers.foldl (fun h o => (h.add scheme o.level.toNat o.multisig).2) h

/-- What is held after nothing but the offers. -/
def ofOffers (scheme : Scheme κ σ) (offers : List (Offer σ)) : Holdings σ :=
  Holdings.empty.addAll scheme offers

/-- The multi-signatures offered for a level, in the order of the offers. -/
def offeredAt (offers : List (Offer σ)) (level : UInt8) : List (Multisig σ) :=
  (offers.filter (·.level = level)).map (·.multisig)

/-- `m` is made of `parts`, each with a contribution and none with one that
another has. -/
structure Made (scheme : Scheme κ σ) (parts : List (Multisig σ)) (m : Multisig σ) : Prop where
  nonempty : parts ≠ []
  length_eq : ∀ part ∈ parts, part.length = m.length
  marked : ∀ part ∈ parts, 0 < part.card
  apart : parts.Pairwise fun a b => ∀ i, ¬ (a.mask.get i = true ∧ b.mask.get i = true)
  get_iff : ∀ i, m.mask.get i = true ↔ ∃ part ∈ parts, part.mask.get i = true
  card_eq : m.card = (parts.map (·.card)).sum
  signature : scheme.aggregate? (parts.map (·.signature)) = some m.signature

theorem made_single {m : Multisig σ} (hpos : 0 < m.card) : Made scheme [m] m where
  nonempty := List.cons_ne_nil _ _
  length_eq part hpart := by rw [List.mem_singleton.1 hpart]
  marked part hpart := by rwa [List.mem_singleton.1 hpart]
  apart := List.pairwise_singleton _ _
  get_iff i := by simp
  card_eq := by simp
  signature := rfl

theorem Made.join {parts : List (Multisig σ)} {held m : Multisig σ}
    (made : Made scheme parts held) (hpos : 0 < m.card) (hlen : held.length = m.length)
    (hmeets : held.mask.meets m.mask = false) :
    Made scheme (parts ++ [m]) (held.join scheme m) where
  nonempty := by simp
  length_eq part hpart := by
    rcases List.mem_append.1 hpart with hpart | hpart
    · exact made.length_eq part hpart
    · rw [List.mem_singleton.1 hpart]
      exact hlen.symm
  marked part hpart := by
    rcases List.mem_append.1 hpart with hpart | hpart
    · exact made.marked part hpart
    · rwa [List.mem_singleton.1 hpart]
  apart := by
    refine List.pairwise_append.2 ⟨made.apart, List.pairwise_singleton _ _, ?_⟩
    intro part hpart other hother i hboth
    rw [List.mem_singleton.1 hother] at hboth
    have hheld : held.mask.get i = true := (made.get_iff i).2 ⟨part, hpart, hboth.1⟩
    exact Mask.meets_eq_false_iff.1 hmeets i (Mask.get_eq_true_iff.1 hheld)
      (Mask.get_eq_true_iff.1 hboth.2)
  get_iff i := by
    have hjoin : (held.join scheme m).mask.get i = true ↔
        held.mask.get i = true ∨ m.mask.get i = true := by
      simp only [Mask.get_eq_true_iff]
      exact Multisig.mem_join hlen
    rw [hjoin, made.get_iff]
    simp only [List.mem_append, List.mem_singleton, or_and_right, exists_or, exists_eq_left]
  card_eq := by
    rw [Multisig.card_join scheme hlen hmeets, made.card_eq]
    simp
  signature := by
    rw [List.map_append]
    exact scheme.aggregate?_concat made.signature m.signature

/-- Whatever is held for a level is made of some of the offers for the level. -/
def Traced (scheme : Scheme κ σ) (offers : List (Offer σ)) (h : Holdings σ) : Prop :=
  ∀ (level : UInt8) (m : Multisig σ), h.best? level.toNat = some m →
    ∃ parts, parts.Sublist (offeredAt offers level) ∧ Made scheme parts m

theorem offeredAt_concat (offers : List (Offer σ)) (o : Offer σ) (level : UInt8) :
    offeredAt (offers ++ [o]) level =
      offeredAt offers level ++ if o.level = level then [o.multisig] else [] := by
  unfold offeredAt
  rw [List.filter_append, List.map_append]
  by_cases hlevel : o.level = level
  · simp [hlevel]
  · simp [hlevel]

theorem Traced.add {offers : List (Offer σ)} {h : Holdings σ} (traced : Traced scheme offers h)
    (o : Offer σ) :
    Traced scheme (offers ++ [o]) (h.add scheme o.level.toNat o.multisig).2 := by
  intro level m hbest
  rw [offeredAt_concat]
  by_cases hlevel : o.level = level
  · subst hlevel
    rw [if_pos rfl]
    have htaken := taken_add scheme h o.level.toNat o.multisig
    generalize h.add scheme o.level.toNat o.multisig = r at htaken hbest
    cases htaken with
    | useless =>
        obtain ⟨parts, hsub, made⟩ := traced o.level m hbest
        exact ⟨parts, hsub.trans (List.sublist_append_left _ _), made⟩
    | replaced hpos =>
        rw [best?_insert, if_pos rfl, Option.some.injEq] at hbest
        subst hbest
        exact ⟨[o.multisig], List.sublist_append_right _ _, made_single hpos⟩
    | joined held hpos hheld hlen hmeets =>
        rw [best?_insert, if_pos rfl, Option.some.injEq] at hbest
        subst hbest
        obtain ⟨parts, hsub, made⟩ := traced o.level held hheld
        exact ⟨parts ++ [o.multisig], hsub.append_right _, made.join hpos hlen hmeets⟩
  · have hne : o.level.toNat ≠ level.toNat := fun heq => hlevel (UInt8.toNat_inj.1 heq)
    rw [best?_add_of_ne hne] at hbest
    rw [if_neg hlevel, List.append_nil]
    exact traced level m hbest

theorem Traced.addAll {past : List (Offer σ)} {h : Holdings σ} (traced : Traced scheme past h)
    (offers : List (Offer σ)) : Traced scheme (past ++ offers) (h.addAll scheme offers) := by
  induction offers generalizing past h with
  | nil => rwa [List.append_nil]
  | cons o rest ih =>
      have hrest := ih (traced.add o)
      rwa [List.append_assoc] at hrest

theorem traced_ofOffers (scheme : Scheme κ σ) (offers : List (Offer σ)) :
    Traced scheme offers (ofOffers scheme offers) := by
  have hempty : Traced scheme [] Holdings.empty := nofun
  exact hempty.addAll offers

theorem Each.addAll {P : Nat → Multisig σ → Prop} {h : Holdings σ} (heach : h.Each P)
    (hjoins : Joins scheme P) {offers : List (Offer σ)}
    (hoffers : ∀ o ∈ offers, P o.level.toNat o.multisig) :
    (h.addAll scheme offers).Each P := by
  induction offers generalizing h with
  | nil => exact heach
  | cons o rest ih =>
      have hfirst := heach.add hjoins (hoffers o List.mem_cons_self)
      exact ih hfirst fun o' ho' => hoffers o' (List.mem_cons_of_mem _ ho')

theorem genuine_ofOffers {v : Verifier κ σ} (lawful : v.scheme.Lawful) {offers : List (Offer σ)}
    {level : UInt8} (hgenuine : ∀ o ∈ offers, o.level = level → v.verify o = .ok ())
    {m : Multisig σ} (hbest : (ofOffers v.scheme offers).best? level.toNat = some m)
    (origin : Int32) : v.verify ⟨origin, level, m⟩ = .ok () := by
  have hjoins : Joins v.scheme fun other (m : Multisig σ) =>
      other = level.toNat → v.verify ⟨origin, level, m⟩ = .ok () := by
    intro other a b ha hb hlen hmeets hother
    exact Verifier.verify_join lawful (ha hother) (hb hother) hlen hmeets
  have hempty : (Holdings.empty : Holdings σ).Each fun other m =>
      other = level.toNat → v.verify ⟨origin, level, m⟩ = .ok () := nofun
  have heach : (ofOffers v.scheme offers).Each fun other m =>
      other = level.toNat → v.verify ⟨origin, level, m⟩ = .ok () := by
    refine hempty.addAll hjoins fun o ho hlevel => ?_
    -- Who sent an offer makes no difference to the verifier.
    have hsame := UInt8.toNat_inj.1 hlevel
    rw [← hsame]
    exact hgenuine o ho hsame
  exact heach level.toNat m hbest rfl

theorem count_le_count_addAll (scheme : Scheme κ σ) (h : Holdings σ) (offers : List (Offer σ))
    (level : Nat) : h.count level ≤ (h.addAll scheme offers).count level := by
  induction offers generalizing h with
  | nil => exact Nat.le_refl _
  | cons o rest ih =>
      have hfirst := count_le_count_add scheme h o.level.toNat o.multisig level
      exact Nat.le_trans hfirst (ih _)

/-- What is held for a level has at least the contributions of any offer for it. -/
theorem card_le_count_addAll (scheme : Scheme κ σ) (h : Holdings σ) {offers : List (Offer σ)}
    {o : Offer σ} (ho : o ∈ offers) :
    o.multisig.card ≤ (h.addAll scheme offers).count o.level.toNat := by
  induction offers generalizing h with
  | nil => cases ho
  | cons first rest ih =>
      cases ho with
      | head =>
          have hfirst := card_le_count_add scheme h o.level.toNat o.multisig
          exact Nat.le_trans hfirst (count_le_count_addAll scheme _ rest _)
      | tail _ hrest => exact ih _ hrest

/-- After any offers at any levels, what is held for a level has at least the
contributions of any offer for this level. It is made of multi-signatures
offered for the level, in the order of their offers: there is at least one of
them, each has the length of what is held and a contribution, and no contribution
is in two of them. Their contributions are those of what is held, which has as
many as they have together, and its signature is theirs merged from the left. If
all that was offered for the level is genuine, so is what is held. -/
theorem held_is_made_of_offers (scheme : Scheme κ σ) (offers : List (Offer σ)) (level : UInt8) :
    (∀ part ∈ offeredAt offers level,
      part.card ≤ (ofOffers scheme offers).count level.toNat) ∧
      ∀ m, (ofOffers scheme offers).best? level.toNat = some m →
        (∃ parts, parts.Sublist (offeredAt offers level) ∧ Made scheme parts m) ∧
          ∀ v : Verifier κ σ, v.scheme = scheme → scheme.Lawful →
            (∀ o ∈ offers, o.level = level → v.verify o = .ok ()) →
            ∀ origin, v.verify ⟨origin, level, m⟩ = .ok () := by
  constructor
  · intro part hpart
    obtain ⟨o, ho, rfl⟩ := List.mem_map.1 hpart
    obtain ⟨hmem, hlevel⟩ := List.mem_filter.1 ho
    rw [← of_decide_eq_true hlevel]
    exact card_le_count_addAll scheme .empty hmem
  · intro m hbest
    constructor
    · exact traced_ofOffers scheme offers level m hbest
    · intro v hscheme lawful hgenuine origin
      subst hscheme
      exact genuine_ofOffers lawful hgenuine hbest origin

/-- The first of eight members is offered the last four of them in parts: two
of them, one it has already, three that take the place of the two, and the one
that is missing. -/
theorem held_is_made_of_offers_of_four :
    ∃ offers : List (Offer Plain.Signature), ∃ m v,
      offers = [⟨4, 3, ⟨.ofList 4 [0, 1], ⟨.ofList [4, 5], true⟩⟩⟩,
        ⟨5, 3, ⟨.ofList 4 [1], ⟨.ofList [5], true⟩⟩⟩,
        ⟨5, 3, ⟨.ofList 4 [1, 2, 3], ⟨.ofList [5, 6, 7], true⟩⟩⟩,
        ⟨4, 3, ⟨.ofList 4 [0], ⟨.ofList [4], true⟩⟩⟩] ∧
      v = (⟨Plain.scheme, Plain.roster 8, ⟨8, 0, by decide⟩, [7]⟩ :
        Verifier IdSet Plain.Signature) ∧
      (ofOffers Plain.scheme offers).best? 3 = some m ∧
      (∃ parts, parts.Sublist (offeredAt offers 3) ∧ Made Plain.scheme parts m) ∧
      (∀ o ∈ offers, o.level = 3 → v.verify o = .ok ()) ∧
      v.verify ⟨0, 3, m⟩ = .ok () := by
  obtain ⟨offers, hoffers⟩ : ∃ offers : List (Offer Plain.Signature), offers =
      [⟨4, 3, ⟨.ofList 4 [0, 1], ⟨.ofList [4, 5], true⟩⟩⟩,
        ⟨5, 3, ⟨.ofList 4 [1], ⟨.ofList [5], true⟩⟩⟩,
        ⟨5, 3, ⟨.ofList 4 [1, 2, 3], ⟨.ofList [5, 6, 7], true⟩⟩⟩,
        ⟨4, 3, ⟨.ofList 4 [0], ⟨.ofList [4], true⟩⟩⟩] := ⟨_, rfl⟩
  obtain ⟨v, hv⟩ : ∃ v : Verifier IdSet Plain.Signature,
      v = ⟨Plain.scheme, Plain.roster 8, ⟨8, 0, by decide⟩, [7]⟩ := ⟨_, rfl⟩
  have hbest : (ofOffers Plain.scheme offers).best? (UInt8.toNat 3) =
      some ⟨.ofList 4 [0, 1, 2, 3], ⟨.ofList [4, 5, 6, 7], true⟩⟩ := by
    rw [hoffers]
    decide
  have hgenuine : ∀ o ∈ offers, o.level = 3 → v.verify o = .ok () := by
    rw [hoffers, hv]
    decide +kernel
  have hscheme : v.scheme = Plain.scheme := by rw [hv]
  have hmade := (held_is_made_of_offers Plain.scheme offers 3).2 _ hbest
  exact ⟨offers, _, v, hoffers, hv, hbest, hmade.1, hgenuine,
    hmade.2 v hscheme Plain.lawful_scheme hgenuine 0⟩

end Holdings

end MultisigTree
