import MultisigTree.Proofs.Vouching

/-!
# How offers are judged

The candidates of a level are the members on it; on the level after the last one
everybody is a candidate. They stand side by side in the roster, and a level
without candidates has no span (`Place.peers_eq_ok_iff`). Over the plain scheme
exactly those offers are accepted that have one position for each candidate the
roster lists and are signed by the candidates they mark and by nobody else. What
is said against any other offer is the first of the objections there are
(`Verifier.judged_plain`).
-/
namespace MultisigTree

theorem Span.ext_contains {s t : Span} (hs : s.lo < s.hi) (ht : t.lo < t.hi)
    (h : ∀ i, s.Contains i ↔ t.Contains i) : s = t := by
  have hlo := (h s.lo).1 ⟨Nat.le_refl _, hs⟩
  have hlo' := (h t.lo).2 ⟨Nat.le_refl _, ht⟩
  have hhi := (h (s.hi - 1)).1 ⟨by omega, by omega⟩
  have hhi' := (h (t.hi - 1)).2 ⟨by omega, by omega⟩
  unfold Contains at hlo hlo' hhi hhi'
  cases s
  cases t
  simp_all only [Span.mk.injEq]
  omega

namespace Place

variable (p : Place)

/-- Member `i` may be marked by offers of a level. -/
def Candidate (level i : Nat) : Prop :=
  i < p.size ∧ (p.levelOf i = level ∨ level = p.maxLevel + 1)

/-- The span holds the candidates of a level, and there are some. -/
structure Seats (level : Nat) (s : Span) : Prop where
  lo_lt_hi : s.lo < s.hi
  contains_iff : ∀ i, s.Contains i ↔ p.Candidate level i

variable {p}

theorem Candidate.exists_peers {level i : Nat} (h : p.Candidate level i) :
    ∃ s, p.peers level = .ok s := by
  rcases h with ⟨hi, hlevel | rfl⟩
  · exact p.exists_peers hi hlevel
  · exact ⟨_, p.peers_root⟩

theorem seats_of_peers {level : Nat} {s : Span} (h : p.peers level = .ok s) : p.Seats level s := by
  refine ⟨(p.bounds_of_peers h).1, fun i => ?_⟩
  rcases Nat.lt_trichotomy level (p.maxLevel + 1) with hlt | rfl | hgt
  · rw [(p.peers_spec (Nat.le_of_lt_succ hlt) h).2.2 i]
    simp [Candidate, hlt.ne]
  · rw [p.peers_root, Except.ok.injEq] at h
    simp [Candidate, Span.Contains, ← h]
  · rw [p.peers_beyond hgt] at h
    cases h

theorem peers_eq_ok_iff {level : Nat} {s : Span} : p.peers level = .ok s ↔ p.Seats level s := by
  constructor
  · exact seats_of_peers
  · intro hseats
    have hlo := (hseats.contains_iff s.lo).1 ⟨Nat.le_refl _, hseats.lo_lt_hi⟩
    obtain ⟨t, ht⟩ := hlo.exists_peers
    have hspan := seats_of_peers ht
    rw [Span.ext_contains hseats.lo_lt_hi hspan.lo_lt_hi fun i =>
      (hseats.contains_iff i).trans (hspan.contains_iff i).symm]
    exact ht

/-- A level without candidates is beyond the last one or empty. -/
theorem peers_of_no_candidate {level : Nat} (hle : level ≤ p.maxLevel + 1)
    (h : ∀ i, ¬ p.Candidate level i) : p.peers level = .error (.levelEmpty level) := by
  have hlt : level ≠ p.maxLevel + 1 := fun heq => h p.leaf ⟨p.leaf_lt, .inr heq⟩
  have hpos : 0 < level := by
    refine Nat.pos_of_ne_zero fun hzero => h p.leaf ⟨p.leaf_lt, .inl ?_⟩
    rw [hzero, levelOf_eq_zero_iff]
  rw [p.peers_eq hpos (by omega)]
  split
  · rfl
  · rename_i hlo
    have hspan := seats_of_peers ((p.peers_eq hpos (by omega)).trans (if_neg hlo))
    exact absurd ((hspan.contains_iff _).1 ⟨Nat.le_refl _, hspan.lo_lt_hi⟩) (h _)

theorem membersAt_of_peers_error {κ : Type} {r : Roster κ} {level : Nat} {fault : Fault}
    (h : p.peers level = .error fault) : p.membersAt r level = .error fault := by
  unfold membersAt
  rw [h]
  rfl

theorem membersAt_of_seats {κ : Type} {r : Roster κ} {level : Nat} {s : Span}
    (h : p.Seats level s) : p.membersAt r level =
      (r.members? s.lo s.hi).elim (.error (.unlisted (s.lo, s.hi))) .ok := by
  simp only [membersAt, peers_eq_ok_iff.2 h, bind, Except.bind]
  cases r.members? s.lo s.hi with
  | none => rfl
  | some members => rfl

end Place

namespace Plain

/-- Whoever is listed owns the key made for it. -/
def Owned (r : Roster IdSet) : Prop :=
  ∀ lo hi members, r.members? lo hi = some members →
    ∀ member ∈ members, member.key = .singleton member.id

theorem owned_roster (n : Nat) : Owned (roster n) := by
  intro lo hi members hmembers member hmember
  unfold roster Roster.build Roster.ofArray at hmembers
  dsimp only at hmembers
  split at hmembers
  · rw [← Option.some.inj hmembers] at hmember
    obtain ⟨k, hk, rfl⟩ := Array.mem_iff_getElem.1 hmember
    simp
  · cases hmembers

theorem Owned.listedBelow {r : Roster IdSet} (h : Owned r) (bound : Nat) :
    Owned (r.listedBelow bound) := by
  intro lo hi members hmembers
  unfold Roster.listedBelow at hmembers
  dsimp only at hmembers
  split at hmembers
  · exact h lo hi members hmembers
  · cases hmembers

/-- A genuine signature of the members marked, and of nobody else. -/
def SignedBy (members : Array (Member IdSet)) (m : Multisig Signature) : Prop :=
  m.signature.genuine = true ∧
    ∀ id, id ∈ m.signature.signers ↔
      ∃ k member, m.mask.get k = true ∧ members[k]? = some member ∧ member.id = id

theorem verifies_iff_signedBy {members : Array (Member IdSet)} {m : Multisig Signature}
    (howned : ∀ member ∈ members, member.key = .singleton member.id) (message : List UInt8) :
    scheme.verifies (scheme.aggregateKey
        ((m.mask.ones.filterMap (members[·]?)).map (·.key))) message m.signature = true ↔
      SignedBy members m := by
  have hkey : ∀ id, id ∈ scheme.aggregateKey ((m.mask.ones.filterMap (members[·]?)).map (·.key)) ↔
      ∃ k member, m.mask.get k = true ∧ members[k]? = some member ∧ member.id = id := by
    intro id
    rw [mem_aggregateKey]
    simp only [List.mem_map, List.mem_filterMap, Mask.get_eq_true_iff]
    constructor
    · rintro ⟨_, ⟨member, ⟨k, hk, hmember⟩, rfl⟩, hid⟩
      rw [howned member (Array.mem_of_getElem? hmember), IdSet.mem_singleton] at hid
      exact ⟨k, member, hk, hmember, hid.symm⟩
    · rintro ⟨k, member, hk, hmember, rfl⟩
      refine ⟨_, ⟨member, ⟨k, hk, hmember⟩, rfl⟩, ?_⟩
      rw [howned member (Array.mem_of_getElem? hmember), IdSet.mem_singleton]
  have hverifies : ∀ key, scheme.verifies key message m.signature = true ↔
      m.signature.genuine = true ∧ m.signature.signers = key := by
    simp [scheme]
  rw [hverifies]
  constructor
  · rintro ⟨hgenuine, hsigners⟩
    exact ⟨hgenuine, fun id => by rw [hsigners, hkey]⟩
  · rintro ⟨hgenuine, hsigners⟩
    exact ⟨hgenuine, IdSet.ext fun id => (hsigners id).trans (hkey id).symm⟩

end Plain

namespace Verifier

variable (v : Verifier IdSet Plain.Signature) (o : Offer Plain.Signature)

def Lists (level : Nat) (members : Array (Member IdSet)) : Prop :=
  ∃ s, v.place.Seats level s ∧ v.roster.members? s.lo s.hi = some members

/-- One position for each candidate, and the signatures of those marked. -/
def Genuine : Prop :=
  ∃ members, v.Lists o.level.toNat members ∧ o.multisig.length = members.size ∧
    Plain.SignedBy members o.multisig

/-- What is said against an offer: each objection is raised only if there is none
of those before it. -/
inductive Objection : Fault → Prop
  | beyond : v.place.maxLevel + 1 < o.level.toNat →
      Objection (.levelBeyond o.level.toNat (v.place.maxLevel + 1))
  | empty : o.level.toNat ≤ v.place.maxLevel + 1 →
      (∀ i, ¬ v.place.Candidate o.level.toNat i) → Objection (.levelEmpty o.level.toNat)
  | unlisted {s : Span} : v.place.Seats o.level.toNat s → v.roster.members? s.lo s.hi = none →
      Objection (.unlisted (s.lo, s.hi))
  | length {members : Array (Member IdSet)} : v.Lists o.level.toNat members →
      o.multisig.length ≠ members.size →
      Objection (.maskLength members.size o.multisig.length)
  | signature {members : Array (Member IdSet)} : v.Lists o.level.toNat members →
      o.multisig.length = members.size → ¬ Plain.SignedBy members o.multisig →
      Objection (.scheme .invalidSignature)

variable {v o}

theorem Lists.membersAt {level : Nat} {members : Array (Member IdSet)}
    (h : v.Lists level members) : v.place.membersAt v.roster level = .ok members := by
  obtain ⟨s, hseats, hmembers⟩ := h
  rw [Place.membersAt_of_seats hseats, hmembers]
  rfl

theorem Lists.owned {level : Nat} {members : Array (Member IdSet)} (h : v.Lists level members)
    (howned : Plain.Owned v.roster) : ∀ member ∈ members, member.key = .singleton member.id := by
  obtain ⟨s, -, hmembers⟩ := h
  exact howned s.lo s.hi members hmembers

theorem Lists.verify_eq {members : Array (Member IdSet)} (h : v.Lists o.level.toNat members)
    (hscheme : v.scheme = Plain.scheme) (howned : Plain.Owned v.roster)
    (hlen : o.multisig.length = members.size) [Decidable (Plain.SignedBy members o.multisig)] :
    v.verify o = if Plain.SignedBy members o.multisig then .ok ()
      else .error (.refused (.scheme .invalidSignature)) := by
  rw [v.verify_of_membersAt_ok h.membersAt, if_pos hlen, hscheme]
  have hsigned := Plain.verifies_iff_signedBy (m := o.multisig) (h.owned howned) v.message
  unfold Scheme.check
  by_cases hverifies : Plain.SignedBy members o.multisig
  · rw [if_pos (hsigned.2 hverifies), if_pos hverifies]
    rfl
  · rw [if_neg fun h => hverifies (hsigned.1 h), if_neg hverifies]
    rfl

/-- An offer is genuine, or something is said against it. -/
theorem genuine_or_objection (v : Verifier IdSet Plain.Signature) (o : Offer Plain.Signature) :
    v.Genuine o ∨ ∃ fault, v.Objection o fault := by
  by_cases hbeyond : v.place.maxLevel + 1 < o.level.toNat
  · exact .inr ⟨_, .beyond hbeyond⟩
  by_cases hempty : ∀ i, ¬ v.place.Candidate o.level.toNat i
  · exact .inr ⟨_, .empty (Nat.not_lt.1 hbeyond) hempty⟩
  obtain ⟨i, hi⟩ := not_forall_not.1 hempty
  obtain ⟨s, hs⟩ := hi.exists_peers
  have hseats := Place.seats_of_peers hs
  cases hmembers : v.roster.members? s.lo s.hi with
  | none => exact .inr ⟨_, .unlisted hseats hmembers⟩
  | some members =>
      have hlists : v.Lists o.level.toNat members := ⟨s, hseats, hmembers⟩
      by_cases hlen : o.multisig.length = members.size
      · by_cases hsigned : Plain.SignedBy members o.multisig
        · exact .inl ⟨members, hlists, hlen, hsigned⟩
        · exact .inr ⟨_, .signature hlists hlen hsigned⟩
      · exact .inr ⟨_, .length hlists hlen⟩

section

variable (hscheme : v.scheme = Plain.scheme) (howned : Plain.Owned v.roster)
include hscheme howned

theorem Genuine.verify_eq (h : v.Genuine o) : v.verify o = .ok () := by
  obtain ⟨members, hlists, hlen, hsigned⟩ := h
  classical
  rw [hlists.verify_eq hscheme howned hlen, if_pos hsigned]

theorem Objection.verify_eq {fault : Fault} (h : v.Objection o fault) :
    v.verify o = .error (.refused fault) := by
  cases h with
  | beyond hlt =>
      exact v.verify_of_membersAt_error
        (Place.membersAt_of_peers_error (v.place.peers_beyond hlt))
  | empty hle hnone =>
      exact v.verify_of_membersAt_error
        (Place.membersAt_of_peers_error (Place.peers_of_no_candidate hle hnone))
  | unlisted hseats hmembers =>
      apply v.verify_of_membersAt_error
      rw [Place.membersAt_of_seats hseats, hmembers]
      rfl
  | length hlists hlen => rw [v.verify_of_membersAt_ok hlists.membersAt, if_neg hlen]
  | signature hlists hlen hsigned =>
      classical
      rw [hlists.verify_eq hscheme howned hlen, if_neg hsigned]

/-- Over the plain scheme an offer is accepted exactly if it is genuine, and
refused exactly with what is said against it; no position of its mask is out of
range. -/
theorem judged_plain (o : Offer Plain.Signature) :
    (v.verify o = .ok () ↔ v.Genuine o) ∧
      (∀ fault, v.verify o = .error (.refused fault) ↔ v.Objection o fault) ∧
      ∀ crash, v.verify o ≠ .error (.crashed crash) := by
  rcases v.genuine_or_objection o with hgenuine | ⟨fault, hobjection⟩
  · have hok := hgenuine.verify_eq hscheme howned
    refine ⟨⟨fun _ => hgenuine, fun _ => hok⟩, fun fault => ⟨fun h => ?_, fun h => ?_⟩,
      v.verify_ne_crashed o⟩
    · rw [hok] at h
      cases h
    · exact h.verify_eq hscheme howned
  · have herror := hobjection.verify_eq hscheme howned
    refine ⟨⟨fun h => ?_, fun h => h.verify_eq hscheme howned⟩,
      fun fault' => ⟨fun h => ?_, fun h => h.verify_eq hscheme howned⟩, v.verify_ne_crashed o⟩
    · rw [herror] at h
      cases h
    · rw [herror] at h
      cases h
      exact hobjection

end

/-- The fifth of six members, in a roster that does not list the last one: level 3
is the first four, level 2 is empty, and level 1 is the last member. -/
theorem judged_plain_of_six :
    ∃ v : Verifier IdSet Plain.Signature,
      v = ⟨Plain.scheme, (Plain.roster 6).listedBelow 5, ⟨6, 4, by decide⟩, [7]⟩ ∧
      v.scheme = Plain.scheme ∧ Plain.Owned v.roster ∧
      v.Genuine ⟨1, 3, .ofList 4 [1, 3], .ofList [3, 1], true⟩ ∧
      v.Objection ⟨1, 3, .ofList 4 [1, 3], .ofList [3, 1, -7], true⟩ (.scheme .invalidSignature) ∧
      v.Objection ⟨1, 3, .ofList 4 [1, 3], .ofList [3], true⟩ (.scheme .invalidSignature) ∧
      v.Objection ⟨1, 3, .ofList 5 [1], .ofList [1], true⟩ (.maskLength 4 5) ∧
      v.Objection ⟨5, 1, .ofList 1 [0], .ofList [5], true⟩ (.unlisted (5, 6)) ∧
      v.Objection ⟨5, 2, .ofList 0 [], .ofList [], true⟩ (.levelEmpty 2) ∧
      v.Objection ⟨5, 255, .ofList 1 [0], .ofList [5], true⟩ (.levelBeyond 255 4) := by
  obtain ⟨v, hv⟩ : ∃ v : Verifier IdSet Plain.Signature,
      v = ⟨Plain.scheme, (Plain.roster 6).listedBelow 5, ⟨6, 4, by decide⟩, [7]⟩ := ⟨_, rfl⟩
  have hscheme : v.scheme = Plain.scheme := by rw [hv]
  have howned : Plain.Owned v.roster := by
    rw [hv]
    exact (Plain.owned_roster 6).listedBelow 5
  refine ⟨v, hv, hscheme, howned, (judged_plain hscheme howned _).1.1 ?_,
    ((judged_plain hscheme howned _).2.1 _).1 ?_, ((judged_plain hscheme howned _).2.1 _).1 ?_,
    ((judged_plain hscheme howned _).2.1 _).1 ?_, ((judged_plain hscheme howned _).2.1 _).1 ?_,
    ((judged_plain hscheme howned _).2.1 _).1 ?_, ((judged_plain hscheme howned _).2.1 _).1 ?_⟩
  all_goals
    rw [hv]
    decide +kernel

end Verifier

end MultisigTree
