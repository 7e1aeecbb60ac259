import Mathlib.Data.List.Basic
import MultisigTree.Proofs.DenseRosters
import MultisigTree.Verification

/-!
# What a multi-signature vouches for

A scheme is lawful if keys can be merged in any order, merged signatures verify
under merged keys, and a written signature is read back. A multi-signature
whose mask starts at member `lo` vouches for the members it marks if its
signature verifies under their merged keys (`Verifier.Vouches`). An offer of a
level is genuine exactly if it has one position for each member of the level
and vouches for those it marks there (`Verifier.verify_eq_ok_iff`).
-/
namespace MultisigTree

namespace Scheme

variable {κ σ : Type}

/-- What the users of a scheme rely on. Only the plain scheme is shown to be lawful
(`Plain.lawful_scheme`). The scheme of `Bls` is not: two keys that cancel each other
merge to the point at infinity, which verifies nothing. Of it `verifies_merge` can be
relied on only where no keys cancel, as among members who have proved that they know
their secret keys. -/
structure Lawful (scheme : Scheme κ σ) : Prop where
  mergeKeys_comm : ∀ a b, scheme.mergeKeys a b = scheme.mergeKeys b a
  mergeKeys_assoc : ∀ a b c,
    scheme.mergeKeys (scheme.mergeKeys a b) c = scheme.mergeKeys a (scheme.mergeKeys b c)
  neutral_mergeKeys : ∀ a, scheme.mergeKeys scheme.neutralKey a = a
  verifies_merge : ∀ a b message s t, scheme.verifies a message s = true →
    scheme.verifies b message t = true →
    scheme.verifies (scheme.mergeKeys a b) message (scheme.merge s t) = true
  decode_encode : ∀ s, scheme.decode (scheme.encode s) = .ok s

variable {scheme : Scheme κ σ} (lawful : scheme.Lawful)
include lawful

theorem foldl_mergeKeys (keys : List κ) (key : κ) :
    keys.foldl scheme.mergeKeys key = scheme.mergeKeys key (scheme.aggregateKey keys) := by
  unfold aggregateKey
  induction keys generalizing key with
  | nil => rw [List.foldl_nil, List.foldl_nil, lawful.mergeKeys_comm, lawful.neutral_mergeKeys]
  | cons k keys ih =>
      rw [List.foldl_cons, List.foldl_cons, ih, ih (scheme.mergeKeys scheme.neutralKey k),
        lawful.neutral_mergeKeys, lawful.mergeKeys_assoc]

theorem aggregateKey_cons (key : κ) (keys : List κ) :
    scheme.aggregateKey (key :: keys) = scheme.mergeKeys key (scheme.aggregateKey keys) := by
  conv_lhs => rw [aggregateKey, List.foldl_cons, lawful.neutral_mergeKeys]
  exact foldl_mergeKeys lawful keys key

theorem aggregateKey_append (xs ys : List κ) :
    scheme.aggregateKey (xs ++ ys) =
      scheme.mergeKeys (scheme.aggregateKey xs) (scheme.aggregateKey ys) := by
  conv_lhs => rw [aggregateKey, List.foldl_append]
  exact foldl_mergeKeys lawful ys _

theorem aggregateKey_perm {xs ys : List κ} (h : xs.Perm ys) :
    scheme.aggregateKey xs = scheme.aggregateKey ys := by
  induction h with
  | nil => rfl
  | cons k _ ih => rw [aggregateKey_cons lawful, aggregateKey_cons lawful, ih]
  | swap a b rest =>
      simp only [aggregateKey_cons lawful]
      rw [← lawful.mergeKeys_assoc, lawful.mergeKeys_comm b a, lawful.mergeKeys_assoc]
  | trans _ _ ih₁ ih₂ => exact ih₁.trans ih₂

end Scheme

namespace Multisig

variable {σ : Type}

/-- The members a multi-signature marks, if its mask starts at member `lo`. -/
def marks (m : Multisig σ) (lo : Nat) : List Nat :=
  m.mask.ones.map (lo + ·)

theorem length_marks (m : Multisig σ) (lo : Nat) : (m.marks lo).length = m.card :=
  List.length_map _

theorem mem_marks {m : Multisig σ} {lo i : Nat} :
    i ∈ m.marks lo ↔ ∃ k ∈ m.mask.ones, lo + k = i :=
  List.mem_map

theorem add_mem_marks {m : Multisig σ} (lo : Nat) {k : Nat} :
    lo + k ∈ m.marks lo ↔ k ∈ m.mask.ones := by
  simp [marks]

theorem nodup_marks (m : Multisig σ) (lo : Nat) : (m.marks lo).Nodup := by
  refine List.pairwise_map.2 (m.mask.ascending.imp fun h => ?_)
  omega

end Multisig

namespace Verifier

variable {κ σ : Type} (v : Verifier κ σ)

/-- The merged key of the listed members. -/
def keyOf (ids : List Nat) : κ :=
  v.scheme.aggregateKey (ids.filterMap fun i => (v.roster.member? i).map (·.key))

/-- The signature verifies under the merged keys of the members marked. -/
def Vouches (lo : Nat) (m : Multisig σ) : Prop :=
  v.scheme.verifies (v.keyOf (m.marks lo)) v.message m.signature = true

theorem keyOf_perm (lawful : v.scheme.Lawful) {xs ys : List Nat} (h : xs.Perm ys) :
    v.keyOf xs = v.keyOf ys :=
  Scheme.aggregateKey_perm lawful (h.filterMap _)

theorem keyOf_append (lawful : v.scheme.Lawful) (xs ys : List Nat) :
    v.keyOf (xs ++ ys) = v.scheme.mergeKeys (v.keyOf xs) (v.keyOf ys) := by
  unfold keyOf
  rw [List.filterMap_append, Scheme.aggregateKey_append lawful]

theorem verify_of_membersAt_error {o : Offer σ} {fault : Fault}
    (h : v.place.membersAt v.roster o.level.toNat = .error fault) :
    v.verify o = .error (.refused fault) := by
  unfold verify
  rw [h]
  rfl

/-- Once the members of a level are listed, an offer of the level is judged by
the length of its mask and by the merged keys of those it marks. -/
theorem verify_of_membersAt_ok {o : Offer σ} {members : Array (Member κ)}
    (h : v.place.membersAt v.roster o.level.toNat = .ok members) :
    v.verify o = if o.multisig.length = members.size then
        (v.scheme.check (v.scheme.aggregateKey
          ((o.multisig.mask.ones.filterMap (members[·]?)).map (·.key))) v.message
          o.multisig.signature).mapError fun cause => .refused (.scheme cause)
      else .error (.refused (.maskLength members.size o.multisig.length)) := by
  unfold verify
  rw [h]
  by_cases hlen : o.multisig.length = members.size
  · have hlt : ∀ i ∈ o.multisig.mask.ones, i < members.size := fun i hi =>
      hlen ▸ o.multisig.mask.bounded i hi
    simp only [Except.mapError, bind, Except.bind, hlen, ne_eq, not_true_eq_false, if_false,
      if_true, Member.select_eq hlt]
  · simp only [Except.mapError, bind, Except.bind, hlen, ne_eq, not_false_eq_true, if_true,
      if_false]
    rfl

/-- Verifying an offer comes to an end, whatever the roster lists. -/
theorem verify_ne_crashed (o : Offer σ) (crash : Crash) : v.verify o ≠ .error (.crashed crash) := by
  cases hmembers : v.place.membersAt v.roster o.level.toNat with
  | error fault =>
      rw [v.verify_of_membersAt_error hmembers]
      nofun
  | ok members =>
      rw [v.verify_of_membersAt_ok hmembers]
      unfold Scheme.check
      split
      · split <;> simp [Except.mapError]
      · simp

/-- An offer is genuine if its mask has one position for each member listed for
its level and its signature verifies under the merged keys of those marked. -/
theorem verify_eq_ok_iff_membersAt (o : Offer σ) :
    v.verify o = .ok () ↔ ∃ members, v.place.membersAt v.roster o.level.toNat = .ok members ∧
      o.multisig.length = members.size ∧
      v.scheme.verifies (v.scheme.aggregateKey
        ((o.multisig.mask.ones.filterMap (members[·]?)).map (·.key))) v.message
        o.multisig.signature = true := by
  cases hmembers : v.place.membersAt v.roster o.level.toNat with
  | error fault =>
      rw [v.verify_of_membersAt_error hmembers]
      simp
  | ok members =>
      rw [v.verify_of_membersAt_ok hmembers]
      unfold Scheme.check
      split
      · split <;> simp_all [Except.mapError]
      · simp_all

/-- The verifier reads the roster its place is in. -/
structure Placed (v : Verifier κ σ) : Prop where
  dense : v.roster.Dense
  size_eq : v.place.size = v.roster.size

variable {v} (placed : v.Placed) {o : Offer σ} {s : Span}
include placed

theorem verify_eq (hs : v.place.peers o.level.toNat = .ok s) :
    v.verify o = if o.multisig.length = s.size then
        (v.scheme.check (v.keyOf (o.multisig.marks s.lo)) v.message o.multisig.signature).mapError
          fun cause => .refused (.scheme cause)
      else .error (.refused (.maskLength s.size o.multisig.length)) := by
  obtain ⟨ms, hms, hsize, hget⟩ := v.place.membersAt_eq placed.dense placed.size_eq hs
  rw [v.verify_of_membersAt_ok hms, hsize]
  split
  · rename_i hlen
    have hkeys : (o.multisig.mask.ones.filterMap (ms[·]?)).map (·.key) =
        (o.multisig.marks s.lo).filterMap fun i => (v.roster.member? i).map (·.key) := by
      rw [Multisig.marks, List.filterMap_map, List.map_filterMap]
      refine List.filterMap_congr fun i hi => ?_
      have hlt : i < s.size := hlen ▸ o.multisig.mask.bounded i hi
      rw [hget i hlt]
      rfl
    rw [hkeys]
    rfl
  · rfl

/-- An offer is genuine if it fits its level and vouches for the members it
marks there. -/
theorem verify_eq_ok_iff (hs : v.place.peers o.level.toNat = .ok s) :
    v.verify o = .ok () ↔ o.multisig.length = s.size ∧ v.Vouches s.lo o.multisig := by
  rw [verify_eq placed hs]
  unfold Vouches Scheme.check
  split
  · rename_i hlen
    split <;> simp_all [Except.mapError]
  · simp_all

end Verifier

namespace Plain

theorem lawful_scheme : scheme.Lawful where
  mergeKeys_comm a b := IdSet.ext fun id => by
    simp only [scheme, IdSet.mem_union]
    exact or_comm
  mergeKeys_assoc a b c := IdSet.ext fun id => by
    simp only [scheme, IdSet.mem_union]
    exact or_assoc
  neutral_mergeKeys a := rfl
  verifies_merge a b message s t hs ht := by
    simp only [scheme, Signature.merge, Bool.and_eq_true, decide_eq_true_eq] at hs ht ⊢
    exact ⟨⟨hs.1, ht.1⟩, by rw [hs.2, ht.2]⟩
  decode_encode s := by
    have hids : ∀ ids : List Int32, decodeIds (ids.flatMap BigEndian.encodeId) = ids := by
      intro ids
      induction ids with
      | nil => rfl
      | cons id ids ih =>
          have hid := BigEndian.decodeId_encodeId id
          simp only [BigEndian.encodeId, BigEndian.encode] at hid ih
          simp only [List.flatMap_cons, BigEndian.encodeId, BigEndian.encode, List.cons_append,
            List.nil_append, decodeIds, hid, ih]
    have hlen : (s.signers.ids.flatMap BigEndian.encodeId).length % 4 = 0 := by
      induction s.signers.ids with
      | nil => rfl
      | cons id ids ih =>
          rw [List.flatMap_cons, List.length_append, BigEndian.encodeId, BigEndian.length_encode]
          omega
    have hset : IdSet.ofList s.signers.ids = s.signers := IdSet.ext fun id => IdSet.mem_ofList
    obtain ⟨signers, genuine⟩ := s
    simp only [scheme, Signature.encode, Signature.decode, hlen, if_true, hids, hset]
    cases genuine <;> rfl

theorem mem_aggregateKey {keys : List IdSet} {id : Int32} :
    id ∈ scheme.aggregateKey keys ↔ ∃ key ∈ keys, id ∈ key := by
  induction keys with
  | nil =>
      simp only [List.not_mem_nil, false_and, exists_false, iff_false]
      exact List.not_mem_nil
  | cons key keys ih =>
      rw [Scheme.aggregateKey_cons lawful_scheme]
      simp only [scheme, IdSet.mem_union, List.mem_cons, exists_eq_or_imp]
      exact or_congr_right ih

end Plain

namespace Verifier

variable {v : Verifier IdSet Plain.Signature}

/-- Over the plain scheme a multi-signature vouches for the members it marks
if its signature is genuine and its signers are exactly these members. -/
theorem vouches_plain_iff (hscheme : v.scheme = Plain.scheme) (hdense : v.roster.Dense)
    (hkeyed : Plain.Keyed v.roster) {lo : Nat} {m : Multisig Plain.Signature}
    (hbound : ∀ i ∈ m.marks lo, i < v.roster.size) :
    v.Vouches lo m ↔ m.signature.genuine = true ∧
      ∀ id, id ∈ m.signature.signers ↔ 0 ≤ id.toInt ∧ id.toInt.toNat ∈ m.marks lo := by
  have hkey : ∀ id, id ∈ v.keyOf (m.marks lo) ↔ 0 ≤ id.toInt ∧ id.toInt.toNat ∈ m.marks lo := by
    intro id
    unfold keyOf
    rw [hscheme, Plain.mem_aggregateKey]
    constructor
    · rintro ⟨key, hkey, hid⟩
      obtain ⟨i, hi, hm⟩ := List.mem_filterMap.1 hkey
      obtain ⟨member, hmember, hnumber⟩ := hdense.numbered i (hbound i hi)
      rw [hmember, Option.map_some, Option.some.injEq] at hm
      rw [← hm, hkeyed i member hmember, IdSet.mem_singleton] at hid
      rw [hid, hnumber]
      exact ⟨Int.natCast_nonneg i, hi⟩
    · rintro ⟨hpos, hi⟩
      obtain ⟨member, hmember, hnumber⟩ := hdense.numbered _ (hbound _ hi)
      refine ⟨member.key, List.mem_filterMap.2 ⟨_, hi, by rw [hmember]; rfl⟩, ?_⟩
      rw [hkeyed _ member hmember, IdSet.mem_singleton]
      refine Int32.toInt_inj.1 ?_
      omega
  have hverifies : v.Vouches lo m ↔
      m.signature.genuine = true ∧ m.signature.signers = v.keyOf (m.marks lo) := by
    unfold Vouches
    rw [hscheme]
    simp [Plain.scheme]
  rw [hverifies]
  refine and_congr_right fun _ => ?_
  constructor
  · intro h id
    rw [h, hkey]
  · intro h
    exact IdSet.ext fun id => (h id).trans (hkey id).symm

end Verifier

end MultisigTree
