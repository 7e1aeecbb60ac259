import MultisigTree.Node.Intake
import MultisigTree.Proofs.Aggregates
import MultisigTree.Proofs.WireForms

/-!
# Sound setups

Every setup created over a dense roster is sound: its place is that of its
member number. The numbers of levels then fit a byte and the number of members
a word, and whatever offer is read from a packet suits its level and marks
someone (`Setup.suits_of_read`).
-/
namespace MultisigTree

theorem Settings.quorumPercent_le {settings : Settings} (hvalid : settings.validate = .ok ()) :
    settings.quorumPercent ≤ 100 := by
  unfold Settings.validate at hvalid
  split at hvalid
  · cases hvalid
  · omega

theorem Settings.candidates_pos {settings : Settings} (hvalid : settings.validate = .ok ()) :
    0 < settings.candidates := by
  unfold Settings.validate at hvalid
  grind

theorem Settings.updates_pos {settings : Settings} (hvalid : settings.validate = .ok ()) :
    0 < settings.updates := by
  unfold Settings.validate at hvalid
  grind

theorem Settings.threshold_eq_ok_iff {settings : Settings} {n threshold : Nat} :
    settings.threshold n = .ok threshold ↔
      n * settings.quorumPercent < Word.limit ∧
        threshold = (n * settings.quorumPercent + 99) / 100 := by
  unfold Settings.threshold
  constructor
  · intro h
    cases hfold : Word.mul n settings.quorumPercent with
    | error crash =>
        rw [hfold] at h
        cases h
    | ok hundredfold =>
        obtain ⟨hfits, rfl⟩ := Word.mul_eq_ok_iff.1 hfold
        rw [hfold] at h
        exact ⟨hfits, (Except.ok.inj h).symm⟩
  · rintro ⟨hfits, rfl⟩
    rw [Word.mul_eq_ok_iff.2 ⟨hfits, rfl⟩]
    rfl

namespace Setup

variable {κ σ : Type}

structure Sound (s : Setup κ σ) : Prop extends Verifier.Placed s.toVerifier where
  leaf_eq : s.id.toInt = s.place.leaf
  candidates_lt : s.settings.candidates < Word.limit

theorem create_eq_ok_iff {scheme : Scheme κ σ} {roster : Roster κ} {id : Int32}
    {message : List UInt8} {settings : Settings} {order : ContactOrder} {evaluator : Evaluator σ}
    {exclusion : Exclusion} {pace : Pace} {s : Setup κ σ} :
    create scheme roster id message settings order evaluator exclusion pace = .ok s ↔
      settings.validate = .ok () ∧ (0 ≤ id.toInt ∧ (roster.member? id.toInt.toNat).isSome) ∧
      ∃ place threshold, Place.of roster.size id = .ok place ∧
        settings.threshold roster.size = .ok threshold ∧
        s = { scheme := scheme, roster, place, message, id, settings, threshold, order, evaluator,
              exclusion, pace } := by
  unfold create
  cases hvalid : settings.validate with
  | error cause => simp [Except.mapError, bind, Except.bind]
  | ok u =>
      by_cases hmember : id.toInt < 0 ∨ (roster.member? id.toInt.toNat).isNone
      · have hnot : ¬ (0 ≤ id.toInt ∧ (roster.member? id.toInt.toNat).isSome) := by
          rintro ⟨hpos, hsome⟩
          rcases hmember with hneg | hnone
          · omega
          · rw [Option.isNone_iff_eq_none] at hnone
            rw [hnone] at hsome
            cases hsome
        simp only [Except.mapError, bind, Except.bind, if_pos hmember, hnot, false_and, and_false,
          iff_false]
        exact nofun
      · have hsome : 0 ≤ id.toInt ∧ (roster.member? id.toInt.toNat).isSome := by
          rw [not_or] at hmember
          refine ⟨by omega, ?_⟩
          rw [← Option.not_isNone, Bool.not_eq_true']
          exact Bool.eq_false_iff.2 hmember.2
        simp only [Except.mapError, bind, Except.bind, if_neg hmember, hsome, and_self, true_and]
        cases Place.of roster.size id with
        | error fault => simp
        | ok place =>
            cases settings.threshold roster.size with
            | error crash => simp
            | ok threshold => simp [pure, Except.pure, eq_comm]

theorem of_eq_ok_iff {size : Nat} {id : Int32} {p : Place} :
    Place.of size id = .ok p ↔ p.size = size ∧ (p.leaf : Int) = id.toInt := by
  unfold Place.of
  split
  · rename_i h
    obtain ⟨size', leaf, hlt⟩ := p
    simp only [Except.ok.injEq, Place.mk.injEq]
    omega
  · rename_i h
    obtain ⟨size', leaf, hlt⟩ := p
    simp only [reduceCtorEq, false_iff, not_and]
    omega

/-- What a setup takes over from what it is made of. -/
theorem eq_of_create {scheme : Scheme κ σ} {roster : Roster κ} {id : Int32}
    {message : List UInt8} {settings : Settings} {order : ContactOrder} {evaluator : Evaluator σ}
    {exclusion : Exclusion} {pace : Pace} {s : Setup κ σ}
    (h : create scheme roster id message settings order evaluator exclusion pace = .ok s) :
    s.scheme = scheme ∧ s.roster = roster ∧ s.message = message ∧ s.id = id ∧
      s.settings = settings ∧ s.evaluator = evaluator ∧ s.exclusion = exclusion ∧
      s.place.size = roster.size ∧ id.toInt = s.place.leaf := by
  obtain ⟨-, -, place, threshold, hplace, -, rfl⟩ := create_eq_ok_iff.1 h
  obtain ⟨hsize, hleaf⟩ := of_eq_ok_iff.1 hplace
  exact ⟨rfl, rfl, rfl, rfl, rfl, rfl, rfl, hsize, hleaf.symm⟩

/-- No more contributions are ever asked for than there are members. -/
theorem threshold_le {scheme : Scheme κ σ} {roster : Roster κ} {id : Int32}
    {message : List UInt8} {settings : Settings} {order : ContactOrder} {evaluator : Evaluator σ}
    {exclusion : Exclusion} {pace : Pace} {s : Setup κ σ}
    (h : create scheme roster id message settings order evaluator exclusion pace = .ok s) :
    s.threshold ≤ roster.size := by
  obtain ⟨hvalid, -, place, threshold, -, hthreshold, rfl⟩ := create_eq_ok_iff.1 h
  obtain ⟨-, rfl⟩ := Settings.threshold_eq_ok_iff.1 hthreshold
  have hmul := Nat.mul_le_mul_left roster.size (Settings.quorumPercent_le hvalid)
  dsimp only
  omega

theorem placed_of_create {scheme : Scheme κ σ} {roster : Roster κ} {id : Int32}
    {message : List UInt8} {settings : Settings} {order : ContactOrder} {evaluator : Evaluator σ}
    {exclusion : Exclusion} {pace : Pace} {s : Setup κ σ} (dense : roster.Dense)
    (h : create scheme roster id message settings order evaluator exclusion pace = .ok s) :
    s.toVerifier.Placed := by
  obtain ⟨-, hroster, -, -, -, -, -, hsize, -⟩ := eq_of_create h
  exact ⟨hroster ▸ dense, hroster ▸ hsize⟩

theorem sound_of_create {scheme : Scheme κ σ} {roster : Roster κ} {id : Int32}
    {message : List UInt8} {settings : Settings} {order : ContactOrder} {evaluator : Evaluator σ}
    {exclusion : Exclusion} {pace : Pace} {s : Setup κ σ} (dense : roster.Dense)
    (hcandidates : settings.candidates < Word.limit)
    (h : create scheme roster id message settings order evaluator exclusion pace = .ok s) :
    s.Sound := by
  obtain ⟨-, -, -, hid, hsettings, -, -, -, hleaf⟩ := eq_of_create h
  exact ⟨placed_of_create dense h, hid ▸ hleaf, hsettings ▸ hcandidates⟩

/-- Valid settings and a member of a dense roster make a setup. -/
theorem exists_create {roster : Roster κ} (dense : roster.Dense) {settings : Settings}
    (hvalid : settings.validate = .ok ()) {id : Int32}
    (hid : 0 ≤ id.toInt ∧ id.toInt.toNat < roster.size) (scheme : Scheme κ σ)
    (message : List UInt8) (order : ContactOrder) (evaluator : Evaluator σ)
    (exclusion : Exclusion) (pace : Pace) :
    ∃ s, create scheme roster id message settings order evaluator exclusion pace = .ok s := by
  obtain ⟨m, hm, -⟩ := dense.numbered _ hid.2
  have hfits : roster.size * settings.quorumPercent < Word.limit := by
    have := Nat.mul_le_mul dense.size_le (Settings.quorumPercent_le hvalid)
    unfold Word.limit
    omega
  refine ⟨_, create_eq_ok_iff.2 ⟨hvalid, ⟨hid.1, by rw [hm]; rfl⟩,
    ⟨roster.size, id.toInt.toNat, hid.2⟩, _, ?_, Settings.threshold_eq_ok_iff.2 ⟨hfits, rfl⟩, rfl⟩⟩
  exact of_eq_ok_iff.2 ⟨rfl, Int.toNat_of_nonneg hid.1⟩

namespace Sound

variable {s : Setup κ σ} (sound : s.Sound)
include sound

theorem size_le : s.place.size ≤ 2 ^ 31 :=
  sound.size_eq ▸ sound.dense.size_le

theorem size_le_limit : s.place.size ≤ Word.limit := by
  have := sound.size_le
  unfold Word.limit
  omega

theorem maxLevel_le : s.maxLevel ≤ 31 :=
  s.place.maxLevel_le_of_size_le sound.size_le

/-- The number of a level fits a byte. -/
theorem toNat_level {level : Nat} (h : level ≤ s.maxLevel) : (UInt8.ofNat level).toNat = level := by
  have := sound.maxLevel_le
  exact UInt8.toNat_ofNat_of_lt' (Nat.lt_of_le_of_lt (Nat.le_trans h this) (by decide))

end Sound

variable {s : Setup κ σ}

/-- What a packet has to be to make an offer. -/
theorem read_eq_ok_iff {packet : Packet} {o : Offer σ} :
    s.read packet = .ok o ↔
      (0 ≤ packet.origin.toInt ∧ packet.origin.toInt.toNat < s.roster.size) ∧
      packet.level.toNat ≤ s.maxLevel ∧ 0 < s.place.sizeAt packet.level.toNat ∧
      ∃ m, Multisig.decode s.scheme packet.payload = .ok m ∧
        m.length = s.place.sizeAt packet.level.toNat ∧ 0 < m.card ∧
        (∃ k, s.place.indexAt packet.origin packet.level.toNat = .ok k) ∧
        o = ⟨packet.origin, packet.level, m⟩ := by
  unfold read
  by_cases horigin : packet.origin.toInt < 0 ∨ s.roster.size ≤ packet.origin.toInt.toNat
  · have : ¬ (0 ≤ packet.origin.toInt ∧ packet.origin.toInt.toNat < s.roster.size) := by omega
    simp only [if_pos horigin, this, false_and, iff_false]
    exact nofun
  · have : 0 ≤ packet.origin.toInt ∧ packet.origin.toInt.toNat < s.roster.size := by omega
    simp only [if_neg horigin, this, and_self, true_and, bind, Except.bind]
    by_cases hlevel : s.maxLevel < packet.level.toNat
    · simp only [if_pos hlevel, Nat.not_le.2 hlevel, false_and, iff_false]
      exact nofun
    · simp only [if_neg hlevel, Nat.not_lt.1 hlevel, true_and]
      by_cases hempty : s.place.sizeAt packet.level.toNat = 0
      · simp only [hempty, Nat.lt_irrefl, false_and, iff_false]
        exact nofun
      · simp only [if_neg hempty, Nat.pos_of_ne_zero hempty, true_and]
        cases Multisig.decode s.scheme packet.payload with
        | error fault => simp
        | ok m =>
            by_cases hlen : m.length = s.place.sizeAt packet.level.toNat
            · by_cases hcard : m.card = 0
              · simp [hlen, hcard, throw, throwThe, MonadExceptOf.throw]
              · cases s.place.indexAt packet.origin packet.level.toNat with
                | error fault => simp [hlen, hcard]
                | ok k =>
                    simp [hlen, hcard, Nat.pos_of_ne_zero hcard, pure, Except.pure, eq_comm]
            · simp [hlen, throw, throwThe, MonadExceptOf.throw]

/-- An offer read from a packet suits its level and marks someone. -/
theorem suits_of_read {packet : Packet} {o : Offer σ} (h : s.read packet = .ok o) :
    s.place.Suits o.level.toNat o.multisig ∧ 0 < o.multisig.card := by
  obtain ⟨-, hle, hpos, m, -, hlen, hcard, -, rfl⟩ := read_eq_ok_iff.1 h
  obtain ⟨w, hw, hsize⟩ := s.place.exists_peers_of_sizeAt_pos hpos
  exact ⟨⟨hle, w, hw, hlen.trans hsize.symm⟩, hcard⟩

end Setup

end MultisigTree
