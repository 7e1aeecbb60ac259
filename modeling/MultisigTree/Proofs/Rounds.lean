import MultisigTree.Proofs.Lives
import MultisigTree.Proofs.Preliminaries

/-!
# Whom the updates have reached

The counter of a level tells how far its updates have got: each of the last
`sent` positions before `next` has been sent an aggregate of `card`
contributions (`Node.Rounds`). An update that has nothing to send has therefore
sent what the node shows below a level to every member of it
(`Node.informed_of_quiet`).
-/
namespace MultisigTree

namespace Place

variable (p : Place)

/-- The subtree below a level has no more leaves than a complete one. -/
theorem size_below_le {level : Nat} {w : Span} (hle : level ≤ p.maxLevel + 1)
    (hw : p.below level = .ok w) : w.size ≤ 2 ^ (level - 1) := by
  rw [p.below_eq hle, Except.ok.injEq] at hw
  rw [← hw, ← Walk.size_block p.leaf level]
  unfold Span.clip Span.size
  dsimp only
  omega

end Place

namespace Holdings

variable {κ σ : Type} {h : Holdings σ} {p : Place}

/-- The aggregate for a level has all contributions held below it, and a
written form if there are at most `2 ^ 16` members. -/
theorem combined_fits (tidy : h.Tidy p) (scheme : Scheme κ σ) (hsize : p.size ≤ 2 ^ 16)
    {level : Nat} (hpos : 0 < level) (hle : level ≤ p.maxLevel) {m : Multisig σ}
    (hm : h.combined scheme p (level - 1) = .ok (some m)) :
    m.card = h.below level ∧ ∃ payload, m.encode scheme = .ok payload := by
  have hlimit : p.size ≤ Word.limit := by
    unfold Word.limit
    omega
  obtain ⟨w, m', hw, hm', hgathers⟩ :=
    combined_eq tidy scheme hlimit hpos (Nat.le_succ_of_le hle)
  obtain rfl : m = m' := Option.some.inj (Except.ok.inj (hm.symm.trans hm'))
  constructor
  · rw [hgathers.card_eq, sum_card_parts]
  · rw [Multisig.encode_isOk_iff, hgathers.length_eq]
    have hwindow := p.size_below_le (Nat.le_succ_of_le hle) hw
    have hmax : p.maxLevel ≤ 16 := p.maxLevel_le_of_size_le hsize
    have hpow : 2 ^ (level - 1) < 2 ^ 16 := Nat.pow_lt_pow_right (by omega) (by omega)
    omega

end Holdings

namespace Node

variable {κ σ : Type} {s : Setup κ σ} {n n' : Node κ σ} {level : Nat}

/-- Member `i` has been sent an aggregate of `card` contributions for a level. -/
def Informed (s : Setup κ σ) (n : Node κ σ) (level card i : Nat) : Prop :=
  ∃ (receivers : List (Member κ)) (packet : Packet) (m : Multisig σ) (r : Member κ),
    .send receivers packet ∈ n.journal ∧ packet.level = UInt8.ofNat level ∧
    m.encode s.scheme = .ok packet.payload ∧ m.card = card ∧ s.roster.member? i = some r ∧
    r ∈ receivers

theorem Informed.mono {card i : Nat} (h : Informed s n level card i)
    (hjournal : ∀ a ∈ n.journal, a ∈ n'.journal) : Informed s n' level card i := by
  obtain ⟨receivers, packet, m, r, hsend, hrest⟩ := h
  exact ⟨receivers, packet, m, r, hjournal _ hsend, hrest⟩

/-- What the counters of the updates stand for. -/
structure Rounds (s : Setup κ σ) (n : Node κ σ) : Prop where
  card_le : ∀ level, (n.renewalAt level).card ≤ n.holdings.below level
  informed : ∀ level w, s.place.peers level = .ok w →
    ∀ k < min (n.renewalAt level).sent w.size, Informed s n level (n.renewalAt level).card
      (w.lo + ((n.renewalAt level).next + w.size - 1 - k) % w.size)

theorem rounds_create (s : Setup κ σ) (own : σ) : Rounds s (create s own) where
  card_le _ := Nat.zero_le _
  informed level w _ k hk := by
    have hsent : ((create s own).renewalAt level).sent = 0 := rfl
    omega

theorem Rounds.mono (rounds : Rounds s n) (hrenewals : n'.renewals = n.renewals)
    (hcount : ∀ level, n.holdings.count level ≤ n'.holdings.count level)
    (hjournal : ∀ a ∈ n.journal, a ∈ n'.journal) : Rounds s n' := by
  have hat : ∀ level, n'.renewalAt level = n.renewalAt level := fun level => by
    rw [renewalAt, renewalAt, hrenewals]
  constructor
  · intro level
    rw [hat]
    exact Nat.le_trans (rounds.card_le level) (Holdings.below_le_below hcount level)
  · intro level w hw k hk
    rw [hat] at hk ⊢
    exact (rounds.informed level w hw k hk).mono hjournal

theorem Rounds.counted (rounds : Rounds s n) {r : Renewal}
    (hrenewals : n'.renewals = n.renewals.insert level r) (hholdings : n'.holdings = n.holdings)
    (hjournal : ∀ a ∈ n.journal, a ∈ n'.journal) (hcard : r.card ≤ n.holdings.below level)
    (hinformed : ∀ w, s.place.peers level = .ok w → ∀ k < min r.sent w.size,
      Informed s n' level r.card (w.lo + (r.next + w.size - 1 - k) % w.size)) : Rounds s n' := by
  have hat : ∀ other,
      n'.renewalAt other = if level = other then r else n.renewalAt other := by
    intro other
    rw [renewalAt, renewalAt, hrenewals, LevelMap.get?_insert]
    split <;> rfl
  constructor
  · intro other
    rw [hat, hholdings]
    split
    · rename_i heq
      exact heq ▸ hcard
    · exact rounds.card_le other
  · intro other w hw k hk
    rw [hat] at hk ⊢
    split at hk
    · rename_i heq
      rw [if_pos heq]
      subst heq
      exact hinformed w hw k hk
    · rename_i hne
      rw [if_neg hne]
      exact (rounds.informed other w hw k hk).mono hjournal

section
variable (sound : s.Sound) (hsize : s.place.size ≤ 2 ^ 16)
include sound hsize

theorem Rounds.renewLevel (rounds : Rounds s n) (tidy : n.holdings.Tidy s.place)
    (standing : Standing s n) (hstarted : level ∈ n.started)
    (h : n.renewLevel s level = .ok n') : Rounds s n' := by
  obtain ⟨hpos, hlevel, hsizepos⟩ := (standing.mem_started level).1 hstarted
  have hle := Nat.le_trans hlevel standing.level_le
  obtain ⟨span, hspan, hspansize⟩ := s.place.exists_peers_of_sizeAt_pos hsizepos
  obtain ⟨m, members, hm, -, hmsize, hget, -, hrenew⟩ :=
    renewLevel_eq sound tidy standing hpos hle hspan
  obtain ⟨hcard, payload, hpayload⟩ :=
    Holdings.combined_fits tidy s.scheme hsize hpos hle hm
  rw [h, Except.ok.injEq] at hrenew
  have hnow : ((n.renewalAt level).seeing m.card).card = n.holdings.below level := by
    have hold := rounds.card_le level
    unfold Renewal.seeing
    split
    · exact hcard
    · omega
  have hseen : 0 < ((n.renewalAt level).seeing m.card).sent →
      (n.renewalAt level).seeing m.card = n.renewalAt level :=
    fun hpos => (Renewal.seeing_eq_of_sent_pos hpos).1
  generalize (n.renewalAt level).seeing m.card = now at hrenew hnow hseen
  dsimp only at hrenew
  -- Positions that the counter had passed before are those of an old round.
  have hold : ∀ w, s.place.peers level = .ok w → ∀ k < min now.sent w.size,
      Informed s n level now.card (w.lo + (now.next + w.size - 1 - k) % w.size) := by
    intro w hw k hk
    have heq := hseen (by omega)
    rw [heq] at hk ⊢
    exact rounds.informed level w hw k hk
  by_cases hdone : members.size ≤ now.sent
  · rw [if_pos hdone] at hrenew
    subst hrenew
    exact rounds.counted rfl rfl (fun _ h => h) (Nat.le_of_eq hnow) hold
  · rw [if_neg hdone, sendTo_eq hpayload] at hrenew
    subst hrenew
    refine rounds.counted rfl rfl (fun a ha => List.mem_cons_of_mem _ ha) (Nat.le_of_eq hnow) ?_
    intro w hw k hk
    obtain rfl : span = w := Except.ok.inj (hspan.symm.trans hw)
    have hwsize : members.size = span.size := by rw [hmsize, hspansize]
    rw [← hwsize] at hk ⊢
    dsimp only [Renewal.moved] at hk ⊢
    rw [Nat.back_mod (by omega)]
    split
    · rename_i hk'
      have hlt : (now.next + (min s.settings.updates members.size - 1 - k)) % members.size <
          members.size := Nat.mod_lt _ (by omega)
      obtain ⟨r, hr⟩ : ∃ r, members[(now.next +
          (min s.settings.updates members.size - 1 - k)) % members.size]? = some r :=
        ⟨_, Array.getElem?_eq_getElem hlt⟩
      refine ⟨_, _, m, r, List.mem_cons_self, rfl, hpayload, hcard.trans hnow.symm, ?_, ?_⟩
      · rw [← hget _ hlt]
        exact hr
      · refine List.mem_filterMap.2 ⟨min s.settings.updates members.size - 1 - k, ?_, hr⟩
        rw [List.mem_range]
        omega
    · rename_i hk'
      have := hold span hspan (k - min s.settings.updates members.size) (by omega)
      rw [← hwsize] at this
      exact this.mono fun a ha => List.mem_cons_of_mem _ ha

theorem Rounds.renewAll (rounds : Rounds s n) (tidy : n.holdings.Tidy s.place)
    (standing : Standing s n) {levels : List Nat} (hstarted : ∀ level ∈ levels, level ∈ n.started)
    (h : renewAll s levels n = .ok n') : Rounds s n' := by
  induction levels generalizing n with
  | nil => exact Except.ok.inj h ▸ rounds
  | cons level levels ih =>
      have hlevel := hstarted level List.mem_cons_self
      obtain ⟨n₁, hrenew, spoken, standing₁, -, hstart, -⟩ :=
        renewLevel_spec sound tidy standing hlevel
      rw [Node.renewAll, hrenew] at h
      refine ih (rounds.renewLevel sound hsize tidy standing hlevel hrenew)
        (spoken.holdings_eq ▸ tidy) standing₁ (fun l hl => ?_) h
      rw [hstart]
      exact hstarted l (List.mem_cons_of_mem _ hl)

theorem Rounds.renew (rounds : Rounds s n) (fit : Fit s n) (h : n.renew s = .ok n') :
    Rounds s n' := by
  unfold Node.renew at h
  split at h
  · exact rounds.renewAll sound hsize fit.tidy fit.toStanding (fun _ h => h) h
  · exact Except.ok.inj h ▸ rounds

/-- An update of a level that sends nothing has nothing left to send. -/
theorem quiet_renewLevel (tidy : n.holdings.Tidy s.place) (standing : Standing s n)
    (hstarted : level ∈ n.started)
    (h : n.renewLevel s level = .ok n') (hquiet : n'.journal.length ≤ n.journal.length) :
    s.place.sizeAt level ≤ (n.renewalAt level).sent ∧
      n.holdings.below level ≤ (n.renewalAt level).card ∧
      n' = n.noting level (n.renewalAt level) := by
  obtain ⟨hpos, hlevel, hsizepos⟩ := (standing.mem_started level).1 hstarted
  have hle := Nat.le_trans hlevel standing.level_le
  obtain ⟨span, hspan, -⟩ := s.place.exists_peers_of_sizeAt_pos hsizepos
  obtain ⟨m, members, hm, -, hmsize, -, -, hrenew⟩ :=
    renewLevel_eq sound tidy standing hpos hle hspan
  obtain ⟨hcard, payload, hpayload⟩ :=
    Holdings.combined_fits tidy s.scheme hsize hpos hle hm
  rw [h, Except.ok.injEq] at hrenew
  have hseen : 0 < ((n.renewalAt level).seeing m.card).sent →
      (n.renewalAt level).seeing m.card = n.renewalAt level ∧ m.card ≤ (n.renewalAt level).card :=
    Renewal.seeing_eq_of_sent_pos
  generalize (n.renewalAt level).seeing m.card = now at hrenew hseen
  dsimp only at hrenew
  by_cases hdone : members.size ≤ now.sent
  · rw [if_pos hdone] at hrenew
    obtain ⟨rfl, hold⟩ := hseen (by omega)
    exact ⟨hmsize ▸ hdone, hcard ▸ hold, hrenew⟩
  · rw [if_neg hdone, sendTo_eq hpayload] at hrenew
    rw [hrenew] at hquiet
    exact absurd hquiet (Nat.not_succ_le_self n.journal.length)

theorem quiet_renewAll (tidy : n.holdings.Tidy s.place) (standing : Standing s n)
    {levels : List Nat} (hstarted : ∀ level ∈ levels, level ∈ n.started)
    (h : renewAll s levels n = .ok n') (hquiet : n'.journal.length ≤ n.journal.length) :
    ∀ level ∈ levels, s.place.sizeAt level ≤ (n.renewalAt level).sent ∧
      n.holdings.below level ≤ (n.renewalAt level).card := by
  induction levels generalizing n with
  | nil => exact nofun
  | cons level levels ih =>
      have hlevel := hstarted level List.mem_cons_self
      obtain ⟨n₁, hrenew, spoken, standing₁, -, hstart, -⟩ :=
        renewLevel_spec sound tidy standing hlevel
      have hstarted₁ : ∀ l ∈ levels, l ∈ n₁.started := fun l hl => by
        rw [hstart]
        exact hstarted l (List.mem_cons_of_mem _ hl)
      have tidy₁ : n₁.holdings.Tidy s.place := spoken.holdings_eq ▸ tidy
      rw [Node.renewAll, hrenew] at h
      have hgrow₁ : n.journal.length ≤ n₁.journal.length := spoken.length_le
      have hgrow : n₁.journal.length ≤ n'.journal.length := by
        obtain ⟨n₂, hrenew₂, spoken₂, -⟩ := renewAll_spec sound tidy₁ standing₁ hstarted₁
        obtain rfl : n₂ = n' := Except.ok.inj (hrenew₂.symm.trans h)
        exact spoken₂.length_le
      obtain ⟨hsent, hcard, hn₁⟩ := quiet_renewLevel sound hsize tidy standing hlevel hrenew
        (Nat.le_trans hgrow hquiet)
      have hat : ∀ other, n₁.renewalAt other = n.renewalAt other := by
        intro other
        rw [hn₁, renewalAt, noting, LevelMap.get?_insert]
        split
        · rename_i heq
          rw [← heq]
          rfl
        · rfl
      intro other hother
      rcases List.mem_cons.1 hother with rfl | hother
      · exact ⟨hsent, hcard⟩
      · have := ih tidy₁ standing₁ hstarted₁ h (Nat.le_trans hquiet hgrow₁) other hother
        rwa [hat, spoken.holdings_eq] at this

/-- A node whose update sends nothing has sent all it shows below a level that
it has entered to every member of the level. -/
theorem informed_of_quiet (rounds : Rounds s n) (fit : Fit s n) (hrunning : n.phase = .running)
    (h : n.renew s = .ok n')
    (hquiet : n'.journal.length ≤ n.journal.length) (hstarted : level ∈ n.started) {i : Nat}
    (hi : i < s.place.size) (hlevel : s.place.levelOf i = level) :
    Informed s n level (n.holdings.below level) i := by
  obtain ⟨-, hle, hsizepos⟩ := (fit.mem_started level).1 hstarted
  rw [Node.renew, if_pos hrunning] at h
  obtain ⟨hsent, hcard⟩ := quiet_renewAll sound hsize fit.tidy fit.toStanding
    (fun _ h => h) h hquiet level hstarted
  obtain ⟨w, hw, hwsize⟩ := s.place.exists_peers_of_sizeAt_pos hsizepos
  obtain ⟨hlo, hhi⟩ :=
    ((s.place.peers_spec (Nat.le_trans hle fit.level_le) hw).2.2 i).2 ⟨hi, hlevel⟩
  obtain ⟨k, hk, hback⟩ := Nat.exists_back (j := i - w.lo) (fit.toStanding.renewalAt hsizepos).1
    (by rw [← hwsize, Span.size]; omega)
  have hinformed := rounds.informed level w hw k (by omega)
  rw [hwsize, hback, Nat.add_sub_cancel' hlo] at hinformed
  have hequal : (n.renewalAt level).card = n.holdings.below level :=
    Nat.le_antisymm (rounds.card_le level) hcard
  rwa [hequal] at hinformed

end

end Node

end MultisigTree
