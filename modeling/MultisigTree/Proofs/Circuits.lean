import MultisigTree.Proofs.Excerpts
import MultisigTree.Proofs.Mailings

/-!
# Every member of a level gets the news

The updates of a level go round its members, `min updates size` of them at a time,
and a larger aggregate starts the round anew. What is held below a level changes
only by becoming larger, so no change goes unnoticed, and at any time the members
behind the counter are those that have been sent what is held now since it came to
be held (`Node.Circling`). A round takes no more updates than it needs
(`Node.Rationed`).
-/
namespace MultisigTree

variable {κ σ : Type}

def Event.isRenew : Event → Bool
  | .renew => true
  | _ => false

theorem Event.isRenew_eq_false {e : Event} (h : e ≠ .renew) : e.isRenew = false := by
  cases e <;> first | rfl | exact absurd rfl h

def Action.carries (payload : List UInt8) : Action κ σ → Bool
  | .send _ packet => packet.payload = payload
  | _ => false

namespace Renewal

variable (r : Renewal) {card : Nat}

theorem card_seeing (card : Nat) : (r.seeing card).card = max r.card card := by
  unfold seeing
  split
  · exact (Nat.max_eq_right (Nat.le_of_lt ‹_›)).symm
  · exact (Nat.max_eq_left (Nat.not_lt.1 ‹_›)).symm

theorem seeing_eq (h : card ≤ r.card) : r.seeing card = r :=
  if_neg (Nat.not_lt.2 h)

end Renewal

namespace Setup

variable {s : Setup κ σ} {level : Nat} {m : Multisig σ} {payload : List UInt8}

theorem countP_posting (receivers : List (Member κ)) :
    (s.posting level m receivers).countP (·.carries payload) =
      if m.encode s.scheme = .ok payload then 1 else 0 := by
  unfold posting
  cases m.encode s.scheme with
  | error fault => simp
  | ok written => simp [Action.carries, List.countP_singleton]

end Setup

namespace Multisig

variable {scheme : Scheme κ σ} {m m' : Multisig σ}

/-- The written form tells the mask. -/
theorem mask_eq_of_encode {payload : List UInt8} (h : m.encode scheme = .ok payload)
    (h' : m'.encode scheme = .ok payload) : m.mask = m'.mask := by
  obtain ⟨bytes, hbytes, rfl⟩ := encode_eq_ok_iff.1 h
  obtain ⟨bytes', hbytes', heq⟩ := encode_eq_ok_iff.1 h'
  rw [List.append_assoc, List.append_assoc] at heq
  obtain ⟨hfront, hrest⟩ := List.append_inj heq
    (by rw [BigEndian.length_encode, BigEndian.length_encode])
  have hlength : bytes.length = bytes'.length := by
    have hdecoded := congrArg BigEndian.decode hfront
    rw [BigEndian.decode_encode, BigEndian.decode_encode] at hdecoded
    have := Mask.length_encode_lt hbytes
    have := Mask.length_encode_lt hbytes'
    omega
  obtain ⟨rfl, -⟩ := List.append_inj hrest hlength
  have hmask := Mask.decode_encode hbytes
  exact Except.ok.inj (hmask.symm.trans (Mask.decode_encode hbytes'))

end Multisig

namespace Holdings

variable {h h' : Holdings σ} {p : Place} {level : Nat}

/-- What is combined for a level depends on nothing but what is held below it. -/
theorem combined_congr (scheme : Scheme κ σ) (p : Place) (hpos : 0 < level)
    (heq : ∀ lower < level, h.best? lower = h'.best? lower) :
    h.combined scheme p (level - 1) = h'.combined scheme p (level - 1) := by
  have hparts : ∀ h : Holdings σ, h.parts.filter (·.level ≤ min (level - 1) p.maxLevel) =
      (h.table.entries.filter (·.1 < min (level - 1) p.maxLevel + 1)).map fun e => ⟨e.1, e.2⟩ := by
    intro h
    rw [parts, List.filter_map]
    congr 1
    exact List.filter_congr fun e _ => decide_eq_decide.2 Nat.lt_succ_iff.symm
  have hentries : h.table.entries.filter (·.1 < min (level - 1) p.maxLevel + 1) =
      h'.table.entries.filter (·.1 < min (level - 1) p.maxLevel + 1) := by
    rw [h.table.filter_entries, h'.table.filter_entries]
    refine List.filterMap_congr fun lower hlower => ?_
    rw [List.mem_range] at hlower
    exact congrArg (Option.map (lower, ·)) (heq lower (by omega))
  unfold combined
  dsimp only
  rw [hparts, hparts, hentries]

theorem card_combined (tidy : h.Tidy p) (scheme : Scheme κ σ) (hlimit : p.size ≤ Word.limit)
    (hpos : 0 < level) (hle : level ≤ p.maxLevel) {m : Multisig σ}
    (hm : h.combined scheme p (level - 1) = .ok (some m)) : m.card = h.below level := by
  obtain ⟨w, m', -, hm', hgathers⟩ :=
    combined_eq tidy scheme hlimit hpos (Nat.le_succ_of_le hle)
  obtain rfl : m = m' := Option.some.inj (Except.ok.inj (hm.symm.trans hm'))
  rw [hgathers.card_eq, sum_card_parts]

end Holdings

namespace Setup

variable {s : Setup κ σ} {level : Nat} {members : Array (Member κ)}

theorem nodup_round (sound : s.Sound) (h : s.place.membersAt s.roster level = .ok members)
    (start : Nat) {count : Nat} (hcount : count ≤ members.size) :
    ((s.round level start count).map (·.id)).Nodup := by
  have hids := Place.nodup_ids sound.dense sound.size_eq h
  rw [round_eq h, List.nodup_iff_pairwise_ne, List.pairwise_map, List.pairwise_filterMap]
  refine List.pairwise_lt_range.imp_of_mem fun {k k'} hk hk' hlt a ha b hb heq => ?_
  rw [List.mem_range] at hk hk'
  obtain ⟨hi, rfl⟩ := Array.getElem?_eq_some_iff.1 ha
  obtain ⟨hj, rfl⟩ := Array.getElem?_eq_some_iff.1 hb
  have hmod : (start + k) % members.size = (start + k') % members.size := by
    have hinj := List.pairwise_iff_getElem.1 (List.nodup_iff_pairwise_ne.1 hids)
    simp only [List.length_map, Array.length_toList, List.getElem_map, Array.getElem_toList] at hinj
    rcases Nat.lt_trichotomy ((start + k) % members.size) ((start + k') % members.size)
      with hless | hsame | hmore
    · exact absurd heq (hinj _ _ hi hj hless)
    · exact hsame
    · exact absurd heq.symm (hinj _ _ hj hi hmore)
  have hsub : (start + k' - (start + k)) % members.size = 0 :=
    Nat.sub_mod_eq_zero_of_mod_eq hmod.symm
  rw [Nat.mod_eq_of_lt (by omega)] at hsub
  omega

end Setup

namespace Node

variable {s : Setup κ σ} {own : σ} {n n' : Node κ σ} {events : List Event} {level : Nat}
  {m : Multisig σ}

theorem holdings_of_step (fit : Fit s n) (sound : s.Sound) {e : Event} (h : n.step s e = .ok n') :
    n'.holdings = n.holdings ∨ ∃ o : Offer σ,
      n'.holdings = (n.holdings.add s.scheme o.level.toNat o.multisig).2 := by
  obtain ⟨n₁, worked, -, hcases⟩ := fit.step_cases sound h
  have hholdings : n'.holdings = n₁.holdings := by
    rcases hcases with ⟨-, -, rfl⟩ | ⟨m, -, -, rfl⟩
    · rfl
    · exact holdings_concluding m
  rw [hholdings]
  refine worked.holdings.imp_right ?_
  rintro ⟨o, -, ho⟩
  exact ⟨o, ho⟩

theorem below_le_of_step (fit : Fit s n) (sound : s.Sound) {e : Event} (h : n.step s e = .ok n')
    (level : Nat) : n.holdings.below level ≤ n'.holdings.below level := by
  rcases holdings_of_step fit sound h with heq | ⟨o, heq⟩
  · rw [heq]
  · rw [heq]
    exact Holdings.below_le_below (Holdings.count_le_count_add s.scheme _ _ _) level

/-- An aggregate that has not become larger has not changed. -/
theorem combined_of_step (fit : Fit s n) (sound : s.Sound) {e : Event} (h : n.step s e = .ok n')
    (hpos : 0 < level) (hle : n'.holdings.below level ≤ n.holdings.below level) :
    n'.holdings.combined s.scheme s.place (level - 1) =
      n.holdings.combined s.scheme s.place (level - 1) := by
  rcases holdings_of_step fit sound h with heq | ⟨o, heq⟩
  · rw [heq]
  have hcount := Holdings.count_le_count_add s.scheme n.holdings o.level.toNat o.multisig
  rw [heq] at hle ⊢
  rcases Holdings.add_eq_or_count_lt s.scheme n.holdings o.level.toNat o.multisig with hsame | hlt
  · rw [hsame]
  · apply Holdings.combined_congr s.scheme s.place hpos
    intro lower hlower
    apply Holdings.best?_add_of_ne
    rintro rfl
    exact absurd (Holdings.below_lt_below hcount hlower hlt) (Nat.not_lt.2 hle)

/-- Each step either leaves the counter of a level alone and, if it is an update, its
mail as well, or it is an update and does for the level what is to be done. -/
theorem kept_or_turned (fit : Fit s n) (sound : s.Sound) (fresh : n.Fresh) {e : Event}
    (h : n.step s e = .ok n') (level : Nat) :
    (n'.renewalAt level = n.renewalAt level ∧ (e = .renew → n'.mail level = n.mail level)) ∨
      e = .renew ∧ level ∈ n.started ∧
        ∃ m, n.holdings.combined s.scheme s.place (level - 1) = .ok (some m) ∧
          Turned s n n' level m := by
  by_cases hrenew : e = .renew
  · subst hrenew
    by_cases hrunning : n.phase = .running
    · have hstep : renewAll s n.started n = .ok n' := by
        rw [step, renew, if_pos hrunning] at h
        exact h
      have hnodup : n.started.Nodup := fresh.ascending.imp fun hlt => Nat.ne_of_lt hlt
      obtain ⟨hturned, huntouched⟩ :=
        turned_of_renewAll sound fit.tidy fit.toStanding (fun _ h => h) hnodup hstep
      by_cases hstarted : level ∈ n.started
      · exact .inr ⟨rfl, hstarted, hturned level hstarted⟩
      · have hkept := huntouched level hstarted
        exact .inl ⟨hkept.renewalAt_eq, fun _ => hkept.mail_eq⟩
    · rw [step, renew, if_neg hrunning] at h
      obtain rfl := Except.ok.inj h
      exact .inl ⟨rfl, fun _ => rfl⟩
  · refine .inl ⟨?_, fun heq => absurd heq hrenew⟩
    rw [renewalAt, renewalAt, renewals_of_step fit sound hrenew h]

theorem holdings_of_renew (fit : Fit s n) (sound : s.Sound) (h : n.step s .renew = .ok n') :
    n'.holdings = n.holdings := by
  obtain ⟨n₁, hrenew, spoken, -⟩ := fit.renew sound
  obtain rfl := Except.ok.inj (hrenew.symm.trans h)
  exact spoken.holdings_eq

/-- In the course of the events an update has sent `m` to the member, and ever since
`m` has been what the node shows below the level. -/
def Toured (s : Setup κ σ) (own : σ) (events : List Event) (level : Nat) (m : Multisig σ)
    (r : Member κ) : Prop :=
  ∃ before after n₁ n₂ receivers payload, events = before ++ .renew :: after ∧
    run s before (create s own) = .ok n₁ ∧ n₁.step s .renew = .ok n₂ ∧
    n₂.mail level = .send receivers ⟨s.id, UInt8.ofNat level, payload⟩ :: n₁.mail level ∧
    m.encode s.scheme = .ok payload ∧ r ∈ receivers ∧
    ∀ since, since <+: after → ∀ n, run s since n₂ = .ok n →
      n.holdings.combined s.scheme s.place (level - 1) = .ok (some m)

theorem run_concat {e : Event} {n₀ : Node κ σ} (hrun : run s events n₀ = .ok n) :
    run s (events ++ [e]) n₀ = n.step s e := by
  rw [run_append, hrun]
  show run s [e] n = n.step s e
  rw [run]
  cases n.step s e <;> rfl

theorem Toured.later {r : Member κ} (toured : Toured s own events level m r)
    (hrun : run s events (create s own) = .ok n) {e : Event} (h : n.step s e = .ok n')
    (hm : n'.holdings.combined s.scheme s.place (level - 1) = .ok (some m)) :
    Toured s own (events ++ [e]) level m r := by
  obtain ⟨before, after, n₁, n₂, receivers, payload, rfl, hbefore, hrenew, hmail, hpayload, hr,
    hsince⟩ := toured
  refine ⟨before, after ++ [e], n₁, n₂, receivers, payload, by simp, hbefore, hrenew, hmail,
    hpayload, hr, fun since hfront n₃ hrun₃ => ?_⟩
  rcases List.prefix_concat_iff.1 hfront with rfl | hfront
  · -- The run up to here ends in `n`, and the event takes it to `n'`.
    have hafter : run s after n₂ = .ok n := by
      rw [run_append, hbefore] at hrun
      have hcons : run s (.renew :: after) n₁ = .ok n := hrun
      rwa [run_cons hrenew] at hcons
    rw [run_concat hafter, h] at hrun₃
    exact Except.ok.inj hrun₃ ▸ hm
  · exact hsince since hfront n₃ hrun₃

theorem toured_of_renew {r : Member κ} {receivers : List (Member κ)} {payload : List UInt8}
    (hrun : run s events (create s own) = .ok n) (h : n.step s .renew = .ok n')
    (hm : n'.holdings.combined s.scheme s.place (level - 1) = .ok (some m))
    (hmail : n'.mail level = .send receivers ⟨s.id, UInt8.ofNat level, payload⟩ :: n.mail level)
    (hpayload : m.encode s.scheme = .ok payload) (hr : r ∈ receivers) :
    Toured s own (events ++ [.renew]) level m r := by
  refine ⟨events, [], n, n', receivers, payload, rfl, hrun, h, hmail, hpayload, hr,
    fun since hfront n₃ hrun₃ => ?_⟩
  rw [List.prefix_nil.1 hfront] at hrun₃
  exact Except.ok.inj hrun₃ ▸ hm

/-- What the counter of a level stands for. -/
structure Circling (s : Setup κ σ) (own : σ) (events : List Event) (n : Node κ σ) (level : Nat) :
    Prop where
  card_le : (n.renewalAt level).card ≤ n.holdings.below level
  toured : ∀ m members, n.holdings.combined s.scheme s.place (level - 1) = .ok (some m) →
    m.length < 2 ^ 16 → s.place.membersAt s.roster level = .ok members →
    (n.renewalAt level).card = n.holdings.below level →
    ∀ k < min (n.renewalAt level).sent members.size,
      ∃ r, members[((n.renewalAt level).next + members.size - 1 - k) % members.size]? = some r ∧
        Toured s own events level m r

theorem circling_create (s : Setup κ σ) (own : σ) (level : Nat) :
    Circling s own [] (create s own) level where
  card_le := Nat.zero_le _
  toured m members _ _ _ _ k hk := by
    have hsent : ((create s own).renewalAt level).sent = 0 := rfl
    omega

section
variable (fit : Fit s n) (sound : s.Sound) (fresh : n.Fresh)
include fit sound

/-- A step that leaves the counter of the level alone. -/
theorem Circling.kept (circling : Circling s own events n level)
    (hrun : run s events (create s own) = .ok n) (hpos : 0 < level) {e : Event}
    (h : n.step s e = .ok n') (hcounter : n'.renewalAt level = n.renewalAt level) :
    Circling s own (events ++ [e]) n' level := by
  have hbelow := below_le_of_step fit sound h level
  have hcard := circling.card_le
  constructor
  · rw [hcounter]
    exact Nat.le_trans hcard hbelow
  · intro m members hm hlength hmembers hcurrent k hk
    rw [hcounter] at hcurrent hk ⊢
    -- The counter knows all that is held now, so nothing has been added below.
    have hsame := combined_of_step fit sound h hpos (by omega)
    obtain ⟨r, hr, toured⟩ :=
      circling.toured m members (hsame ▸ hm) hlength hmembers (by omega) k hk
    exact ⟨r, hr, toured.later hrun h hm⟩

include fresh

theorem Circling.step (circling : Circling s own events n level)
    (hrun : run s events (create s own) = .ok n) (hpos : 0 < level) (hle : level ≤ s.maxLevel)
    (hsize : 0 < s.place.sizeAt level) {e : Event} (h : n.step s e = .ok n') :
    Circling s own (events ++ [e]) n' level := by
  rcases kept_or_turned fit sound fresh h level with ⟨hcounter, -⟩ | ⟨rfl, -, m, hm, turned⟩
  · exact circling.kept fit sound hrun hpos h hcounter
  have hholdings := holdings_of_renew fit sound h
  have hcard := Holdings.card_combined fit.tidy s.scheme sound.size_le_limit hpos hle hm
  have hknown := circling.card_le
  constructor
  · rw [turned.card_eq, Renewal.card_seeing, hcard, Nat.max_eq_right hknown, hholdings]
  intro m' members hm' hlength hmembers _ k hk
  obtain rfl : m = m' := by
    rw [hholdings] at hm'
    exact Option.some.inj (Except.ok.inj (hm.symm.trans hm'))
  have hmsize := sound.size_members hle hsize hmembers
  -- A counter that is past a round has seen what is held now.
  have hold : ∀ k < min ((n.renewalAt level).seeing m.card).sent members.size,
      ∃ r, members[(((n.renewalAt level).seeing m.card).next + members.size - 1 - k) %
          members.size]? = some r ∧ Toured s own (events ++ [.renew]) level m r := by
    intro k hk
    obtain ⟨hseen, hle'⟩ := Renewal.seeing_eq_of_sent_pos
      (by omega : 0 < ((n.renewalAt level).seeing m.card).sent)
    rw [hseen] at hk ⊢
    obtain ⟨r, hr, toured⟩ := circling.toured m members hm hlength hmembers (by omega) k hk
    exact ⟨r, hr, toured.later hrun h hm'⟩
  cases turned with
  | idle hover hcounter hmail =>
      rw [hcounter] at hk ⊢
      exact hold k hk
  | sent hleft hcounter hmail =>
      rw [hcounter] at hk ⊢
      rw [← hmsize] at hk hmail ⊢
      dsimp only [Renewal.moved] at hk ⊢
      rw [Nat.back_mod (by omega)]
      split
      · -- The last ones are those that this update has sent it to.
        rename_i hk'
        obtain ⟨payload, hpayload⟩ := Multisig.encode_isOk_iff.2 hlength
        have hlt : (((n.renewalAt level).seeing m.card).next +
            (min s.settings.updates members.size - 1 - k)) % members.size < members.size :=
          Nat.mod_lt _ (by omega)
        have hget := Array.getElem?_eq_getElem hlt
        rw [Setup.posting_of_encode hpayload] at hmail
        refine ⟨_, hget, toured_of_renew hrun h hm' hmail hpayload ?_⟩
        rw [← Renewal.next_seeing (n.renewalAt level) m.card]
        exact Setup.mem_round hmembers (by omega) hget
      · exact hold (k - min s.settings.updates members.size) (by omega)

end

def copies (n : Node κ σ) (level : Nat) (payload : List UInt8) : Nat :=
  (n.mail level).countP (·.carries payload)

/-- How many updates of the run have sent that payload to the level. -/
def updatesWith (s : Setup κ σ) (level : Nat) (payload : List UInt8) :
    List Event → Node κ σ → Nat
  | [], _ => 0
  | e :: rest, n =>
      match n.step s e with
      | .error _ => 0
      | .ok n' =>
          (if e.isRenew ∧ n.copies level payload < n'.copies level payload then 1 else 0) +
            updatesWith s level payload rest n'

theorem updatesWith_concat {n₀ : Node κ σ} {payload : List UInt8} {e : Event}
    (hrun : run s events n₀ = .ok n) (h : n.step s e = .ok n') :
    updatesWith s level payload (events ++ [e]) n₀ = updatesWith s level payload events n₀ +
      if e.isRenew ∧ n.copies level payload < n'.copies level payload then 1 else 0 := by
  induction events generalizing n₀ with
  | nil =>
      obtain rfl := Except.ok.inj hrun
      simp [updatesWith, h]
  | cons first rest ih =>
      obtain ⟨n₁, hstep, hrest⟩ := Except.bind_eq_ok_iff.1 hrun
      simp only [List.cons_append, updatesWith, hstep, ih hrest, Nat.add_assoc]

/-- What the counter of a level says about a payload that updates have sent `times`
times: the round had members left before the last one, and if it is still the
same round, those sent to are among those counted. -/
def Rationed (s : Setup κ σ) (n : Node κ σ) (level : Nat) (payload : List UInt8)
    (times : Nat) : Prop :=
  0 < times → ∃ m : Multisig σ, m.encode s.scheme = .ok payload ∧
    m.card ≤ (n.renewalAt level).card ∧
    (times - 1) * min s.settings.updates (s.place.sizeAt level) < s.place.sizeAt level ∧
    (m.card = (n.renewalAt level).card →
      times * min s.settings.updates (s.place.sizeAt level) ≤ (n.renewalAt level).sent)

section
variable {payload : List UInt8} {times : Nat}

theorem Rationed.seeing (rationed : Rationed s n level payload times) {card : Nat}
    (hcard : (n'.renewalAt level).card = ((n.renewalAt level).seeing card).card)
    (hsent : ((n.renewalAt level).seeing card).sent ≤ (n'.renewalAt level).sent) :
    Rationed s n' level payload times := by
  intro hpos
  obtain ⟨m, hpayload, hle, hround, hcurrent⟩ := rationed hpos
  rw [Renewal.card_seeing] at hcard
  refine ⟨m, hpayload, by omega, hround, fun hsame => ?_⟩
  have hold : (n.renewalAt level).seeing card = n.renewalAt level :=
    Renewal.seeing_eq _ (by omega)
  rw [hold] at hsent
  exact Nat.le_trans (hcurrent (by omega)) hsent

theorem Rationed.step (rationed : Rationed s n level payload times) (fit : Fit s n)
    (sound : s.Sound) (fresh : n.Fresh) (hcard : (n.renewalAt level).card ≤ n.holdings.below level)
    {e : Event} (h : n.step s e = .ok n') :
    Rationed s n' level payload (times +
      if e.isRenew ∧ n.copies level payload < n'.copies level payload then 1 else 0) := by
  rcases kept_or_turned fit sound fresh h level with
    ⟨hcounter, hmail⟩ | ⟨rfl, hstarted, m, hm, turned⟩
  · have hnone : ¬ (e.isRenew ∧ n.copies level payload < n'.copies level payload) := by
      rintro ⟨hrenew, hmore⟩
      by_cases heq : e = .renew
      · rw [copies, copies, hmail heq] at hmore
        exact Nat.lt_irrefl _ hmore
      · rw [Event.isRenew_eq_false heq] at hrenew
        cases hrenew
    rw [if_neg hnone, Nat.add_zero, Rationed, hcounter]
    exact rationed
  cases turned with
  | idle hover hcounter hmail =>
      have hnone : ¬ n.copies level payload < n'.copies level payload := by
        rw [copies, copies, hmail]
        exact Nat.lt_irrefl _
      rw [if_neg fun hmore => hnone hmore.2]
      exact rationed.seeing (by rw [hcounter]) (by rw [hcounter])
  | sent hleft hcounter hmail =>
      have hcopies : n'.copies level payload =
          (if m.encode s.scheme = .ok payload then 1 else 0) + n.copies level payload := by
        rw [copies, copies, hmail, List.countP_append, Setup.countP_posting]
      by_cases hpayload : m.encode s.scheme = .ok payload
      · rw [if_pos hpayload] at hcopies
        rw [if_pos ⟨rfl, by omega⟩]
        obtain ⟨hpos, hle, -⟩ := fit.toStanding.bounds hstarted
        have hbelow := Holdings.card_combined fit.tidy s.scheme sound.size_le_limit hpos hle hm
        have hnow : ((n.renewalAt level).seeing m.card).card = m.card := by
          rw [Renewal.card_seeing, hbelow, Nat.max_eq_right hcard]
        -- The times before were for an aggregate of just as many contributions.
        have hbefore : times * min s.settings.updates (s.place.sizeAt level) ≤
            ((n.renewalAt level).seeing m.card).sent := by
          rcases Nat.eq_zero_or_pos times with rfl | htimes
          · rw [Nat.zero_mul]
            exact Nat.zero_le _
          · obtain ⟨m', hpayload', hle, -, hcurrent⟩ := rationed htimes
            have hsame : m'.card = m.card :=
              congrArg Mask.card (Multisig.mask_eq_of_encode hpayload' hpayload)
            rw [Renewal.seeing_eq _ (by omega)]
            exact hcurrent (by omega)
        intro _
        refine ⟨m, hpayload, ?_, ?_, fun _ => ?_⟩
        · rw [hcounter]
          exact Nat.le_of_eq hnow.symm
        · rw [Nat.add_sub_cancel]
          exact Nat.lt_of_le_of_lt hbefore hleft
        · rw [hcounter, Nat.add_mul, Nat.one_mul]
          exact Nat.add_le_add_right hbefore _
      · rw [if_neg hpayload, Nat.zero_add] at hcopies
        rw [if_neg fun hmore => by omega]
        exact rationed.seeing (by rw [hcounter]; rfl) (by rw [hcounter]; exact Nat.le_add_right _ _)

end

theorem circling_of_run (sound : s.Sound) (hcandidates : 0 < s.settings.candidates)
    (hpos : 0 < level) (hle : level ≤ s.maxLevel) (hsize : 0 < s.place.sizeAt level)
    (hrun : run s events (create s own) = .ok n) :
    Circling s own events n level ∧
      ∀ payload,
        Rationed s n level payload (updatesWith s level payload events (create s own)) := by
  induction events using List.reverseRecOn generalizing n with
  | nil =>
      obtain rfl := Except.ok.inj hrun
      exact ⟨circling_create s own level, fun _ hlt => absurd hlt (Nat.lt_irrefl 0)⟩
  | append_singleton events e ih =>
      obtain ⟨n₁, hrun₁, fit⟩ := (fit_create s own).run sound events
      have hstep : n₁.step s e = .ok n := (run_concat hrun₁).symm.trans hrun
      have fresh := fresh_of_run sound hcandidates hrun₁
      obtain ⟨circling, rationed⟩ := ih hrun₁
      refine ⟨circling.step fit sound fresh hrun₁ hpos hle hsize hstep, fun payload => ?_⟩
      rw [updatesWith_concat hrun₁ hstep]
      exact (rationed payload).step fit sound fresh circling.card_le hstep

/-- The update has sent `m` to the members of the level that come next, each of them
once, and the next update goes on behind them. -/
structure Onward (s : Setup κ σ) (n n' : Node κ σ) (level : Nat) (m : Multisig σ) : Prop where
  posted : ∃ payload, m.encode s.scheme = .ok payload ∧
    n'.mail level = .send (s.round level (n.renewalAt level).next
      (min s.settings.updates (s.place.sizeAt level))) ⟨s.id, UInt8.ofNat level, payload⟩ ::
        n.mail level
  length_eq : (s.round level (n.renewalAt level).next
    (min s.settings.updates (s.place.sizeAt level))).length =
      min s.settings.updates (s.place.sizeAt level)
  nodup : ((s.round level (n.renewalAt level).next
    (min s.settings.updates (s.place.sizeAt level))).map (·.id)).Nodup
  next_eq : (n'.renewalAt level).next = ((n.renewalAt level).next +
    min s.settings.updates (s.place.sizeAt level)) % s.place.sizeAt level

/-- What the updates of a node see to, whatever happens between them. After each one,
a level whose counter has been all the way round has been sent what the node
shows below it, each of the members since this last changed; otherwise the update
has sent it on. Nothing but updates moves the counters, and no payload is sent by
more of them than a round takes. -/
structure Circulates (s : Setup κ σ) (own : σ) : Prop where
  runs : ∀ events, ∃ n, run s events (create s own) = .ok n
  updated : ∀ events n n', run s events (create s own) = .ok n → n.phase = .running →
    n.step s .renew = .ok n' → ∀ level ∈ n'.started, ∃ m members,
      n'.holdings.combined s.scheme s.place (level - 1) = .ok (some m) ∧
      s.place.membersAt s.roster level = .ok members ∧
      members.size = s.place.sizeAt level ∧
      (m.length < 2 ^ 16 →
        (members.size ≤ (n'.renewalAt level).sent →
          ∀ r ∈ members, Toured s own (events ++ [.renew]) level m r) ∧
        ((n'.renewalAt level).sent < members.size → Onward s n n' level m))
  steady : ∀ events e n n', run s events (create s own) = .ok n → n.step s e = .ok n' →
    e ≠ .renew → ∀ level, n'.renewalAt level = n.renewalAt level
  rationed : ∀ events level payload, 0 < level → level ≤ s.maxLevel →
    0 < s.place.sizeAt level →
    let count := min s.settings.updates (s.place.sizeAt level)
    updatesWith s level payload events (create s own) ≤
      (s.place.sizeAt level + count - 1) / count

section
variable (sound : s.Sound) (hcandidates : 0 < s.settings.candidates)
  (hupdates : 0 < s.settings.updates)
include sound hcandidates

theorem updated_of_renew (hrun : run s events (create s own) = .ok n)
    (hrunning : n.phase = .running) (h : n.step s .renew = .ok n') (hstarted : level ∈ n'.started) :
    ∃ m members, n'.holdings.combined s.scheme s.place (level - 1) = .ok (some m) ∧
      s.place.membersAt s.roster level = .ok members ∧ members.size = s.place.sizeAt level ∧
      (m.length < 2 ^ 16 →
        (members.size ≤ (n'.renewalAt level).sent →
          ∀ r ∈ members, Toured s own (events ++ [.renew]) level m r) ∧
        ((n'.renewalAt level).sent < members.size → Onward s n n' level m)) := by
  have fit := fit_of_run sound hrun
  have fit' := fit_of_step fit sound h
  have fresh := fresh_of_run sound hcandidates hrun
  rw [(stays_of_renew sound fit.tidy fit.toStanding fresh.ascending h).started_eq] at hstarted
  obtain ⟨hpos, hle, hsize⟩ := fit.toStanding.bounds hstarted
  obtain ⟨members, hmembers, hmsize⟩ := sound.exists_members hle hsize
  obtain ⟨m, hm, turned⟩ :=
    turned_of_renew sound fit.tidy fit.toStanding fresh.ascending hrunning h hstarted
  have hcard := Holdings.card_combined fit.tidy s.scheme sound.size_le_limit hpos hle hm
  have hholdings := holdings_of_renew fit sound h
  rw [← hholdings] at hm hcard
  obtain ⟨circling, -⟩ := circling_of_run sound hcandidates hpos hle hsize
    ((run_concat hrun).trans h)
  refine ⟨m, members, hm, hmembers, hmsize, fun hlength => ⟨fun hround r hr => ?_, fun hleft => ?_⟩⟩
  · have hcurrent : (n'.renewalAt level).card = n'.holdings.below level := by
      have hknown := circling.card_le
      have hseen := turned.card_eq
      rw [Renewal.card_seeing] at hseen
      omega
    obtain ⟨j, hj, rfl⟩ := Array.getElem_of_mem hr
    obtain ⟨k, hk, hback⟩ := Nat.exists_back (fit'.toStanding.renewalAt hsize).1 (hmsize ▸ hj)
    rw [← hmsize] at hk hback
    obtain ⟨r, hr', toured⟩ :=
      circling.toured m members hm hlength hmembers hcurrent k (by omega)
    rw [hback, Array.getElem?_eq_getElem hj] at hr'
    exact Option.some.inj hr' ▸ toured
  · obtain ⟨payload, hpayload⟩ := Multisig.encode_isOk_iff.2 hlength
    cases turned with
    | idle hover hcounter hmail =>
        rw [hcounter] at hleft
        omega
    | sent hleft hcounter hmail =>
        rw [Setup.posting_of_encode hpayload] at hmail
        refine ⟨⟨payload, hpayload, hmail⟩, Setup.length_round hmembers (by omega) _ _,
          Setup.nodup_round sound hmembers _ (by omega), ?_⟩
        rw [hcounter, Renewal.moved, Renewal.next_seeing]

include hupdates

theorem updatesWith_le (events : List Event) (payload : List UInt8) (hpos : 0 < level)
    (hle : level ≤ s.maxLevel) (hsize : 0 < s.place.sizeAt level) :
    updatesWith s level payload events (create s own) ≤
      (s.place.sizeAt level + min s.settings.updates (s.place.sizeAt level) - 1) /
        min s.settings.updates (s.place.sizeAt level) := by
  obtain ⟨n, hrun, -⟩ := (fit_create s own).run sound events
  obtain ⟨-, rationed⟩ := circling_of_run sound hcandidates hpos hle hsize hrun
  rw [Nat.le_div_iff_mul_le (by omega)]
  specialize rationed payload
  cases htimes : updatesWith s level payload events (create s own) with
  | zero =>
      rw [Nat.zero_mul]
      exact Nat.zero_le _
  | succ times =>
      rw [htimes] at rationed
      obtain ⟨-, -, -, hround, -⟩ := rationed (Nat.succ_pos times)
      rw [Nat.add_sub_cancel] at hround
      rw [Nat.succ_mul]
      omega

theorem circulates (own : σ) : Circulates s own where
  runs events := by
    obtain ⟨n, hrun, -⟩ := (fit_create s own).run sound events
    exact ⟨n, hrun⟩
  updated _ _ _ hrun hrunning h _ := updated_of_renew sound hcandidates hrun hrunning h
  steady events e n n' hrun h hother level := by
    rw [renewalAt, renewalAt, renewals_of_step (fit_of_run sound hrun) sound hother h]
  rationed events _ payload := updatesWith_le sound hcandidates hupdates events payload

end

/-- Over a dense roster and with valid settings, the updates of every member reach
everyone with what the member shows below their level. -/
theorem updates_circulate {roster : Roster κ} (hdense : roster.Dense) {settings : Settings}
    (hvalid : settings.validate = .ok ()) (hword : settings.candidates < Word.limit) {id : Int32}
    (hid : 0 ≤ id.toInt ∧ id.toInt.toNat < roster.size) (scheme : Scheme κ σ)
    (message : List UInt8) (order : ContactOrder) (evaluator : Evaluator σ)
    (exclusion : Exclusion) (pace : Pace) (own : σ) :
    ∃ s, Setup.create scheme roster id message settings order evaluator exclusion pace = .ok s ∧
      Circulates s own := by
  obtain ⟨s, hs⟩ := Setup.exists_create hdense hvalid hid scheme message order evaluator exclusion
    pace
  obtain ⟨-, -, -, -, hsettings, -⟩ := Setup.eq_of_create hs
  exact ⟨s, hs, circulates (Setup.sound_of_create hdense hword hs)
    (hsettings ▸ Settings.candidates_pos hvalid) (hsettings ▸ Settings.updates_pos hvalid) own⟩

/-- The fifth of six members with three members to an update: the last level has four,
who are reached in two updates, whatever else happens. -/
theorem updates_circulate_of_six :
    (Plain.roster 6).Dense ∧ ({ updates := 3 } : Settings).validate = .ok () ∧ 10 < Word.limit ∧
      (0 ≤ Int32.toInt 4 ∧ Int32.toInt 4 < 6) ∧
      ∃ s : Setup IdSet Plain.Signature,
        Setup.create Plain.scheme (Plain.roster 6) 4 [7] { updates := 3 } .ascending .byGain .never
          .ticking = .ok s ∧ Circulates s (Plain.sign 4) ∧
        ∀ events payload, updatesWith s 3 payload events (create s (Plain.sign 4)) ≤ 2 := by
  have hsize : (Plain.roster 6).size = 6 := Plain.size_roster 6
  have hvalid : ({ updates := 3 } : Settings).validate = .ok () := by decide
  have hid : 0 ≤ Int32.toInt 4 ∧ (Int32.toInt 4).toNat < (Plain.roster 6).size := by
    rw [hsize]
    decide
  refine ⟨Plain.dense_roster 6, hvalid, by decide, by decide, ?_⟩
  obtain ⟨s, hs, circulates⟩ := updates_circulate (Plain.dense_roster 6) hvalid (by decide) hid
    Plain.scheme [7] .ascending .byGain .never .ticking (Plain.sign 4)
  obtain ⟨-, -, -, -, hsettings, -, -, hplace, hleaf⟩ := Setup.eq_of_create hs
  have heq : s.place = ⟨6, 4, by decide⟩ := by
    have hof : ∀ p : Place, p.size = 6 → p.leaf = 4 → p = ⟨6, 4, by decide⟩ := by
      rintro ⟨_, _, _⟩ rfl rfl
      rfl
    have hfour : Int32.toInt 4 = 4 := by decide
    exact hof s.place (hplace.trans hsize) (by omega)
  refine ⟨s, hs, circulates, fun events payload => ?_⟩
  have hle : 3 ≤ s.maxLevel := by
    rw [Setup.maxLevel, heq]
    decide
  have hcount := circulates.rationed events 3 payload (by decide) hle
  rw [heq, hsettings] at hcount
  exact hcount (by decide)

end Node

end MultisigTree
