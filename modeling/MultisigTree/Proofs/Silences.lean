import MultisigTree.Proofs.HonestSenders
import MultisigTree.Proofs.Mailings
import MultisigTree.Proofs.Screening

/-!
# Levels that hear nothing

A multi-signature for more than `2 ^ 16 - 1` members has no written form, and one
that cannot be written is not sent, although its level counts as entered and its
members as contacted. With at most `2 ^ 16` members on the roster that never
happens; with one more, the first member enters its last level and goes round it
without ever sending anything (`Node.outspoken_iff`).
-/
namespace MultisigTree

variable {κ σ : Type}

namespace Place

variable {p : Place}

/-- The first member has `2 ^ 16` members below level 17. -/
theorem below_of_large (hleaf : p.leaf = 0) (hlarge : 2 ^ 16 < p.size) :
    17 ≤ p.maxLevel ∧ 0 < p.sizeAt 17 ∧ p.below 17 = .ok ⟨0, 2 ^ 16⟩ := by
  have hle : 17 ≤ p.maxLevel := by
    have hpow : 2 ^ 16 < 2 ^ p.maxLevel := Nat.lt_of_lt_of_le hlarge p.size_le_two_pow
    exact (Nat.pow_lt_pow_iff_right (by omega)).1 hpow
  refine ⟨hle, ?_, ?_⟩
  · have hlevel : p.levelOf (2 ^ 16) = 17 := by
      rw [levelOf, hleaf, Nat.zero_xor]
      exact Nat.size_pow
    obtain ⟨span, hspan⟩ := p.exists_peers hlarge hlevel
    exact p.sizeAt_pos hle hspan
  · have hblock : Walk.block p.leaf 17 = ⟨0, 2 ^ 16⟩ := by
      rw [hleaf]
      rfl
    have hclip : min (2 ^ 16) p.size = 2 ^ 16 := Nat.min_eq_left (Nat.le_of_lt hlarge)
    rw [p.below_eq (Nat.le_succ_of_le hle), hblock, Span.clip, hclip]

end Place

namespace Node

/-- In no run does the node leave a level without news: a level that is entered
gets one packet, with what is held below it, for the first members of the level;
an update that counts members as contacted has sent a packet to just as many; and
whatever there is to send has a written form. -/
structure Outspoken (s : Setup κ σ) (own : σ) : Prop where
  entering : ∀ events e n n', run s events (create s own) = .ok n → n.step s e = .ok n' →
    ∀ level ∈ n'.started, level ∉ n.started → ∃ m payload,
      n'.holdings.combined s.scheme s.place (level - 1) = .ok (some m) ∧
      m.encode s.scheme = .ok payload ∧ s.firsts level ≠ [] ∧
      n'.mail level = [.send (s.firsts level) ⟨s.id, UInt8.ofNat level, payload⟩]
  renewing : ∀ events n n', run s events (create s own) = .ok n → n.phase ≠ .stopped →
    n.step s .renew = .ok n' → ∀ level ∈ n.started, ∀ m,
      n.holdings.combined s.scheme s.place (level - 1) = .ok (some m) →
      let seen := (n.renewalAt level).seeing m.card
      let count := (n'.renewalAt level).sent - seen.sent
      0 < count → ∃ payload, m.encode s.scheme = .ok payload ∧
        (s.round level seen.next count).length = count ∧
        n'.mail level = .send (s.round level seen.next count)
          ⟨s.id, UInt8.ofNat level, payload⟩ :: n.mail level
  written : ∀ events n, run s events (create s own) = .ok n → ∀ level ∈ n.started, ∀ m,
    n.holdings.combined s.scheme s.place (level - 1) = .ok (some m) →
    ∃ payload, m.encode s.scheme = .ok payload

variable {s : Setup κ σ} {n n' : Node κ σ} {level : Nat}

theorem renewals_of_waiting {own : σ} (sound : s.Sound) {events : List Event}
    (h : run s events (create s own) = .ok n) (hwaiting : n.phase = .waiting) :
    n.renewals = .empty := by
  refine (fit_create s own).run_keeps (P := fun m => m.phase = .waiting → m.renewals = .empty)
    sound (fun e _ n₁ n₂ fit hstep hempty hwaiting₂ => ?_) h (fun _ => rfl) hwaiting
  have hphase := fit.phase_step sound hstep
  have hwaiting₁ : n₁.phase = .waiting := by
    by_contra hnot
    exact Phase.after_ne_waiting (.inl hnot) (hphase.symm.trans hwaiting₂)
  by_cases hrenew : e = .renew
  · subst hrenew
    rw [step, renew, hwaiting₁, if_neg (by decide)] at hstep
    rw [← Except.ok.inj hstep]
    exact hempty hwaiting₁
  · rw [renewals_of_step fit sound hrenew hstep]
    exact hempty hwaiting₁

section
variable (sound : s.Sound) (hcandidates : 0 < s.settings.candidates)
include sound hcandidates

theorem firsts_ne_nil (hle : level ≤ s.maxLevel) (hsize : 0 < s.place.sizeAt level) :
    s.firsts level ≠ [] := by
  intro hnil
  obtain ⟨members, hmembers, hmsize⟩ := sound.exists_members hle hsize
  have hlength := Place.length_contactList s.order hmembers
  rw [Setup.firsts, List.take_eq_nil_iff, ← List.length_eq_zero_iff] at hnil
  omega

theorem outspoken_of_small (hsmall : s.place.size ≤ 2 ^ 16) (own : σ) : Outspoken s own where
  entering events e n n' hrun hstep level hstarted hnew := by
    have fit := fit_of_run sound hrun
    have fit' := fit_of_step fit sound hstep
    have fresh := fresh_of_run sound hcandidates hrun
    have hrise := rise_of_step fit sound fresh hcandidates hstep
    obtain ⟨hpos, hle, hsize⟩ := fit'.toStanding.bounds hstarted
    have habove : n.level < level := by
      by_contra hlow
      exact hnew ((fit.mem_started level).2 ⟨hpos, Nat.not_lt.1 hlow, hsize⟩)
    obtain ⟨m, hm, hmail⟩ :=
      hrise.entered level habove ((fit'.mem_started level).1 hstarted).2.1 hsize
    obtain ⟨-, payload, hpayload⟩ :=
      Holdings.combined_fits fit'.tidy s.scheme hsmall hpos hle hm
    refine ⟨m, payload, hm, hpayload, firsts_ne_nil sound hcandidates hle hsize, ?_⟩
    rw [hmail, fresh.mail level habove, List.append_nil, Setup.posting_of_encode hpayload]
  renewing events n n' hrun hphase hstep level hstarted m hm := by
    intro seen count hcount
    have fit := fit_of_run sound hrun
    have fresh := fresh_of_run sound hcandidates hrun
    obtain ⟨hpos, hle, hsize⟩ := fit.toStanding.bounds hstarted
    have hrunning : n.phase = .running := by
      cases hcases : n.phase with
      | running => rfl
      | stopped => exact absurd hcases hphase
      | waiting =>
          -- nothing has been counted yet, and an update counts nobody now
          have hempty := renewals_of_waiting sound hrun hcases
          rw [step, renew, hcases, if_neg (by decide)] at hstep
          obtain rfl := Except.ok.inj hstep
          have hzero : (n.renewalAt level).sent = 0 := by
            rw [renewalAt, hempty, LevelMap.get?_empty]
            rfl
          dsimp only [count] at hcount
          omega
    obtain ⟨m', hm', turned⟩ :=
      turned_of_renew sound fit.tidy fit.toStanding fresh.ascending hrunning hstep hstarted
    obtain rfl : m = m' := Option.some.inj (Except.ok.inj (hm.symm.trans hm'))
    obtain ⟨-, payload, hpayload⟩ := Holdings.combined_fits fit.tidy s.scheme hsmall hpos hle hm
    obtain ⟨members, hmembers, hmsize⟩ := sound.exists_members hle hsize
    refine ⟨payload, hpayload, Setup.length_round hmembers (by omega) _ _, ?_⟩
    cases turned with
    | idle hover hcounter hmail =>
        dsimp only [count, seen] at hcount
        rw [hcounter] at hcount
        omega
    | sent hleft hcounter hmail =>
        have hsent : count = min s.settings.updates (s.place.sizeAt level) := by
          dsimp only [count, seen]
          rw [hcounter]
          exact Nat.add_sub_cancel_left _ _
        rw [hmail, Setup.posting_of_encode hpayload, hsent]
        dsimp only [seen]
        rw [Renewal.next_seeing]
        rfl
  written events n hrun level hstarted m hm := by
    have fit := fit_of_run sound hrun
    obtain ⟨hpos, hle, -⟩ := fit.toStanding.bounds hstarted
    exact (Holdings.combined_fits fit.tidy s.scheme hsmall hpos hle hm).2

end

theorem mail_of_unwritten (fit : Fit s n) (sound : s.Sound) {e : Event}
    (h : n.step s e = .ok n') (hunwritten : ∀ m payload,
      n'.holdings.combined s.scheme s.place (level - 1) = .ok (some m) →
      m.encode s.scheme ≠ .ok payload) : n'.mail level = n.mail level := by
  obtain ⟨new, hnew, hinforms⟩ := journal_of_step fit sound h
  rw [mail, mail, hnew, List.filter_append, List.filter_eq_nil_iff.2, List.nil_append]
  intro a ha hfor
  cases a with
  | send receivers packet =>
      obtain ⟨l, m, -, hle, hm, hpayload, -, hlevel, -⟩ := hinforms receivers packet ha
      have heq : packet.level.toNat = level := of_decide_eq_true hfor
      rw [hlevel, sound.toNat_level hle] at heq
      exact hunwritten m packet.payload (heq ▸ hm) hpayload
  | publish m => cases hfor
  | report id fault => cases hfor

theorem exists_climb (fit : Fit s n) (sound : s.Sound) (hphase : n.phase ≠ .stopped)
    (count : Nat) : ∃ n', run s (List.replicate count .nextLevel) n = .ok n' ∧
      min s.maxLevel (n.level + count) ≤ n'.level := by
  induction count generalizing n with
  | zero => exact ⟨n, rfl, Nat.min_le_right _ _⟩
  | succ count ih =>
      obtain ⟨entered, n₁, hadvance, spoken, -, -, -, hlow, hrise, -⟩ :=
        advance_spec sound fit.tidy fit.toStanding
      have hstep : n.step s .nextLevel = .ok n₁ := by
        rw [step, hadvance]
        rfl
      obtain ⟨n', hrun, hlevel⟩ := ih (fit_of_step fit sound hstep) (spoken.phase_eq ▸ hphase)
      refine ⟨n', by rw [List.replicate_succ, run, hstep]; exact hrun, ?_⟩
      have hfit := fit.level_le
      have := hrise hphase
      omega

theorem renewals_of_run (fit : Fit s n) (sound : s.Sound) {events : List Event}
    (hothers : ∀ e ∈ events, e ≠ .renew) (h : run s events n = .ok n') :
    n'.renewals = n.renewals := by
  refine fit.run_keeps (P := fun m => m.renewals = n.renewals) sound
    (fun e he n₁ n₂ fit₁ hstep h₁ => ?_) h rfl
  exact (renewals_of_step fit₁ sound (hothers e he) hstep).trans h₁

/-- A node that is started and then told to go up once per level gets to the last
one, without any update. -/
theorem exists_top (sound : s.Sound) (own : σ) :
    ∃ n, run s (.start :: List.replicate s.maxLevel .nextLevel) (create s own) = .ok n ∧
      n.phase = .running ∧ n.level = s.maxLevel ∧ ∀ level, (n.renewalAt level).sent = 0 := by
  have fit₀ := fit_create s own
  obtain ⟨n₁, hstart, fit₁⟩ := fit₀.step sound .start
  have hphase₁ : n₁.phase = .running := fit₀.phase_step sound hstart
  obtain ⟨n, hclimb, hlevel⟩ := exists_climb fit₁ sound (by rw [hphase₁]; decide) s.maxLevel
  have hrun : run s (.start :: List.replicate s.maxLevel .nextLevel) (create s own) = .ok n := by
    rw [run, hstart]
    exact hclimb
  refine ⟨n, hrun, ?_, ?_, fun level => ?_⟩
  · rw [fit₁.phase_run sound hclimb, hphase₁]
    generalize s.maxLevel = count
    induction count with
    | zero => rfl
    | succ count ih => rw [List.replicate_succ, List.foldl_cons]; exact ih
  · have := (fit_of_run sound hrun).level_le
    omega
  · have hempty : n.renewals = .empty := by
      refine renewals_of_run fit₀ sound (fun e he => ?_) hrun
      rcases List.mem_cons.1 he with rfl | he
      · exact Event.noConfusion
      · rw [List.eq_of_mem_replicate he]
        exact Event.noConfusion
    rw [renewalAt, hempty, LevelMap.get?_empty]
    rfl

section
variable (sound : s.Sound) (hleaf : s.place.leaf = 0) (hlarge : 2 ^ 16 < s.place.size)
include sound hleaf hlarge

/-- The first of more than `2 ^ 16` members has nothing for level 17 that can be
written. -/
theorem unwritten_of_large (fit : Fit s n) {m : Multisig σ} {payload : List UInt8}
    (hm : n.holdings.combined s.scheme s.place (17 - 1) = .ok (some m)) :
    m.encode s.scheme ≠ .ok payload := by
  intro hpayload
  obtain ⟨hle, -, hbelow⟩ := Place.below_of_large hleaf hlarge
  obtain ⟨w, m', hw, hm', hgathers⟩ := Holdings.combined_eq fit.tidy s.scheme
    sound.size_le_limit (by decide : 0 < 17) (Nat.le_succ_of_le hle)
  obtain rfl : m = m' := Option.some.inj (Except.ok.inj (hm.symm.trans hm'))
  obtain rfl : w = ⟨0, 2 ^ 16⟩ := Except.ok.inj (hw.symm.trans hbelow)
  have hlength := Multisig.encode_isOk_iff.1 ⟨payload, hpayload⟩
  rw [hgathers.length_eq] at hlength
  exact absurd hlength (Nat.lt_irrefl _)

theorem mail_of_large (fit : Fit s n) {events : List Event} (h : run s events n = .ok n') :
    n'.mail 17 = n.mail 17 := by
  refine fit.run_keeps (P := fun m => m.mail 17 = n.mail 17) sound
    (fun e _ n₁ n₂ fit₁ hstep h₁ => ?_) h rfl
  have hsame := mail_of_unwritten fit₁ sound hstep fun m payload hm =>
    unwritten_of_large sound hleaf hlarge (fit_of_step fit₁ sound hstep) hm
  exact hsame.trans h₁

/-- The first of more than `2 ^ 16` members enters level 17 without sending anything
to it, and its updates count members of level 17 that they have sent nothing. -/
theorem silent_of_large (hcandidates : 0 < s.settings.candidates)
    (hupdates : 0 < s.settings.updates) (own : σ) :
    ∃ n n', run s (.start :: List.replicate s.maxLevel .nextLevel) (create s own) = .ok n ∧
      n.phase = .running ∧ 17 ∈ n.started ∧ n.mail 17 = [] ∧ (n.renewalAt 17).sent = 0 ∧
      n.step s .renew = .ok n' ∧ 0 < (n'.renewalAt 17).sent ∧ n'.mail 17 = [] := by
  obtain ⟨hle, hsize, -⟩ := Place.below_of_large hleaf hlarge
  obtain ⟨n, hrun, hphase, hlevel, hsent⟩ := exists_top sound own
  have fit := fit_of_run sound hrun
  have fresh := fresh_of_run sound hcandidates hrun
  have hstarted : 17 ∈ n.started := (fit.mem_started 17).2 ⟨by decide, hlevel ▸ hle, hsize⟩
  have hmail : n.mail 17 = [] := mail_of_large sound hleaf hlarge (fit_create s own) hrun
  obtain ⟨n', hrenew, fit'⟩ := fit.step sound .renew
  have hcounted : 0 < (n'.renewalAt 17).sent := by
    obtain ⟨m, -, turned⟩ :=
      turned_of_renew sound fit.tidy fit.toStanding fresh.ascending hphase hrenew hstarted
    have hseen := (n.renewalAt 17).sent_seeing_le m.card
    have hnone := hsent 17
    cases turned with
    | idle hover => omega
    | sent hleft hcounter hmail =>
        rw [hcounter]
        dsimp only [Renewal.moved]
        omega
  refine ⟨n, n', hrun, hphase, hstarted, hmail, hsent 17, hrenew, hcounted, ?_⟩
  rw [mail_of_unwritten fit sound hrenew fun m payload hm =>
    unwritten_of_large sound hleaf hlarge fit' hm, hmail]

end

theorem not_outspoken_of_large (sound : s.Sound) (hcandidates : 0 < s.settings.candidates)
    (hupdates : 0 < s.settings.updates) (hleaf : s.place.leaf = 0)
    (hlarge : 2 ^ 16 < s.place.size) (own : σ) : ¬ Outspoken s own := by
  intro houtspoken
  obtain ⟨n, n', hrun, hphase, hstarted, -, hsent, hrenew, hcounted, hmail⟩ :=
    silent_of_large sound hleaf hlarge hcandidates hupdates own
  have fit := fit_of_run sound hrun
  obtain ⟨w, m, -, hm, -⟩ := Holdings.combined_eq fit.tidy s.scheme sound.size_le_limit
    (by decide : 0 < 17) (Nat.le_succ_of_le (Place.below_of_large hleaf hlarge).1)
  have hseen := (n.renewalAt 17).sent_seeing_le m.card
  obtain ⟨payload, -, -, hnews⟩ := houtspoken.renewing _ n n' hrun (by rw [hphase]; decide)
    hrenew 17 hstarted m hm (by omega)
  rw [hmail] at hnews
  cases hnews

/-- Over a dense roster and with valid settings, no node ever leaves a level that it
has entered without news exactly if there are at most `2 ^ 16` members. -/
theorem outspoken_iff {roster : Roster κ} (hdense : roster.Dense) {settings : Settings}
    (hvalid : settings.validate = .ok ()) (hword : settings.candidates < Word.limit)
    (scheme : Scheme κ σ) (message : List UInt8) (order : ContactOrder)
    (evaluator : Evaluator σ) (exclusion : Exclusion) (pace : Pace) (own : σ) :
    (∀ id s, Setup.create scheme roster id message settings order evaluator exclusion pace =
      .ok s → Outspoken s own) ↔ roster.size ≤ 2 ^ 16 := by
  have hcandidates := Settings.candidates_pos hvalid
  constructor
  · intro houtspoken
    by_contra hlarge
    rw [Nat.not_le] at hlarge
    have hid : 0 ≤ Int32.toInt 0 ∧ (Int32.toInt 0).toNat < roster.size :=
      ⟨by decide, Nat.lt_of_le_of_lt (by decide) hlarge⟩
    obtain ⟨s, hs⟩ := Setup.exists_create hdense hvalid hid scheme message order evaluator
      exclusion pace
    obtain ⟨-, -, -, -, hsettings, -, -, hsize, hleaf⟩ := Setup.eq_of_create hs
    have hzero : s.place.leaf = 0 := by
      have : Int32.toInt 0 = 0 := by decide
      omega
    exact not_outspoken_of_large (Setup.sound_of_create hdense hword hs)
      (hsettings ▸ hcandidates) (hsettings ▸ Settings.updates_pos hvalid) hzero (hsize ▸ hlarge)
      own (houtspoken 0 s hs)
  · intro hsmall id s hs
    obtain ⟨-, -, -, -, hsettings, -, -, hsize, -⟩ := Setup.eq_of_create hs
    exact outspoken_of_small (Setup.sound_of_create hdense hword hs)
      (hsettings ▸ hcandidates) (hsize ▸ hsmall) own

/-- As many members as can be, with the settings that are the default. -/
theorem outspoken_iff_of_limit :
    (Plain.roster (2 ^ 16)).Dense ∧ ({} : Settings).validate = .ok () ∧
      ({} : Settings).candidates < Word.limit ∧
      ∀ id s, Setup.create Plain.scheme (Plain.roster (2 ^ 16)) id [7] {} .ascending .byGain .never
        .ticking = .ok s → Outspoken s (Plain.sign 0) := by
  have hsize : (Plain.roster (2 ^ 16)).size = 2 ^ 16 := by
    rw [Plain.size_roster, Roster.memberCount_of_lt (by decide)]
  have hiff := outspoken_iff (Plain.dense_roster (2 ^ 16)) (by decide : ({} : Settings).validate =
    .ok ()) (by decide) Plain.scheme [7] .ascending .byGain .never .ticking (Plain.sign 0)
  exact ⟨Plain.dense_roster _, by decide, by decide, hiff.2 (Nat.le_of_eq hsize)⟩

/-- With one member more, the first of them is not outspoken: it enters level 17, and
its next update counts members of level 17 as contacted, but neither is sent a
packet. -/
theorem silence_of_first :
    ∃ s : Setup IdSet Plain.Signature,
      Setup.create Plain.scheme (Plain.roster (2 ^ 16 + 1)) 0 [7] {} .ascending .byGain .never
        .ticking = .ok s ∧
      ¬ Outspoken s (Plain.sign 0) ∧
      ∃ n n', run s (.start :: List.replicate s.maxLevel .nextLevel) (create s (Plain.sign 0)) =
          .ok n ∧ n.phase = .running ∧ 17 ∈ n.started ∧ n.mail 17 = [] ∧
        n.step s .renew = .ok n' ∧ (n.renewalAt 17).sent < (n'.renewalAt 17).sent ∧
        n'.mail 17 = [] := by
  have hsize : (Plain.roster (2 ^ 16 + 1)).size = 2 ^ 16 + 1 := by
    rw [Plain.size_roster, Roster.memberCount_of_lt (by decide)]
  have hid : 0 ≤ Int32.toInt 0 ∧ (Int32.toInt 0).toNat < (Plain.roster (2 ^ 16 + 1)).size := by
    rw [hsize]
    decide
  obtain ⟨s, hs⟩ := Setup.exists_create (Plain.dense_roster _)
    (by decide : ({} : Settings).validate = .ok ()) hid Plain.scheme [7] .ascending .byGain .never
    .ticking
  have sound := Setup.sound_of_create (Plain.dense_roster _) (by decide) hs
  obtain ⟨-, -, -, -, hsettings, -, -, hplace, hleaf⟩ := Setup.eq_of_create hs
  have hcandidates : 0 < s.settings.candidates := by
    rw [hsettings]
    decide
  have hupdates : 0 < s.settings.updates := by
    rw [hsettings]
    decide
  have hzero : s.place.leaf = 0 := by
    have : Int32.toInt 0 = 0 := by decide
    omega
  have hlarge : 2 ^ 16 < s.place.size := by omega
  obtain ⟨n, n', hrun, hphase, hstarted, hmail, hsent, hrenew, hcounted, hmail'⟩ :=
    silent_of_large sound hzero hlarge hcandidates hupdates (Plain.sign 0)
  exact ⟨s, hs, not_outspoken_of_large sound hcandidates hupdates hzero hlarge _, n, n', hrun,
    hphase, hstarted, hmail, hrenew, hsent ▸ hcounted, hmail'⟩

end Node

end MultisigTree
