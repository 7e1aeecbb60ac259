import MultisigTree.Proofs.Lives

/-!
# What is published

Whatever arrives at a node, it publishes only multi-signatures over all
members that have enough contributions, its own among them, and that vouch for
every member they mark; each has more contributions than the one before. Over
the plain scheme their signers are exactly the members marked
(`Node.published_plain`).
-/
namespace MultisigTree

namespace Node

variable {κ σ : Type} {s : Setup κ σ} {n : Node κ σ}

theorem Worked.each {n' : Node κ σ} (worked : Worked s n n') (fit : Fit s n)
    {P : Nat → Multisig σ → Prop} (hjoins : Holdings.Joins s.scheme P)
    (hverified : ∀ o, s.place.Fits o → s.verify o = .ok () → P o.level.toNat o.multisig)
    (heach : n.holdings.Each P) : n'.holdings.Each P := by
  rcases worked.holdings with heq | ⟨o, ho, heq⟩
  · exact heq ▸ heach
  · obtain ⟨hfits, hok⟩ := fit.genuine o ho
    exact heq ▸ heach.add hjoins (hverified o hfits hok)

theorem Worked.published_eq {n' : Node κ σ} (worked : Worked s n n') :
    n'.published = n.published := by
  obtain ⟨new, hnew, hsays⟩ := worked.journal
  unfold published
  rw [hnew, List.filterMap_append, List.filterMap_eq_nil_iff.2, List.nil_append]
  intro a ha
  rcases hsays a ha with hinforms | ⟨id, fault, rfl⟩
  · cases a with
    | send receivers packet => rfl
    | publish m => exact hinforms.elim
    | report id fault => rfl
  · rfl

/-- What an offer that fits its level and verifies vouches for. -/
theorem vouchesAt_of_verify (sound : s.Sound) {o : Offer σ} (hfits : s.place.Fits o)
    (hok : s.verify o = .ok ()) : s.VouchesAt o.level.toNat o.multisig := by
  obtain ⟨⟨-, w, hw, -⟩, -⟩ := hfits
  unfold Verifier.VouchesAt
  rw [s.place.startOf_eq hw]
  exact ((Verifier.verify_eq_ok_iff sound.toPlaced hw).1 hok).2

structure Backed (s : Setup κ σ) (n : Node κ σ) : Prop where
  held : n.holdings.Each s.VouchesAt
  best_eq : n.best = n.published.head?
  published : ∀ m ∈ n.published, m.length = s.place.size ∧ s.threshold ≤ m.card ∧
    s.place.leaf ∈ m.mask.ones ∧ s.Vouches 0 m
  rising : n.published.Pairwise fun later earlier => earlier.card < later.card

theorem mem_marks_zero {m : Multisig σ} {i : Nat} : i ∈ m.marks 0 ↔ i ∈ m.mask.ones := by
  simp [Multisig.marks]

theorem shows_leaf {h : Holdings σ} {p : Place} (tidy : h.Tidy p) : h.Shows p p.leaf := by
  obtain ⟨own, hown⟩ := tidy.own
  have hne : own.marks (p.startOf 0) ≠ [] := by
    rw [← List.length_pos_iff, Multisig.length_marks]
    exact tidy.marked 0 own hown
  obtain ⟨i, hi⟩ := List.exists_mem_of_ne_nil _ hne
  have hlevel := ((tidy.suits 0 own hown).mem_marks hi).2
  have hleaf := p.levelOf_eq_zero_iff.1 hlevel
  subst hleaf
  refine ⟨own, ?_, ?_⟩
  · rw [hlevel]
    exact hown
  · rw [hlevel]
    exact hi

namespace Backed

theorem concluding (backed : Backed s n) (fit : Fit s n) (sound : s.Sound)
    (lawful : s.scheme.Lawful) {m : Multisig σ}
    (hm : n.holdings.whole s.scheme s.place = .ok (some m)) : Backed s (n.concluding s m) := by
  rcases concluding_cases s n m with ⟨-, hsame⟩ | ⟨⟨-, henough, hbest⟩, hpublish⟩
  · rw [hsame]
    exact backed
  · rw [hpublish]
    have hgathers := Holdings.gathers_of_whole fit.tidy sound.size_le_limit hm
    refine ⟨backed.held, rfl, ?_, ?_⟩
    · intro m' hm'
      rcases List.mem_cons.1 hm' with rfl | hm'
      · refine ⟨hgathers.length_eq, henough, ?_, ?_⟩
        · refine mem_marks_zero.1 ((fit.tidy.mem_marks_iff hgathers).2 ⟨shows_leaf fit.tidy, ?_⟩)
          rw [s.place.levelOf_eq_zero_iff.2 rfl]
          exact Nat.succ_pos _
        · exact Verifier.vouches_of_each (p := s.place) lawful rfl backed.held hgathers
      · exact backed.published m' hm'
    · have hrising := backed.rising
      refine List.pairwise_cons.2 ⟨fun m' hm' => ?_, hrising⟩
      rw [backed.best_eq] at hbest
      cases hpublished : n.published with
      | nil =>
          change m' ∈ n.published at hm'
          rw [hpublished] at hm'
          cases hm'
      | cons b rest =>
          change m' ∈ n.published at hm'
          rw [hpublished] at hm' hrising hbest
          have hb := hbest b rfl
          rcases List.mem_cons.1 hm' with rfl | hm'
          · exact hb
          · exact Nat.lt_trans ((List.pairwise_cons.1 hrising).1 m' hm') hb

theorem step (backed : Backed s n) (fit : Fit s n) (sound : s.Sound) (lawful : s.scheme.Lawful)
    {e : Event} {n' : Node κ σ} (h : n.step s e = .ok n') : Backed s n' := by
  obtain ⟨n₁, worked, -, hcases⟩ := fit.step_cases sound h
  have hpublished := worked.published_eq
  have backed₁ : Backed s n₁ := by
    refine ⟨worked.each fit (Verifier.joins_vouchesAt lawful)
      (fun o => vouchesAt_of_verify sound) backed.held, ?_, ?_, ?_⟩
    · rw [worked.best_eq, hpublished]
      exact backed.best_eq
    · rw [hpublished]
      exact backed.published
    · rw [hpublished]
      exact backed.rising
  rcases hcases with ⟨-, -, rfl⟩ | ⟨m, hm, -, rfl⟩
  · exact backed₁
  · exact backed₁.concluding worked.fit sound lawful hm

theorem run (backed : Backed s n) (fit : Fit s n) (sound : s.Sound) (lawful : s.scheme.Lawful)
    {events : List Event} {n' : Node κ σ} (h : Node.run s events n = .ok n') : Backed s n' :=
  fit.run_keeps sound
    (fun _ _ _ _ fit hstep backed => backed.step fit sound lawful hstep) h backed

end Backed

/-- A node has published all it holds if that has enough contributions. -/
structure UpToDate (s : Setup κ σ) (n : Node κ σ) : Prop where
  best_le : ∀ b m, n.best = some b → n.holdings.whole s.scheme s.place = .ok (some m) →
    b = m ∨ b.card < m.card
  best_eq : n.phase = .running → ∀ m, n.holdings.whole s.scheme s.place = .ok (some m) →
    s.threshold ≤ m.card → n.best = some m

theorem card_whole (fit : Fit s n) (sound : s.Sound) {m : Multisig σ}
    (hm : n.holdings.whole s.scheme s.place = .ok (some m)) :
    m.card = n.holdings.below (s.maxLevel + 1) := by
  have hgathers := Holdings.gathers_of_whole fit.tidy sound.size_le_limit hm
  rw [hgathers.card_eq, Holdings.sum_card_parts]
  rfl

/-- Work that changes what a node holds makes all of it larger. -/
theorem Worked.card_lt {n' : Node κ σ} (worked : Worked s n n') (fit : Fit s n) (sound : s.Sound)
    (hne : n'.holdings ≠ n.holdings) {m m' : Multisig σ}
    (hm : n.holdings.whole s.scheme s.place = .ok (some m))
    (hm' : n'.holdings.whole s.scheme s.place = .ok (some m')) : m.card < m'.card := by
  obtain ⟨o, ho, heq⟩ := worked.holdings.resolve_left hne
  have hadded := Holdings.add_eq_or_count_lt s.scheme n.holdings o.level.toNat o.multisig
  have hlt := hadded.resolve_left (heq ▸ hne)
  rw [card_whole fit sound hm, card_whole worked.fit sound hm', heq]
  apply Holdings.below_lt_below _ _ hlt
  · exact Holdings.count_le_count_add s.scheme n.holdings o.level.toNat o.multisig
  · exact Nat.lt_succ_of_le (fit.genuine o ho).1.1.1

/-- Work leaves all that a node holds as it is, or makes it larger. -/
theorem Worked.whole {n' : Node κ σ} (worked : Worked s n n') (fit : Fit s n) (sound : s.Sound)
    {m m' : Multisig σ} (hm : n.holdings.whole s.scheme s.place = .ok (some m))
    (hm' : n'.holdings.whole s.scheme s.place = .ok (some m')) : m' = m ∨ m.card < m'.card := by
  by_cases heq : n'.holdings = n.holdings
  · rw [heq, hm] at hm'
    exact .inl (Option.some.inj (Except.ok.inj hm')).symm
  · exact .inr (worked.card_lt fit sound heq hm hm')

theorem UpToDate.step (current : UpToDate s n) (fit : Fit s n) (sound : s.Sound) {e : Event}
    {n' : Node κ σ} (h : n.step s e = .ok n') : UpToDate s n' := by
  obtain ⟨n₁, worked, -, hcases⟩ := fit.step_cases sound h
  rcases hcases with ⟨hholdings, hphase, rfl⟩ | ⟨m₁, hm₁, -, rfl⟩
  · constructor
    · rw [worked.best_eq, hholdings]
      exact current.best_le
    · rw [worked.best_eq, hholdings]
      exact fun hrunning => current.best_eq (hphase hrunning)
  · obtain ⟨m₀, hm₀, -⟩ := Holdings.whole_eq fit.tidy s.scheme sound.size_le_limit
    have hbest : ∀ b, n₁.best = some b → b = m₁ ∨ b.card < m₁.card := by
      intro b hb
      rw [worked.best_eq] at hb
      have hold := current.best_le b m₀ hb hm₀
      rcases worked.whole fit sound hm₀ hm₁ with rfl | hlt
      · exact hold
      · rcases hold with rfl | hold
        · exact .inr hlt
        · exact .inr (Nat.lt_trans hold hlt)
    have hwhole : ∀ m, n₁.holdings.whole s.scheme s.place = .ok (some m) → m = m₁ :=
      fun m hm => Option.some.inj (Except.ok.inj (hm.symm.trans hm₁))
    rcases concluding_cases s n₁ m₁ with ⟨hquiet, hsame⟩ | ⟨-, hpublish⟩
    · rw [hsame]
      constructor
      · intro b m hb hm
        exact hwhole m hm ▸ hbest b hb
      · intro hrunning m hm henough
        obtain rfl := hwhole m hm
        rcases hquiet with hstopped | hfew | ⟨b, hb, hle⟩
        · rw [hrunning] at hstopped
          cases hstopped
        · omega
        · rcases hbest b hb with rfl | hlt
          · exact hb
          · omega
    · rw [hpublish]
      constructor
      · intro b m hb hm
        obtain rfl := hwhole m hm
        exact .inl (Option.some.inj hb).symm
      · intro _ m hm _
        obtain rfl := hwhole m hm
        rfl

theorem backed_create (lawful : s.scheme.Lawful) {own : σ} {member : Member κ}
    (hmember : s.roster.member? s.place.leaf = some member)
    (hown : s.scheme.verifies member.key s.message own = true) : Backed s (create s own) where
  held level m hbest := by
    rw [best?_create] at hbest
    split at hbest
    · rename_i hlevel
      cases hbest
      subst hlevel
      have hkey : s.keyOf [s.place.leaf] = member.key := by
        unfold Verifier.keyOf
        rw [List.filterMap_cons_some (by rw [hmember]; rfl), List.filterMap_nil,
          Scheme.aggregateKey_cons lawful, lawful.mergeKeys_comm]
        exact lawful.neutral_mergeKeys _
      unfold Verifier.VouchesAt
      rw [s.place.startOf_eq s.place.peers_zero]
      unfold Verifier.Vouches
      rw [show (⟨.ofList 1 [0], own⟩ : Multisig σ).marks s.place.leaf = [s.place.leaf] from rfl,
        hkey]
      exact hown
    · cases hbest
  best_eq := rfl
  published := nofun
  rising := List.Pairwise.nil

theorem backed_of_create {scheme : Scheme κ σ} (lawful : scheme.Lawful) {roster : Roster κ}
    {id : Int32} {message : List UInt8} {settings : Settings} {order : ContactOrder}
    {evaluator : Evaluator σ} {exclusion : Exclusion} {pace : Pace}
    (hs : Setup.create scheme roster id message settings order evaluator exclusion pace = .ok s)
    {member : Member κ} (hmember : roster.member? id.toInt.toNat = some member) {own : σ}
    (hown : scheme.verifies member.key message own = true) : Backed s (create s own) := by
  obtain ⟨hscheme, hroster, hmessage, -, -, -, -, -, hleaf⟩ := Setup.eq_of_create hs
  have hnumber : id.toInt.toNat = s.place.leaf := by omega
  apply backed_create
  · rw [hscheme]
    exact lawful
  · rw [hroster, ← hnumber]
    exact hmember
  · rw [hscheme, hmessage]
    exact hown

theorem upToDate_create (s : Setup κ σ) (own : σ) : UpToDate s (create s own) where
  best_le := nofun
  best_eq := nofun

/-- A stopped node shows nothing any more, and is not started again. -/
theorem step_stopped (fit : Fit s n) (sound : s.Sound) (hstopped : n.phase = .stopped)
    {e : Event} {n' : Node κ σ} (h : n.step s e = .ok n') :
    n'.phase = .stopped ∧ n'.journal = n.journal := by
  have hnew : n.phase ≠ .waiting := by rw [hstopped]; decide
  have hidle : n.phase ≠ .running := by rw [hstopped]; decide
  have hadvance : n.advance s = .ok (false, n) := by
    rw [Node.advance, if_pos hstopped]
  cases fit.stepped_of_step sound h with
  | unstarted hphase => exact ⟨hstopped, rfl⟩
  | started hphase hadvance moved hm => exact absurd hphase hnew
  | received packet =>
      rw [receive_unheard fun hears => hears (.inl hstopped)]
      exact ⟨hstopped, rfl⟩
  | passed passed =>
      rw [passed.idle (fit.phase_eq ▸ hidle)]
      exact ⟨hstopped, rfl⟩
  | untaken hgenuine => exact ⟨hstopped, rfl⟩
  | taken hgenuine hcheck moved hm => exact absurd (fit.phase_of_genuine hgenuine) hidle
  | renewed hrenew spoken fit' =>
      rw [Node.renew, if_neg hidle] at hrenew
      cases hrenew
      exact ⟨hstopped, rfl⟩
  | advanced hadvanced moved =>
      cases hadvance.symm.trans hadvanced
      exact ⟨hstopped, rfl⟩
  | unasked => exact ⟨hstopped, rfl⟩
  | asked hadvanced moved timer =>
      cases hadvance.symm.trans hadvanced
      exact ⟨hstopped, rfl⟩
  | stopped => exact ⟨phase_stop, journal_stop⟩

theorem run_stopped (fit : Fit s n) (sound : s.Sound) (hstopped : n.phase = .stopped)
    {events : List Event} {n' : Node κ σ} (h : run s events n = .ok n') :
    n'.journal = n.journal := by
  refine (fit.run_keeps (P := fun m => m.phase = .stopped ∧ m.journal = n.journal) sound
    (fun e _ n₁ n₂ fit₁ hstep h₁ => ?_) h ⟨hstopped, rfl⟩).2
  obtain ⟨hphase, hjournal⟩ := step_stopped fit₁ sound h₁.1 hstep
  exact ⟨hphase, hjournal.trans h₁.2⟩

theorem run_append (events after : List Event) :
    run s (events ++ after) n = (run s events n).bind (run s after) := by
  induction events generalizing n with
  | nil => rfl
  | cons e rest ih =>
      rw [List.cons_append, run, run]
      cases n.step s e with
      | error crash => rfl
      | ok n₁ => exact ih

/-- Over the plain scheme every multi-signature that a node ever publishes, in
any run, has one position for each member, enough contributions, its own among
them, and more than the one published before; its signature is genuine, and its
signers are exactly the members it marks. Nothing is published after a stop. -/
theorem published_plain {roster : Roster IdSet} (hdense : roster.Dense)
    (hkeyed : Plain.Keyed roster) (settings : Settings) (hvalid : settings.validate = .ok ())
    (hword : settings.candidates < Word.limit) (id : Int32)
    (hid : 0 ≤ id.toInt ∧ id.toInt.toNat < roster.size) (message : List UInt8)
    (order : ContactOrder) (evaluator : Evaluator Plain.Signature) (exclusion : Exclusion)
    (pace : Pace) (own : Plain.Signature)
    (hown : Plain.scheme.verifies (.singleton id) message own = true) (events : List Event) :
    ∃ s n, Setup.create Plain.scheme roster id message settings order evaluator exclusion pace =
        .ok s ∧
      run s events (create s own) = .ok n ∧
      (∀ m ∈ n.published, m.length = roster.size ∧ s.threshold ≤ m.card ∧
        m.mask.get id.toInt.toNat = true ∧ m.signature.genuine = true ∧
        ∀ signer, signer ∈ m.signature.signers ↔
          0 ≤ signer.toInt ∧ m.mask.get signer.toInt.toNat = true) ∧
      n.published.Pairwise (fun later earlier => earlier.card < later.card) ∧
      ∀ after, ∃ n', run s (events ++ .stop :: after) (create s own) = .ok n' ∧
        n'.published = n.published := by
  obtain ⟨s, hs⟩ := Setup.exists_create hdense hvalid hid Plain.scheme message order evaluator
    exclusion pace
  have sound := Setup.sound_of_create hdense hword hs
  obtain ⟨hscheme, hroster, hmessage, -, -, -, -, hsize, hleaf⟩ := Setup.eq_of_create hs
  have lawful : s.scheme.Lawful := hscheme ▸ Plain.lawful_scheme
  have hleaf' : s.place.leaf = id.toInt.toNat := by omega
  obtain ⟨member, hmember, hkey⟩ := Plain.exists_member hdense hkeyed hid
  have backed := backed_of_create Plain.lawful_scheme hs hmember (hkey ▸ hown)
  obtain ⟨n, hrun, fit⟩ := (fit_create s own).run sound events
  have backed' := backed.run (fit_create s own) sound lawful hrun
  refine ⟨s, n, hs, hrun, fun m hm => ?_, backed'.rising, fun after => ?_⟩
  · obtain ⟨hlen, hcard, hmark, hvouches⟩ := backed'.published m hm
    have hlen' : m.length = roster.size := by rw [hlen, hsize]
    have hbound : ∀ i ∈ m.marks 0, i < s.roster.size := by
      intro i hi
      have := m.mask.bounded i (mem_marks_zero.1 hi)
      rw [hroster, ← hlen']
      exact this
    obtain ⟨hgenuine, hsigners⟩ := (Verifier.vouches_plain_iff hscheme sound.dense
      (hroster ▸ hkeyed) hbound).1 hvouches
    refine ⟨hlen', hcard, ?_, hgenuine, fun signer => ?_⟩
    · rw [Mask.get_eq_true_iff, ← hleaf']
      exact hmark
    · rw [hsigners, mem_marks_zero, Mask.get_eq_true_iff]
  · obtain ⟨n', hrun', fit'⟩ := fit.stop.run sound after
    refine ⟨n', ?_, ?_⟩
    · rw [run_append, hrun]
      exact hrun'
    · unfold published
      rw [run_stopped fit.stop sound phase_stop hrun', journal_stop]

/-- The second of three members, which hears from both others. -/
theorem published_plain_of_three :
    (Plain.roster 3).Dense ∧ Plain.Keyed (Plain.roster 3) ∧
      ({ quorumPercent := 60 } : Settings).validate = .ok () ∧
      Plain.scheme.verifies (.singleton 1) [7] (Plain.sign 1) = true ∧
      ∃ s n, Setup.create Plain.scheme (Plain.roster 3) 1 [7] { quorumPercent := 60 } .ascending
          .byGain .never .idle = .ok s ∧
        run s [.start, .receive ⟨0, 1, [0, 3, 0, 1, 12, 1, 0, 0, 0, 0]⟩, .pass, .takeIn,
          .receive ⟨2, 2, [0, 3, 0, 1, 12, 1, 0, 0, 0, 2]⟩, .pass, .takeIn]
          (create s (Plain.sign 1)) = .ok n ∧
        (∀ m ∈ n.published, m.length = (Plain.roster 3).size ∧ s.threshold ≤ m.card ∧
          m.mask.get 1 = true ∧ m.signature.genuine = true ∧
          ∀ signer, signer ∈ m.signature.signers ↔
            0 ≤ signer.toInt ∧ m.mask.get signer.toInt.toNat = true) := by
  have hsize : (Plain.roster 3).size = 3 := Plain.size_roster 3
  refine ⟨Plain.dense_roster 3, Plain.keyed_roster 3, by decide, by decide, ?_⟩
  obtain ⟨s, n, hs, hrun, hpublished, -⟩ := published_plain (Plain.dense_roster 3)
    (Plain.keyed_roster 3) { quorumPercent := 60 } (by decide) (by decide) 1
    (by rw [hsize]; decide) [7] .ascending .byGain .never .idle (Plain.sign 1) (by decide)
    [.start, .receive ⟨0, 1, [0, 3, 0, 1, 12, 1, 0, 0, 0, 0]⟩, .pass, .takeIn,
      .receive ⟨2, 2, [0, 3, 0, 1, 12, 1, 0, 0, 0, 2]⟩, .pass, .takeIn]
  exact ⟨s, n, hs, hrun, hpublished⟩

end Node

end MultisigTree
