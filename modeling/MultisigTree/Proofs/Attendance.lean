import MultisigTree.Proofs.Histories
import MultisigTree.Proofs.Keeping
import MultisigTree.Proofs.Ledgers
import MultisigTree.Proofs.Preliminaries

/-!
# Events attended to one at a time

A node attends to an event if all that waits then is worked off before the next
one. In between it is at rest (`Node.Resting`). A packet then changes what it
holds exactly if the offer made of it verifies and adds something
(`Setup.welcome`), whichever offers the evaluator lets go, as long as those add
nothing (`Node.Resting.hear`).
-/
namespace MultisigTree

variable {κ σ : Type}

/-- An evaluator finds an offer of no use only if it adds nothing to what is
held. -/
def Evaluator.Careful (evaluator : Evaluator σ) : Prop :=
  ∀ evaluations holdings o, evaluator evaluations holdings o = 0 → holdings.evaluate o = 0

theorem Evaluator.careful_byGain : (byGain : Evaluator σ).Careful :=
  fun _ _ _ h => h

theorem Evaluator.careful_acceptAll : (acceptAll : Evaluator σ).Careful :=
  fun _ _ _ h => absurd h Nat.one_ne_zero

namespace Holdings

variable {h : Holdings σ} {o : Offer σ}

theorem add_of_evaluate_eq_zero (scheme : Scheme κ σ) (hzero : h.evaluate o = 0) :
    h.add scheme o.level.toNat o.multisig = (false, h) := by
  unfold evaluate at hzero
  unfold add
  cases hgain : h.gain o.level.toNat o.multisig with
  | nothing => rfl
  | replaces =>
      rw [hgain] at hzero
      cases hzero
  | joins held =>
      rw [hgain] at hzero
      cases hzero

/-- Nothing can be added to a level with all its contributions. -/
theorem evaluate_of_full (scheme : Scheme κ σ) {p : Place} (hfits : p.Fits o)
    (hfull : p.sizeAt o.level.toNat ≤ h.count o.level.toNat) : h.evaluate o = 0 := by
  obtain ⟨⟨hle, w, hw, hlen⟩, hpos⟩ := hfits
  have hsize : o.multisig.length = p.sizeAt o.level.toNat := hlen.trans (p.sizeAt_eq hw).symm
  have hcard : o.multisig.card ≤ p.sizeAt o.level.toNat := hsize ▸ o.multisig.mask.card_le_length
  unfold evaluate gain gainOver
  rw [if_neg (by omega)]
  cases hbest : h.best? o.level.toNat with
  | none =>
      rw [count, hbest, Option.elim_none] at hfull
      omega
  | some held =>
      rw [count_eq hbest] at hfull
      by_cases hjoin : held.length = o.multisig.length ∧ (!held.mask.meets o.multisig.mask) = true
      · have hjoined := Multisig.card_join scheme hjoin.1 (by simpa using hjoin.2)
        have hbound : (held.join scheme o.multisig).card ≤ held.length :=
          (held.join scheme o.multisig).mask.card_le_length
        omega
      · dsimp only
        rw [if_neg hjoin, if_neg (by omega)]
        rfl

end Holdings

/-- The offer of a packet, if it verifies and adds something to what is held. -/
def Setup.welcome (s : Setup κ σ) (h : Holdings σ) (packet : Packet) : Option (Offer σ) :=
  match s.read packet with
  | .ok o => if s.verify o = .ok () ∧ h.evaluate o ≠ 0 then some o else none
  | .error _ => none

theorem Setup.welcome_of_refused {s : Setup κ σ} {packet : Packet} {fault : Fault}
    (h : s.read packet = .error fault) (holdings : Holdings σ) :
    s.welcome holdings packet = none := by
  rw [welcome, h]

theorem Setup.welcome_of_read {s : Setup κ σ} {packet : Packet} {o : Offer σ}
    (h : s.read packet = .ok o) (holdings : Holdings σ) :
    s.welcome holdings packet =
      if s.verify o = .ok () ∧ holdings.evaluate o ≠ 0 then some o else none := by
  rw [welcome, h]

namespace Node

variable {s : Setup κ σ} {n n' : Node κ σ} {packet : Packet} {o : Offer σ}

/-- What the backlog counts for a level is secured as long as the node is not
stopped. -/
def Secures (n : Node κ σ) : Prop :=
  n.phase ≠ .stopped → ∀ level card, n.backlog.resolved.get? level = some card →
    n.Secured level card

namespace Secures

theorem spoken (secures : n.Secures) (h : Spoken s n n') : n'.Secures := by
  intro hphase level card hget
  rw [h.phase_eq] at hphase
  rw [h.backlog_eq] at hget
  exact h.secured (secures hphase level card hget)

theorem concluding (secures : n.Secures) (m : Multisig σ) : (n.concluding s m).Secures := by
  unfold Node.concluding
  split
  · exact secures
  · exact secures

theorem receive (secures : n.Secures) (packet : Packet) : (n.receive s packet).Secures := by
  unfold Node.receive
  split
  · exact secures
  · split
    · unfold Backlog.add
      split
      · exact secures
      · exact secures
    · exact secures

theorem passed (secures : n.Secures) {b : Backlog σ} {verdict : Option (Verdict σ)}
    (passed : Backlog.Passed s.toVerifier s.evaluator n.holdings n.backlog b verdict) :
    (n.passed b verdict).Secures := by
  intro hphase level card
  rw [phase_passed] at hphase
  exact secured_of_passed passed (secures hphase level)

theorem taking (secures : n.Secures) {rest : List (Offer σ)} (h : n.genuine = o :: rest) :
    (n.taking s o rest).Secures :=
  fun hphase level card hget => (secures hphase level card hget).taking s h

theorem begun (secures : n.Secures) (hwaiting : n.phase = .waiting) : n.begun.Secures := by
  intro _ level card hget
  rw [n.backlog_begun.2] at hget
  exact secures (by rw [hwaiting]; decide) level card hget

theorem step (secures : n.Secures) (fit : Fit s n) (sound : s.Sound) {e : Event}
    (h : n.step s e = .ok n') : n'.Secures := by
  cases fit.stepped_of_step sound h with
  | unstarted hphase => exact secures
  | started hphase hadvance moved hm =>
      exact ((secures.begun hphase).spoken moved.toSpoken).concluding _
  | received packet => exact secures.receive packet
  | passed passed => exact secures.passed passed
  | untaken hgenuine => exact secures
  | taken hgenuine hcheck moved hm =>
      exact ((secures.taking hgenuine).spoken moved.toSpoken).concluding _
  | renewed hrenew spoken fit' => exact secures.spoken spoken
  | advanced hadvance moved => exact secures.spoken moved.toSpoken
  | unasked => exact secures
  | @asked entered n₁ hadvance moved timer => exact (secures.spoken moved.toSpoken : n₁.Secures)
  | stopped => exact fun hrunning => absurd phase_stop hrunning

end Secures

/-- The invariant of a node that matters for what an offer can still do. -/
structure Orderly (s : Setup κ σ) (n : Node κ σ) : Prop extends Fit s n, UpToDate s n where
  secures : n.Secures

theorem orderly_create (s : Setup κ σ) (own : σ) : Orderly s (create s own) where
  toFit := fit_create s own
  toUpToDate := upToDate_create s own
  secures := nofun

theorem Orderly.step (orderly : Orderly s n) (sound : s.Sound) {e : Event}
    (h : n.step s e = .ok n') : Orderly s n' where
  toFit := (orderly.toFit.stepped_of_step sound h).fit orderly.toFit
  toUpToDate := orderly.toUpToDate.step orderly.toFit sound h
  secures := orderly.secures.step orderly.toFit sound h

theorem Orderly.run (orderly : Orderly s n) (sound : s.Sound) {events : List Event}
    (h : Node.run s events n = .ok n') : Orderly s n' :=
  orderly.toFit.run_keeps sound (fun _ _ _ _ _ hstep orderly => orderly.step sound hstep) h orderly

theorem Orderly.takeIn_useless (orderly : Orderly s n) (sound : s.Sound) {rest : List (Offer σ)}
    (h : n.genuine = o :: rest) (hzero : n.holdings.evaluate o = 0) :
    n.takeIn s = .ok { n with genuine := rest } := by
  have hrunning := orderly.phase_of_genuine h
  obtain ⟨⟨hsuits, hmarked⟩, -⟩ := orderly.genuine o (h ▸ List.mem_cons_self)
  have hadd := Holdings.add_of_evaluate_eq_zero s.scheme hzero
  obtain ⟨held, hheld⟩ := Holdings.exists_best?_add s.scheme n.holdings o.level.toNat hmarked
  rw [hadd] at hheld
  have hcheck : ({ n with genuine := rest } : Node κ σ).checkCompleted s o.level.toNat =
      .ok { n with genuine := rest } := by
    unfold checkCompleted
    by_cases hmem : o.level.toNat ∈ n.completed
    · exact if_pos (by simpa using hmem)
    · rw [if_neg (by simpa using hmem)]
      simp only [hheld]
      have hle := orderly.tidy.count_le o.level.toNat
      rw [orderly.mem_completed, Holdings.count_eq hheld] at hmem
      rw [Holdings.count_eq hheld] at hle
      obtain ⟨hmax, w, hw, -⟩ := hsuits
      have hpos := s.place.sizeAt_pos hmax hw
      exact if_pos (by omega)
  obtain ⟨m, hm, -⟩ := Holdings.whole_eq orderly.tidy s.scheme sound.size_le_limit
  have hfinal : ({ n with genuine := rest } : Node κ σ).checkFinal s =
      .ok { n with genuine := rest } := by
    rw [checkFinal_eq (n := { n with genuine := rest }) hm]
    exact congrArg Except.ok (concluding_of_current (orderly.best_eq hrunning m hm))
  unfold takeIn
  rw [h]
  simp only [if_neg (show ¬ n.phase = .stopped by rw [hrunning]; decide), hadd, hcheck, bind,
    Except.bind]
  exact hfinal

/-- One event, and then whatever waits is worked off. -/
def attend (s : Setup κ σ) (n : Node κ σ) (e : Event) : Except Crash (Node κ σ) := do
  (← n.step s e).settle s

/-- Nothing waits to be verified or to be taken in. -/
structure Resting (s : Setup κ σ) (n : Node κ σ) : Prop extends Orderly s n where
  waiting_eq : n.backlog.waiting = []
  genuine_eq : n.genuine = []

theorem Orderly.resting (orderly : Orderly s n) (h : n.isAtRest = true) : Resting s n := by
  simp only [isAtRest, Bool.and_eq_true, decide_eq_true_eq, List.isEmpty_iff] at h
  refine ⟨orderly, ?_, h.2⟩
  rw [← List.length_eq_zero_iff, Backlog.length_waiting, h.1]

theorem Resting.isAtRest (resting : Resting s n) : n.isAtRest = true := by
  rw [Node.isAtRest, ← Backlog.length_waiting, resting.waiting_eq, resting.genuine_eq]
  rfl

theorem resting_create (s : Setup κ σ) (own : σ) : Resting s (create s own) :=
  ⟨orderly_create s own, rfl, rfl⟩

/-- What comes of an offer: it is taken in, or its sender is reported at most. -/
inductive Weighed (s : Setup κ σ) (n : Node κ σ) : Option (Offer σ) → Node κ σ → Prop
  | dropped (b : Backlog σ) (reports : Reports) : Weighed s n none { n with
      backlog := b
      journal := reports.map (fun r => .report r.1 r.2) ++ n.journal }
  | taken (o : Offer σ) (b : Backlog σ) {n' : Node κ σ} :
      Fit s { n with backlog := b, genuine := [o] } →
      ({ n with backlog := b, genuine := [o] } : Node κ σ).takeIn s = .ok n' →
      Weighed s n (some o) n'

theorem Weighed.of_backlog {b : Backlog σ} {offer? : Option (Offer σ)}
    (h : Weighed s { n with backlog := b } offer? n') : Weighed s n offer? n' := by
  cases h with
  | dropped b reports => exact .dropped b reports
  | taken o b fit htake => exact .taken o b fit htake

theorem settle_of_one (hrunning : n.phase = .running) (hwaiting : n.backlog.waiting = [o])
    (hgenuine : n.genuine = []) : n.settle s = (n.pass s).bind (takeIn s) := by
  have hload : n.backlog.load = 1 := by rw [← Backlog.length_waiting, hwaiting]; rfl
  have hbusy : ¬ (n.phase ≠ .running ∨ n.isAtRest = true) := by
    rw [hrunning, isAtRest, hload]
    simp
  rw [settle, hload, hgenuine]
  change passes s 1 n = _
  rw [passes, if_neg hbusy]
  cases n.pass s with
  | error crash => rfl
  | ok n₁ =>
      simp only [bind, Except.bind]
      cases n₁.takeIn s with
      | error crash => rfl
      | ok n₂ => rfl

theorem backlog_concluding (s : Setup κ σ) (n : Node κ σ) (m : Multisig σ) :
    (n.concluding s m).backlog = n.backlog ∧ (n.concluding s m).genuine = n.genuine := by
  unfold Node.concluding
  split <;> exact ⟨rfl, rfl⟩

theorem pass_of_nothing (h : n.backlog.waiting = []) : n.pass s = .ok n := by
  have hpass : n.backlog.pass s.toVerifier s.evaluator n.holdings =
      .ok (n.backlog, ⟨[], [], none⟩) := by
    generalize n.backlog = b at h
    obtain ⟨phase, queued, pending, resolved, evaluations⟩ := b
    obtain ⟨rfl, rfl⟩ : pending = [] ∧ queued = [] := List.append_eq_nil_iff.1 h
    unfold Backlog.pass
    split
    · rfl
    · rfl
  exact pass_eq hpass

theorem takeIn_spoken (fit : Fit s n) (sound : s.Sound) (h : n.takeIn s = .ok n') :
    n'.backlog = n.backlog ∧ n'.genuine = n.genuine.tail := by
  cases fit.stepped_of_step sound (e := .takeIn) h with
  | untaken hgenuine => exact ⟨rfl, by rw [hgenuine]; rfl⟩
  | @taken o rest n₁ m hgenuine hcheck moved hm =>
      obtain ⟨hbacklog, hgenuine'⟩ := n₁.backlog_concluding s m
      rw [hgenuine]
      exact ⟨hbacklog.trans moved.backlog_eq, hgenuine'.trans moved.genuine_eq⟩

/-- Once the only offer there is has been found genuine, it is taken in if it adds
something. -/
theorem Orderly.take_only {b : Backlog σ} (sound : s.Sound)
    (orderly : Orderly s { n with backlog := b, genuine := [o] }) (hwaiting : b.waiting = [])
    (hgenuine : n.genuine = []) :
    ∃ n', ({ n with backlog := b, genuine := [o] } : Node κ σ).takeIn s = .ok n' ∧
      Resting s n' ∧ n'.phase = n.phase ∧
      Weighed s n (if n.holdings.evaluate o ≠ 0 then some o else none) n' := by
  obtain ⟨n', htake, -⟩ := orderly.toFit.step sound .takeIn
  have orderly' := orderly.step sound (e := .takeIn) htake
  obtain ⟨hbacklog, hrest⟩ := takeIn_spoken orderly.toFit sound htake
  have resting : Resting s n' := ⟨orderly', by rw [hbacklog]; exact hwaiting, hrest⟩
  refine ⟨n', htake, resting, orderly.toFit.phase_step sound (e := .takeIn) htake, ?_⟩
  by_cases hzero : n.holdings.evaluate o = 0
  · have huseless := orderly.takeIn_useless sound rfl hzero
    rw [if_neg (not_not.2 hzero), Except.ok.inj (htake.symm.trans huseless), ← hgenuine]
    exact .dropped b []
  · rw [if_pos hzero]
    exact .taken o b orderly.toFit htake

/-- A running node weighs the only offer that waits, if it lets it go only when it
adds nothing. -/
theorem Orderly.weigh (orderly : Orderly s n) (sound : s.Sound) (hrunning : n.phase = .running)
    (hwaiting : n.backlog.waiting = [o]) (hgenuine : n.genuine = [])
    (hlet : Backlog.isSettled s.place n.backlog.resolved o.level.toNat = true ∨
      (∃ evaluations, s.evaluator evaluations n.holdings o = 0) → n.holdings.evaluate o = 0) :
    ∃ n', n.settle s = .ok n' ∧ Resting s n' ∧ n'.phase = .running ∧ Weighed s n
      (if s.verify o = .ok () ∧ n.holdings.evaluate o ≠ 0 then some o else none) n' := by
  obtain ⟨b, done, hpass⟩ := Backlog.exists_pass s.toVerifier s.evaluator n.holdings n.backlog
  have passed := (Backlog.accounted_of_pass hpass).passed
  have hnone : b.waiting = [] := by
    have hload := Backlog.load_pass hpass (orderly.phase_eq.trans hrunning)
    rw [← Backlog.length_waiting, ← Backlog.length_waiting, hwaiting] at hload
    exact List.length_eq_zero_iff.1 (Nat.lt_one_iff.1 (hload Nat.one_pos))
  have hnode := pass_eq hpass
  have orderly' := orderly.step sound (e := .pass) hnode
  have honly : ∀ o' ∈ n.backlog.waiting, o' = o := fun o' ho' =>
    List.mem_singleton.1 (hwaiting ▸ ho')
  rw [settle_of_one hrunning hwaiting hgenuine, hnode, Except.bind]
  cases hverdict : done.verdict with
  | none =>
      rw [hverdict] at passed orderly'
      have hgone : o ∉ b.waiting := by
        rw [hnone]
        exact List.not_mem_nil
      have hzero : n.holdings.evaluate o = 0 :=
        hlet (passed.let_go (hwaiting ▸ List.mem_singleton_self o) hgone)
      rw [if_neg fun h => h.2 hzero]
      refine ⟨_, ?_, ⟨orderly', hnone, hgenuine⟩, hrunning, .dropped b []⟩
      rw [takeIn, Node.passed, hgenuine]
  | some verdict =>
      rw [hverdict] at orderly'
      cases verdict with
      | forged o' fault =>
          obtain ⟨ho', hforged⟩ := passed.forged o' fault hverdict
          obtain rfl := honly o' ho'
          rw [if_neg fun h => by rw [hforged] at h; cases h.1]
          refine ⟨_, ?_, ⟨orderly', hnone, hgenuine⟩, hrunning, .dropped b [(o'.origin, fault)]⟩
          rw [takeIn, Node.passed, record, hgenuine]
      | genuine o' =>
          obtain ⟨ho', hverify, -⟩ := passed.genuine o' hverdict
          obtain rfl := honly o' ho'
          have hpassed : n.passed b (some (.genuine o')) =
              { n with backlog := b, genuine := [o'] } := by
            rw [Node.passed, hgenuine]
            rfl
          rw [hpassed] at orderly' ⊢
          obtain ⟨n', htake, resting, hphase, hweighed⟩ := orderly'.take_only sound hnone hgenuine
          refine ⟨n', htake, resting, hphase.trans hrunning, ?_⟩
          simpa only [hverify, true_and] using hweighed

namespace Resting

theorem settle (resting : Resting s n) : n.settle s = .ok n := by
  have hload : n.backlog.load = 0 := by rw [← Backlog.length_waiting, resting.waiting_eq]; rfl
  rw [Node.settle, hload, resting.genuine_eq]
  rfl

theorem spoken (resting : Resting s n) (orderly : Orderly s n') (h : Spoken s n n') :
    Resting s n' :=
  ⟨orderly, h.backlog_eq ▸ resting.waiting_eq, h.genuine_eq ▸ resting.genuine_eq⟩

/-- Whatever happens to a node at rest but for a packet leaves it at rest. -/
theorem step (resting : Resting s n) (sound : s.Sound) {e : Event}
    (h : n.step s e = .ok n') (hquiet : ∀ packet, e ≠ .receive packet) : Resting s n' := by
  have orderly := resting.toOrderly.step sound h
  cases resting.toFit.stepped_of_step sound h with
  | unstarted hphase => exact resting
  | @started entered n₁ m hphase hadvance moved hm =>
      obtain ⟨hbacklog, hgenuine⟩ := n₁.backlog_concluding s m
      refine ⟨orderly, ?_, ?_⟩
      · rw [hbacklog, moved.backlog_eq, n.backlog_begun.1]
        exact resting.waiting_eq
      · rw [hgenuine, moved.genuine_eq]
        exact resting.genuine_eq
  | received packet => exact absurd rfl (hquiet packet)
  | passed passed =>
      rw [Node.step, pass_of_nothing resting.waiting_eq, Except.ok.injEq] at h
      exact h ▸ resting
  | untaken hgenuine => exact resting
  | taken hgenuine hcheck moved hm =>
      rw [resting.genuine_eq] at hgenuine
      cases hgenuine
  | renewed hrenew spoken fit' => exact resting.spoken orderly spoken
  | advanced hadvance moved => exact resting.spoken orderly moved.toSpoken
  | unasked => exact resting
  | asked hadvance moved timer =>
      exact ⟨orderly, moved.backlog_eq ▸ resting.waiting_eq, moved.genuine_eq ▸ resting.genuine_eq⟩
  | stopped =>
      refine ⟨orderly, ?_, ?_⟩ <;> unfold Node.stop <;> split
      · exact resting.waiting_eq
      · rfl
      · exact resting.genuine_eq
      · rfl

theorem attend_of_step (resting : Resting s n') {e : Event} (h : n.step s e = .ok n') :
    n.attend s e = .ok n' := by
  rw [attend, h]
  exact resting.settle

/-- A level that is settled has all its contributions at a node at rest. -/
theorem evaluate_of_settled (resting : Resting s n) (hrunning : n.phase = .running)
    (hfits : s.place.Fits o)
    (h : Backlog.isSettled s.place n.backlog.resolved o.level.toNat = true) :
    n.holdings.evaluate o = 0 := by
  unfold Backlog.isSettled at h
  split at h
  · rename_i card hget
    have hsecured := resting.secures (by rw [hrunning]; decide) _ card hget
    rw [Secured, resting.genuine_eq] at hsecured
    have hcard := hsecured.resolve_right nofun
    exact Holdings.evaluate_of_full s.scheme hfits
      (Nat.le_trans (of_decide_eq_true h) hcard)
  · cases h

/-- An offer that is let go adds nothing. -/
theorem evaluate_of_let_go (resting : Resting s n) (careful : s.evaluator.Careful)
    (hrunning : n.phase = .running) (hfits : s.place.Fits o)
    (h : Backlog.isSettled s.place n.backlog.resolved o.level.toNat = true ∨
      ∃ evaluations, s.evaluator evaluations n.holdings o = 0) : n.holdings.evaluate o = 0 := by
  rcases h with hsettled | ⟨evaluations, hzero⟩
  · exact resting.evaluate_of_settled hrunning hfits hsettled
  · exact careful evaluations n.holdings o hzero

/-- A packet is heard out by a running node at rest, which then is at rest
again. -/
theorem hear (resting : Resting s n) (sound : s.Sound) (careful : s.evaluator.Careful)
    (hnever : s.exclusion = .never) (hrunning : n.phase = .running) (packet : Packet) :
    ∃ n', n.attend s (.receive packet) = .ok n' ∧ Resting s n' ∧ n'.phase = .running ∧
      Weighed s n (s.welcome n.holdings packet) n' := by
  have hears : n.Hears s packet := by
    rw [Hears, hrunning, hnever]
    simp [Exclusion.never]
  cases hread : s.read packet with
  | error fault =>
      have hstep : n.step s (.receive packet) = .ok (n.record (.report packet.origin fault)) :=
        congrArg Except.ok (receive_of_fault hears hread)
      have resting' : Resting s (n.record (.report packet.origin fault)) :=
        ⟨resting.toOrderly.step sound hstep, resting.waiting_eq, resting.genuine_eq⟩
      rw [Setup.welcome_of_refused hread]
      refine ⟨_, ?_, resting', hrunning, .dropped n.backlog [(packet.origin, fault)]⟩
      rw [attend, hstep]
      exact resting'.settle
  | ok o =>
      have hstep : n.step s (.receive packet) =
          .ok { n with backlog := { n.backlog with queued := n.backlog.queued ++ [o] } } :=
        congrArg Except.ok (receive_of_read hears resting.phase_eq hread)
      have hwaiting :
          Backlog.waiting { n.backlog with queued := n.backlog.queued ++ [o] } = [o] := by
        rw [Backlog.waiting, ← List.append_assoc]
        exact congrArg (· ++ [o]) resting.waiting_eq
      have hlet : _ → n.holdings.evaluate o = 0 :=
        resting.evaluate_of_let_go careful hrunning (Setup.suits_of_read hread)
      obtain ⟨n', hsettle, resting', hphase, hweighed⟩ :=
        (resting.toOrderly.step sound hstep).weigh sound hrunning hwaiting resting.genuine_eq hlet
      rw [Setup.welcome_of_read hread]
      refine ⟨n', ?_, resting', hphase, hweighed.of_backlog⟩
      rw [attend, hstep]
      exact hsettle

end Resting

end Node

end MultisigTree
