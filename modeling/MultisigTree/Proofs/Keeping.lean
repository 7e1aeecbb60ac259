import MultisigTree.Proofs.Finals
import MultisigTree.Proofs.Rounds

/-!
# Nothing useful is lost

Among members of good faith a node loses no offer before it holds as much for
its level: an offer that a pass lets go is of a level that is settled by a
genuine one, or adds nothing to what is held. So whatever a node once covered,
by what it holds or by an offer that waits, it covers from then on
(`Node.Hale.step`).
-/
namespace MultisigTree

variable {κ σ : Type}

/-- An evaluator finds an offer of no use only if the holdings have as many
contributions already. -/
def Evaluator.Fair (evaluator : Evaluator σ) : Prop :=
  ∀ evaluations holdings o, 0 < o.multisig.card → evaluator evaluations holdings o = 0 →
    o.multisig.card ≤ holdings.count o.level.toNat

theorem Evaluator.fair_acceptAll : (acceptAll : Evaluator σ).Fair :=
  fun _ _ _ _ h => absurd h Nat.one_ne_zero

theorem Evaluator.fair_byGain : (byGain : Evaluator σ).Fair := by
  intro evaluations holdings o hpos hzero
  unfold byGain Holdings.evaluate Holdings.gain Holdings.gainOver at hzero
  rw [if_neg (by omega)] at hzero
  unfold Holdings.count
  cases hbest : holdings.best? o.level.toNat with
  | none =>
      rw [hbest] at hzero
      exact absurd hzero Nat.one_ne_zero
  | some held =>
      rw [hbest] at hzero
      dsimp only at hzero
      split at hzero
      · exact absurd hzero (Nat.succ_ne_zero 1)
      · split at hzero
        · exact absurd hzero Nat.one_ne_zero
        · rename_i hle
          exact Nat.not_lt.1 hle

/-- Only members with the property are marked. -/
def Place.Within (p : Place) (P : Nat → Prop) (level : Nat) (m : Multisig σ) : Prop :=
  ∀ i ∈ m.marks (p.startOf level), P i

theorem Place.joins_within (p : Place) (P : Nat → Prop) (scheme : Scheme κ σ) :
    Holdings.Joins (σ := σ) scheme (p.Within P) := by
  intro level a b ha hb hlen _ i hi
  obtain ⟨k, hk, rfl⟩ := Multisig.mem_marks.1 hi
  rcases (Multisig.mem_join hlen).1 hk with hk | hk
  · exact ha _ (Multisig.mem_marks.2 ⟨k, hk, rfl⟩)
  · exact hb _ (Multisig.mem_marks.2 ⟨k, hk, rfl⟩)

namespace Node

variable {s : Setup κ σ} {P : Nat → Prop} {n n' : Node κ σ} {level card : Nat}

/-- So many contributions are held for the level, or will be once the genuine
offers are taken in. -/
def Secured (n : Node κ σ) (level card : Nat) : Prop :=
  card ≤ n.holdings.count level ∨
    ∃ o ∈ n.genuine, o.level.toNat = level ∧ card ≤ o.multisig.card

/-- So many contributions are secured for the level or wait to be verified. -/
def Covers (n : Node κ σ) (level card : Nat) : Prop :=
  n.Secured level card ∨
    ∃ o ∈ n.backlog.waiting, o.level.toNat = level ∧ card ≤ o.multisig.card

theorem Secured.le {less : Nat} (h : n.Secured level card) (hle : less ≤ card) :
    n.Secured level less := by
  rcases h with h | ⟨o, ho, hlevel, hcard⟩
  · exact .inl (Nat.le_trans hle h)
  · exact .inr ⟨o, ho, hlevel, Nat.le_trans hle hcard⟩

theorem Secured.mono (h : n.Secured level card)
    (hcount : ∀ level, n.holdings.count level ≤ n'.holdings.count level)
    (hgenuine : ∀ o ∈ n.genuine,
      o ∈ n'.genuine ∨ o.multisig.card ≤ n'.holdings.count o.level.toNat) :
    n'.Secured level card := by
  rcases h with h | ⟨o, ho, rfl, hcard⟩
  · exact .inl (Nat.le_trans h (hcount level))
  · rcases hgenuine o ho with ho | hheld
    · exact .inr ⟨o, ho, rfl, hcard⟩
    · exact .inl (Nat.le_trans hcard hheld)

/-- What is secured stays so when the earliest genuine offer is taken in. -/
theorem Secured.taking (h : n.Secured level card) (s : Setup κ σ) {o : Offer σ}
    {rest : List (Offer σ)} (hgenuine : n.genuine = o :: rest) :
    (n.taking s o rest).Secured level card := by
  apply h.mono
  · exact Holdings.count_le_count_add s.scheme n.holdings o.level.toNat o.multisig
  · intro o' ho'
    rw [hgenuine] at ho'
    rcases List.mem_cons.1 ho' with rfl | ho'
    · exact .inr (Holdings.card_le_count_add s.scheme n.holdings _ _)
    · exact .inl ho'

theorem Secured.passed (h : n.Secured level card) (b : Backlog σ) (verdict : Option (Verdict σ)) :
    (n.passed b verdict).Secured level card := by
  apply h.mono
  · intro level
    rw [holdings_passed]
  · intro o' ho'
    left
    rcases verdict with _ | o | ⟨o, fault⟩
    · exact ho'
    · exact List.mem_append_left _ ho'
    · exact ho'

/-- What the backlog counts after a pass is secured, if what it counted before
is. -/
theorem secured_of_passed {b : Backlog σ} {verdict : Option (Verdict σ)}
    (passed : Backlog.Passed s.toVerifier s.evaluator n.holdings n.backlog b verdict)
    (h : ∀ card, n.backlog.resolved.get? level = some card → n.Secured level card)
    (hget : (n.passed b verdict).backlog.resolved.get? level = some card) :
    (n.passed b verdict).Secured level card := by
  rcases verdict with _ | o | ⟨o, fault⟩
  · exact (h card (passed.resolved_eq nofun ▸ hget)).passed b none
  · obtain ⟨-, -, hresolved⟩ := passed.genuine o rfl
    change b.resolved.get? level = some card at hget
    rw [hresolved] at hget
    rcases Backlog.counted_of_resolve hget with ⟨hlevel, hcard⟩ | hold
    · exact .inr ⟨o, List.mem_append_right _ List.mem_cons_self, hlevel, Nat.le_of_eq hcard.symm⟩
    · exact (h card hold).passed b _
  · exact (h card (passed.resolved_eq nofun ▸ hget)).passed b _

theorem Spoken.secured (spoken : Spoken s n n') (h : n.Secured level card) :
    n'.Secured level card := by
  unfold Secured
  rw [spoken.holdings_eq, spoken.genuine_eq]
  exact h

theorem Spoken.covers (spoken : Spoken s n n') (h : n.Covers level card) :
    n'.Covers level card := by
  unfold Covers
  rw [spoken.backlog_eq]
  exact h.imp spoken.secured id

/-- The invariant of a node that hears only members of good faith, all of them
among those with property `P`. -/
structure Hale (s : Setup κ σ) (P : Nat → Prop) (n : Node κ σ) : Prop where
  held : n.holdings.Each (s.place.Within P)
  waiting : ∀ o ∈ n.backlog.waiting,
    s.verify o = .ok () ∧ s.place.Within P o.level.toNat o.multisig
  genuine : ∀ o ∈ n.genuine, s.place.Within P o.level.toNat o.multisig
  resolved : ∀ level card, n.backlog.resolved.get? level = some card → n.Secured level card
  rounds : Rounds s n
  phase_ne : n.phase ≠ .stopped

namespace Hale

theorem spoken (hale : Hale s P n) (h : Spoken s n n') (rounds : Rounds s n') : Hale s P n' where
  held := h.holdings_eq ▸ hale.held
  waiting := h.backlog_eq ▸ hale.waiting
  genuine := h.genuine_eq ▸ hale.genuine
  resolved := by
    rw [h.backlog_eq]
    exact fun level card hget => h.secured (hale.resolved level card hget)
  rounds := rounds
  phase_ne := h.phase_eq ▸ hale.phase_ne

/-- Whatever a node says outside its updates leaves their counters alone. -/
theorem aside (hale : Hale s P n) (h : Spoken s n n') (hrenewals : n'.renewals = n.renewals) :
    Hale s P n' := by
  apply hale.spoken h
  apply hale.rounds.mono hrenewals
  · intro level
    rw [h.holdings_eq]
  · exact h.mem_journal

/-- What a node has shown, and its timer, matter only as far as nothing is
forgotten. -/
theorem outward (hale : Hale s P n) (best : Option (Multisig σ)) (timer : LevelTimer)
    {journal : List (Action κ σ)} (hjournal : ∀ a ∈ n.journal, a ∈ journal) :
    Hale s P { n with best := best, timer := timer, journal := journal } :=
  ⟨hale.held, hale.waiting, hale.genuine, hale.resolved,
    hale.rounds.mono rfl (fun _ => Nat.le_refl _) hjournal, hale.phase_ne⟩

theorem concluding (hale : Hale s P n) (m : Multisig σ) : Hale s P (n.concluding s m) := by
  unfold Node.concluding
  split
  · exact hale
  · exact hale.outward (some m) n.timer fun a ha => List.mem_cons_of_mem _ ha

theorem covers_concluding (m : Multisig σ) (h : n.Covers level card) :
    (n.concluding s m).Covers level card := by
  unfold Node.concluding
  split
  · exact h
  · exact h

theorem taking (hale : Hale s P n) {o : Offer σ} {rest : List (Offer σ)}
    (h : n.genuine = o :: rest) : Hale s P (n.taking s o rest) := by
  have ho : o ∈ n.genuine := h ▸ List.mem_cons_self
  have hrest : ∀ o' ∈ rest, o' ∈ n.genuine := fun o' ho' => h ▸ List.mem_cons_of_mem _ ho'
  constructor
  · exact hale.held.add (s.place.joins_within P s.scheme) (hale.genuine o ho)
  · exact hale.waiting
  · exact fun o' ho' => hale.genuine o' (hrest o' ho')
  · exact fun level card hget => (hale.resolved level card hget).taking s h
  · exact hale.rounds.mono rfl
      (Holdings.count_le_count_add s.scheme n.holdings o.level.toNat o.multisig) fun a ha => ha
  · exact hale.phase_ne

theorem covers_taking {o : Offer σ} {rest : List (Offer σ)} (h : n.genuine = o :: rest)
    (hcovers : n.Covers level card) : (n.taking s o rest).Covers level card := by
  rcases hcovers with hsecured | hwaiting
  · exact .inl (hsecured.taking s h)
  · exact .inr hwaiting

/-- The offers that wait are all found genuine. -/
theorem not_forged (hale : Hale s P n) {b : Backlog σ} {verdict : Option (Verdict σ)}
    (passed : Backlog.Passed s.toVerifier s.evaluator n.holdings n.backlog b verdict)
    {o : Offer σ} {fault : Fault} : verdict ≠ some (.forged o fault) := by
  intro hforged
  obtain ⟨ho, herror⟩ := passed.forged o fault hforged
  rw [(hale.waiting o ho).1] at herror
  cases herror

theorem passed (hale : Hale s P n) {b : Backlog σ} {verdict : Option (Verdict σ)}
    (passed : Backlog.Passed s.toVerifier s.evaluator n.holdings n.backlog b verdict) :
    Hale s P (n.passed b verdict) := by
  have hwaiting : ∀ o ∈ b.waiting,
      s.verify o = .ok () ∧ s.place.Within P o.level.toNat o.multisig :=
    fun o ho => hale.waiting o (passed.subset o ho)
  have hrounds : Rounds s (n.passed b verdict) := hale.rounds.mono
    (by rcases verdict with _ | o | ⟨o, fault⟩ <;> rfl)
    (fun level => by rw [holdings_passed])
    (by rcases verdict with _ | o | ⟨o, fault⟩
        · exact fun a ha => ha
        · exact fun a ha => ha
        · exact fun a ha => List.mem_cons_of_mem _ ha)
  have hsecured : ∀ level card, (n.passed b verdict).backlog.resolved.get? level = some card →
      (n.passed b verdict).Secured level card :=
    fun level _ => secured_of_passed passed (hale.resolved level)
  rcases verdict with _ | o | ⟨o, fault⟩
  · exact ⟨hale.held, hwaiting, hale.genuine, hsecured, hrounds, hale.phase_ne⟩
  · obtain ⟨ho, -, -⟩ := passed.genuine o rfl
    refine ⟨hale.held, hwaiting, fun o' ho' => ?_, hsecured, hrounds, hale.phase_ne⟩
    rcases List.mem_append.1 ho' with ho' | ho'
    · exact hale.genuine o' ho'
    · rw [List.mem_singleton.1 ho']
      exact (hale.waiting o ho).2
  · exact absurd rfl (hale.not_forged passed)

theorem covers_passed (hale : Hale s P n) (fit : Fit s n) (hfair : s.evaluator.Fair)
    {b : Backlog σ} {verdict : Option (Verdict σ)}
    (passed : Backlog.Passed s.toVerifier s.evaluator n.holdings n.backlog b verdict)
    (h : n.Covers level card) : (n.passed b verdict).Covers level card := by
  rcases h with hsecured | ⟨o, ho, rfl, hcard⟩
  · exact .inl (hsecured.passed b verdict)
  · have hwaiting : (n.passed b verdict).backlog.waiting = b.waiting := by
      rcases verdict with _ | o | ⟨o, fault⟩ <;> rfl
    obtain ⟨⟨hle, w, hw, hlen⟩, hpos⟩ := fit.waiting o ho
    rcases passed.fate o ho with hstays | rfl | ⟨fault, hforged⟩ | hsettled | ⟨evaluations, hzero⟩
    · exact .inr ⟨o, hwaiting ▸ hstays, rfl, hcard⟩
    · exact .inl (.inr ⟨o, List.mem_append_right _ List.mem_cons_self, rfl, hcard⟩)
    · exact absurd hforged (hale.not_forged passed)
    · left
      apply Secured.passed
      unfold Backlog.isSettled at hsettled
      cases hget : n.backlog.resolved.get? o.level.toNat with
      | none =>
          rw [hget] at hsettled
          cases hsettled
      | some most =>
          rw [hget] at hsettled
          have hmost : s.place.sizeAt o.level.toNat ≤ most := of_decide_eq_true hsettled
          have hmask : o.multisig.card ≤ w.size := hlen ▸ o.multisig.mask.card_le_length
          rw [s.place.sizeAt_eq hw] at hmost
          exact (hale.resolved _ most hget).le (by omega)
    · left
      apply Secured.passed
      exact .inl (Nat.le_trans hcard (hfair evaluations n.holdings o hpos hzero))

theorem receive (hale : Hale s P n) (fit : Fit s n) (hexclusion : s.exclusion = .never)
    {packet : Packet} {o : Offer σ} (hread : s.read packet = .ok o) (hverify : s.verify o = .ok ())
    (hwithin : s.place.Within P o.level.toNat o.multisig) :
    Hale s P (n.receive s packet) ∧ (n.receive s packet).journal = n.journal ∧
      (n.receive s packet).Covers o.level.toNat o.multisig.card ∧
      ∀ level card, n.Covers level card → (n.receive s packet).Covers level card := by
  have hears : n.Hears s packet := by
    rw [Hears, hexclusion]
    rintro (hstopped | hexcluded)
    · exact hale.phase_ne hstopped
    · cases hexcluded
  have hwaiting : Backlog.waiting { n.backlog with queued := n.backlog.queued ++ [o] } =
      n.backlog.waiting ++ [o] := (List.append_assoc _ _ _).symm
  rw [receive_of_read hears fit.phase_eq hread]
  refine ⟨⟨hale.held, fun o' ho' => ?_, hale.genuine, hale.resolved,
    hale.rounds.mono rfl (fun _ => Nat.le_refl _) fun a ha => ha, hale.phase_ne⟩, rfl, ?_, ?_⟩
  · dsimp only at ho'
    rw [hwaiting] at ho'
    rcases List.mem_append.1 ho' with ho' | ho'
    · exact hale.waiting o' ho'
    · rw [List.mem_singleton.1 ho']
      exact ⟨hverify, hwithin⟩
  · right
    refine ⟨o, ?_, rfl, Nat.le_refl _⟩
    dsimp only
    rw [hwaiting]
    exact List.mem_append_right _ List.mem_cons_self
  · intro level card h
    rcases h with h | ⟨o', ho', hrest⟩
    · exact .inl h
    · right
      refine ⟨o', ?_, hrest⟩
      dsimp only
      rw [hwaiting]
      exact List.mem_append_left _ ho'

theorem begun (hale : Hale s P n) : Hale s P n.begun where
  held := hale.held
  waiting := n.backlog_begun.1 ▸ hale.waiting
  genuine := hale.genuine
  resolved := n.backlog_begun.2 ▸ hale.resolved
  rounds := hale.rounds.mono rfl (fun _ => Nat.le_refl _) fun _ => id
  phase_ne := nofun

theorem covers_begun (h : n.Covers level card) : n.begun.Covers level card := by
  rcases h with h | ⟨o, ho, hrest⟩
  · exact .inl h
  · exact .inr ⟨o, n.backlog_begun.1 ▸ ho, hrest⟩

/-- Whatever happens to a node between the packets it hears, it loses nothing
useful. -/
theorem step (hale : Hale s P n) (fit : Fit s n) (sound : s.Sound)
    (hsize : s.place.size ≤ 2 ^ 16) (hfair : s.evaluator.Fair) {e : Event} (hstop : e ≠ .stop)
    (hreceive : ∀ packet, e ≠ .receive packet) (h : n.step s e = .ok n') :
    Hale s P n' ∧ ∀ level card, n.Covers level card → n'.Covers level card := by
  cases fit.stepped_of_step sound h with
  | unstarted hphase => exact ⟨hale, fun _ _ h => h⟩
  | @started entered n₁ m hphase hadvance moved hm =>
      constructor
      · exact concluding (hale.begun.aside moved.toSpoken moved.renewals_eq) m
      · intro level card hcovers
        exact covers_concluding m (moved.covers (covers_begun hcovers))
  | received packet => exact absurd rfl (hreceive packet)
  | passed passed =>
      exact ⟨hale.passed passed, fun level card => hale.covers_passed fit hfair passed⟩
  | untaken hgenuine => exact ⟨hale, fun _ _ h => h⟩
  | @taken o rest n₁ m hgenuine hcheck moved hm =>
      constructor
      · exact concluding ((hale.taking hgenuine).aside moved.toSpoken moved.renewals_eq) m
      · intro level card hcovers
        exact covers_concluding m (moved.covers (covers_taking hgenuine hcovers))
  | renewed hrenew spoken fit' =>
      constructor
      · exact hale.spoken spoken (hale.rounds.renew sound hsize fit hrenew)
      · exact fun level card => spoken.covers
  | advanced hadvance moved =>
      constructor
      · exact hale.aside moved.toSpoken moved.renewals_eq
      · exact fun level card => moved.covers
  | unasked => exact ⟨hale, fun _ _ h => h⟩
  | @asked entered n₁ hadvance moved timer =>
      constructor
      · apply (hale.aside moved.toSpoken moved.renewals_eq).outward n₁.best timer
        exact fun a ha => ha
      · exact fun level card => moved.covers
  | stopped => exact absurd rfl hstop

end Hale

theorem hale_create (own : σ) (hleaf : P s.place.leaf) : Hale s P (create s own) where
  held level m hbest i hi := by
    rw [best?_create] at hbest
    split at hbest
    · rename_i hlevel
      cases hbest
      rw [← hlevel, s.place.startOf_eq s.place.peers_zero] at hi
      have hmarks : (⟨.ofList 1 [0], own⟩ : Multisig σ).marks s.place.leaf = [s.place.leaf] := rfl
      rw [hmarks, List.mem_singleton] at hi
      exact hi ▸ hleaf
    · cases hbest
  waiting := nofun
  genuine := nofun
  resolved := nofun
  rounds := rounds_create s own
  phase_ne := nofun

/-- A node at rest holds whatever it covers. -/
theorem Covers.le_count (h : n.Covers level card) (hrest : n.isAtRest = true) :
    card ≤ n.holdings.count level := by
  unfold isAtRest at hrest
  rw [Bool.and_eq_true, decide_eq_true_eq, List.isEmpty_iff, ← Backlog.length_waiting,
    List.length_eq_zero_iff] at hrest
  obtain ⟨hwaiting, hgenuine⟩ := hrest
  rcases h with (h | ⟨o, ho, -⟩) | ⟨o, ho, -⟩
  · exact h
  · rw [hgenuine] at ho
    cases ho
  · rw [hwaiting] at ho
    cases ho

end Node

end MultisigTree
