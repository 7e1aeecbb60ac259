import MultisigTree.Proofs.Backlogs
import MultisigTree.Proofs.Renewals

/-!
# The life of a node never crashes

A node is fit if it stands where it may stand, what it holds is tidy, whatever
waits or is genuine suits its level, and exactly the levels with all their
contributions are complete (`Node.Fit`). A new node is fit. What an event can
come to at a fit node is said once, with one lemma for each handler behind it
(`Node.Stepped`): there is no crash, and the node is fit afterwards. So no run
of a node crashes (`Node.exists_run`), and what no event breaks at a fit node is
kept by every run (`Node.Fit.run_keeps`).
-/
namespace MultisigTree

/-- Only a waiting node can be started, and a stopped one stays so. -/
def Phase.after (phase : Phase) : Event → Phase
  | .start => if phase = .waiting then .running else phase
  | .stop => .stopped
  | _ => phase

namespace Place

variable {σ : Type} (p : Place)

/-- An offer with a mask for the members of its level, some of them marked. -/
def Fits (o : Offer σ) : Prop :=
  p.Suits o.level.toNat o.multisig ∧ 0 < o.multisig.card

end Place

namespace Node

variable {κ σ : Type} {s : Setup κ σ} {n : Node κ σ}

/-- The node after it has looked whether `m`, all it holds, is to be
published. -/
def concluding (s : Setup κ σ) (n : Node κ σ) (m : Multisig σ) : Node κ σ :=
  if n.phase = .stopped ∨ m.card < s.threshold ∨ n.best.any (m.card ≤ ·.card) then n
  else { n with best := some m }.record (.publish m)

theorem checkFinal_eq {m : Multisig σ} (hm : n.holdings.whole s.scheme s.place = .ok (some m)) :
    n.checkFinal s = .ok (n.concluding s m) := by
  unfold checkFinal concluding
  by_cases hstopped : n.phase = .stopped
  · rw [if_pos hstopped, if_pos (.inl hstopped)]
  · simp only [hm, bind, Except.bind, hstopped, false_or]
    by_cases hcard : m.card < s.threshold
    · simp only [hcard, true_or, if_true]
      rfl
    · simp only [hcard, false_or, if_false]
      split <;> rfl

/-- A node publishes what is enough and has more contributions than what it
published last, unless it is stopped. -/
theorem concluding_cases (s : Setup κ σ) (n : Node κ σ) (m : Multisig σ) :
    (n.phase = .stopped ∨ m.card < s.threshold ∨ ∃ b, n.best = some b ∧ m.card ≤ b.card) ∧
        n.concluding s m = n ∨
      (n.phase ≠ .stopped ∧ s.threshold ≤ m.card ∧ ∀ b, n.best = some b → b.card < m.card) ∧
        n.concluding s m = { n with best := some m }.record (.publish m) := by
  by_cases hquiet : n.phase = .stopped ∨ m.card < s.threshold ∨
      n.best.any (m.card ≤ ·.card) = true
  · refine .inl ⟨hquiet.imp_right (Or.imp_right fun hany => ?_), if_pos hquiet⟩
    simpa only [Option.any_eq_true, decide_eq_true_eq] using hany
  · refine .inr ⟨?_, if_neg hquiet⟩
    rw [not_or, not_or] at hquiet
    obtain ⟨hphase, hcard, hbest⟩ := hquiet
    refine ⟨hphase, Nat.not_lt.1 hcard, fun b hb => ?_⟩
    rw [hb] at hbest
    simpa using hbest

theorem holdings_concluding (m : Multisig σ) : (n.concluding s m).holdings = n.holdings := by
  unfold concluding
  split <;> rfl

theorem phase_concluding (m : Multisig σ) : (n.concluding s m).phase = n.phase := by
  unfold concluding
  split <;> rfl

/-- A node that is stopped hears nobody, and no node hears those it excludes. -/
def Hears (s : Setup κ σ) (n : Node κ σ) (packet : Packet) : Prop :=
  ¬ (n.phase = .stopped ∨ s.exclusion n.reports packet.origin = true)

theorem receive_unheard {packet : Packet} (h : ¬ n.Hears s packet) : n.receive s packet = n :=
  if_pos (not_not.1 h)

theorem receive_of_fault {packet : Packet} (h : n.Hears s packet) {fault : Fault}
    (hread : s.read packet = .error fault) :
    n.receive s packet = n.record (.report packet.origin fault) := by
  rw [receive, if_neg h, hread]

theorem receive_of_read {packet : Packet} (h : n.Hears s packet)
    (hphase : n.backlog.phase = n.phase) {o : Offer σ} (hread : s.read packet = .ok o) :
    n.receive s packet =
      { n with backlog := { n.backlog with queued := n.backlog.queued ++ [o] } } := by
  have hadd : n.backlog.add o = { n.backlog with queued := n.backlog.queued ++ [o] } :=
    if_neg fun hstopped => h (.inl (hphase.symm.trans hstopped))
  rw [receive, if_neg h, hread, ← hadd]

/-- A packet is passed over, its sender reported, or its offer queued. -/
theorem receive_cases (s : Setup κ σ) (hphase : n.backlog.phase = n.phase) (packet : Packet) :
    n.receive s packet = n ∨
      (∃ fault, n.receive s packet = n.record (.report packet.origin fault)) ∨
      ∃ o, s.read packet = .ok o ∧ n.receive s packet =
        { n with backlog := { n.backlog with queued := n.backlog.queued ++ [o] } } := by
  by_cases hears : n.Hears s packet
  · cases hread : s.read packet with
    | error fault => exact .inr (.inl ⟨fault, receive_of_fault hears hread⟩)
    | ok o => exact .inr (.inr ⟨o, rfl, receive_of_read hears hphase hread⟩)
  · exact .inl (receive_unheard hears)

def begun (n : Node κ σ) : Node κ σ :=
  { n with phase := .running, backlog := n.backlog.start, timer := n.timer.start }

theorem start_eq (h : n.phase = .waiting) :
    n.start s = (n.begun.advance s).bind fun r => r.2.checkFinal s :=
  if_neg (not_not.2 h)

theorem backlog_begun (n : Node κ σ) : n.begun.backlog.waiting = n.backlog.waiting ∧
    n.begun.backlog.resolved = n.backlog.resolved := by
  unfold begun Backlog.start
  split <;> exact ⟨rfl, rfl⟩

def passed (n : Node κ σ) (b : Backlog σ) : Option (Verdict σ) → Node κ σ
  | some (.genuine o) => { n with backlog := b, genuine := n.genuine ++ [o] }
  | some (.forged o fault) => { n with backlog := b }.record (.report o.origin fault)
  | none => { n with backlog := b }

theorem pass_eq {b : Backlog σ} {done : Pass σ}
    (h : n.backlog.pass s.toVerifier s.evaluator n.holdings = .ok (b, done)) :
    n.pass s = .ok (n.passed b done.verdict) := by
  unfold Node.pass
  simp only [h, bind, Except.bind]
  rcases done.verdict with _ | o | ⟨o, fault⟩ <;> rfl

/-- The node with a genuine offer taken in, before it looks what has come of it. -/
def taking (s : Setup κ σ) (n : Node κ σ) (o : Offer σ) (rest : List (Offer σ)) : Node κ σ :=
  { n with genuine := rest, holdings := (n.holdings.add s.scheme o.level.toNat o.multisig).2 }

theorem takeIn_eq {o : Offer σ} {rest : List (Offer σ)} (h : n.genuine = o :: rest)
    (hphase : n.phase ≠ .stopped) :
    n.takeIn s = ((n.taking s o rest).checkCompleted s o.level.toNat).bind (checkFinal s) := by
  rw [takeIn, h]
  exact if_neg hphase

/-- The invariant of a node. -/
structure Fit (s : Setup κ σ) (n : Node κ σ) : Prop extends Standing s n where
  tidy : n.holdings.Tidy s.place
  waiting : ∀ o ∈ n.backlog.waiting, s.place.Fits o
  genuine : ∀ o ∈ n.genuine, s.place.Fits o ∧ s.verify o = .ok ()
  phase_eq : n.backlog.phase = n.phase
  idle : n.phase ≠ .running → n.genuine = []
  parked : Parked s n ∨ n.level = 0 ∧ n.phase ≠ .running
  mem_completed : ∀ level, level ∈ n.completed ↔
    level = 0 ∨ 0 < s.place.sizeAt level ∧ n.holdings.count level = s.place.sizeAt level

namespace Fit

/-- What a node has shown, and its timer, are no part of the invariant. -/
theorem outward (fit : Fit s n) (best : Option (Multisig σ)) (timer : LevelTimer)
    (journal : List (Action κ σ)) :
    Fit s { n with best := best, timer := timer, journal := journal } :=
  ⟨⟨fit.level_le, fit.mem_started, fit.contacts, fit.renewals⟩, fit.tidy, fit.waiting, fit.genuine,
    fit.phase_eq, fit.idle, fit.parked, fit.mem_completed⟩

theorem concluding (fit : Fit s n) (m : Multisig σ) : Fit s (n.concluding s m) := by
  unfold Node.concluding
  split
  · exact fit
  · exact fit.outward (some m) n.timer _

/-- Speaking keeps a node fit. -/
theorem spoken (fit : Fit s n) {n' : Node κ σ} (h : Spoken s n n') (standing : Standing s n')
    (hcompleted : n'.completed = n.completed)
    (hparked : Parked s n' ∨ n'.level = 0 ∧ n.phase ≠ .running) : Fit s n' where
  toStanding := standing
  tidy := h.holdings_eq ▸ fit.tidy
  waiting := h.backlog_eq ▸ fit.waiting
  genuine := h.genuine_eq ▸ fit.genuine
  phase_eq := by rw [h.backlog_eq, h.phase_eq, fit.phase_eq]
  idle := by
    rw [h.phase_eq, h.genuine_eq]
    exact fit.idle
  parked := h.phase_eq ▸ hparked
  mem_completed := by
    rw [hcompleted, h.holdings_eq]
    exact fit.mem_completed

end Fit

/-- The node has spoken, and perhaps moved up, and is fit. -/
structure Moved (s : Setup κ σ) (n n' : Node κ σ) : Prop extends Spoken s n n' where
  fit : Fit s n'
  renewals_eq : n'.renewals = n.renewals

namespace Fit

theorem advance (fit : Fit s n) (sound : s.Sound) :
    ∃ entered n', n.advance s = .ok (entered, n') ∧ Moved s n n' := by
  obtain ⟨entered, n', hadvance, spoken, standing, hcompleted, hrenewals, -, -, hparked⟩ :=
    advance_spec sound fit.tidy fit.toStanding
  by_cases hstopped : n.phase = .stopped
  · have heq : n' = n := by
      rw [Node.advance, if_pos hstopped, Except.ok.injEq] at hadvance
      exact (Prod.mk.inj hadvance).2.symm
    subst heq
    exact ⟨entered, n', hadvance, spoken, fit, rfl⟩
  · exact ⟨entered, n', hadvance, spoken,
      fit.spoken spoken standing hcompleted (.inl (hparked hstopped)), hrenewals⟩

theorem renew (fit : Fit s n) (sound : s.Sound) :
    ∃ n', n.renew s = .ok n' ∧ Spoken s n n' ∧ Fit s n' := by
  obtain ⟨n', hrenew, spoken, standing, hlevel, -, hcompleted, -⟩ :=
    renew_spec sound fit.tidy fit.toStanding
  refine ⟨n', hrenew, spoken, fit.spoken spoken standing hcompleted ?_⟩
  unfold Parked
  rw [hlevel, hcompleted]
  exact fit.parked

theorem begun (fit : Fit s n) (hwaiting : n.phase = .waiting) (sound : s.Sound) :
    ∃ entered n', n.begun.advance s = .ok (entered, n') ∧ Moved s n.begun n' := by
  have hbacklog : n.begun.backlog = { n.backlog with phase := .running } := by
    rw [Node.begun, Backlog.start, if_pos (fit.phase_eq.trans hwaiting)]
  obtain ⟨entered, n', hadvance, spoken, standing, hcompleted, hrenewals, -, -, hparked⟩ :=
    advance_spec (n := n.begun) sound fit.tidy
      ⟨fit.level_le, fit.mem_started, fit.contacts, fit.renewals⟩
  refine ⟨entered, n', hadvance, spoken, ⟨standing, ?_, ?_, ?_, ?_, ?_, ?_, ?_⟩, hrenewals⟩
  · exact spoken.holdings_eq ▸ fit.tidy
  · rw [spoken.backlog_eq, hbacklog]
    exact fit.waiting
  · rw [spoken.genuine_eq]
    exact fit.genuine
  · rw [spoken.backlog_eq, spoken.phase_eq, hbacklog]
    rfl
  · rw [spoken.phase_eq]
    exact fun h => absurd rfl h
  · exact .inl (hparked nofun)
  · rw [hcompleted, spoken.holdings_eq]
    exact fit.mem_completed

/-- Only a running node has genuine offers to take in. -/
theorem phase_of_genuine (fit : Fit s n) {o : Offer σ} {rest : List (Offer σ)}
    (h : n.genuine = o :: rest) : n.phase = .running := by
  by_contra hnot
  rw [fit.idle hnot] at h
  cases h

theorem tidy_taking (fit : Fit s n) {o : Offer σ} {rest : List (Offer σ)}
    (h : n.genuine = o :: rest) : (n.taking s o rest).holdings.Tidy s.place := by
  obtain ⟨⟨hsuits, hmarked⟩, -⟩ := fit.genuine o (h ▸ List.mem_cons_self)
  exact Holdings.Tidy.add fit.tidy s.scheme hsuits hmarked

theorem mem_completed_taking (fit : Fit s n) {o : Offer σ} {rest : List (Offer σ)}
    (h : n.genuine = o :: rest) {held : Multisig σ}
    (hheld : (n.taking s o rest).holdings.best? o.level.toNat = some held) (level : Nat) :
    level ∈ n.completed ∨ level = o.level.toNat ∧ s.place.sizeAt o.level.toNat ≤ held.card ↔
      level = 0 ∨ 0 < s.place.sizeAt level ∧
        (n.taking s o rest).holdings.count level = s.place.sizeAt level := by
  have hle := (fit.tidy_taking h).count_le level
  rw [fit.mem_completed]
  by_cases hhere : o.level.toNat = level
  · subst hhere
    have hmono : n.holdings.count o.level.toNat ≤ (n.taking s o rest).holdings.count _ :=
      Holdings.count_le_count_add s.scheme n.holdings o.level.toNat o.multisig o.level.toNat
    have hpos : 0 < s.place.sizeAt o.level.toNat := by
      obtain ⟨⟨⟨hmax, w, hw, -⟩, -⟩, -⟩ := fit.genuine o (h ▸ List.mem_cons_self)
      exact s.place.sizeAt_pos hmax hw
    rw [← Holdings.count_eq hheld]
    omega
  · have hother : (n.taking s o rest).holdings.count level = n.holdings.count level := by
      rw [Node.taking, Holdings.count, Holdings.best?_add_of_ne hhere, Holdings.count]
    rw [hother]
    omega

/-- A genuine offer taken in, its level looked at. -/
theorem taking (fit : Fit s n) {o : Offer σ} {rest : List (Offer σ)} (h : n.genuine = o :: rest)
    (sound : s.Sound) :
    ∃ n', (n.taking s o rest).checkCompleted s o.level.toNat = .ok n' ∧
      Moved s (n.taking s o rest) n' := by
  have hrunning := fit.phase_of_genuine h
  obtain ⟨⟨-, hmarked⟩, -⟩ := fit.genuine o (h ▸ List.mem_cons_self)
  obtain ⟨held, hheld⟩ := Holdings.exists_best?_add s.scheme n.holdings o.level.toNat hmarked
  obtain ⟨n', hcheck, spoken, standing, hrenewals, -, hcompleted, hparked⟩ :=
    checkCompleted_spec (n := n.taking s o rest) sound (fit.tidy_taking h)
      ⟨fit.level_le, fit.mem_started, fit.contacts, fit.renewals⟩ hheld
  refine ⟨n', hcheck, spoken, ⟨standing, ?_, ?_, ?_, ?_, ?_, ?_, ?_⟩, hrenewals⟩
  · exact spoken.holdings_eq ▸ fit.tidy_taking h
  · rw [spoken.backlog_eq]
    exact fit.waiting
  · rw [spoken.genuine_eq]
    exact fun o' ho' => fit.genuine o' (h ▸ List.mem_cons_of_mem _ ho')
  · rw [spoken.backlog_eq, spoken.phase_eq]
    exact fit.phase_eq
  · rw [spoken.phase_eq]
    exact fun hnot => absurd hrunning hnot
  · refine .inl (hparked (by rw [Node.taking, hrunning]; decide) ?_)
    exact fit.parked.resolve_right fun hnot => hnot.2 hrunning
  · intro level
    rw [hcompleted, spoken.holdings_eq]
    exact fit.mem_completed_taking h hheld level

theorem passed (fit : Fit s n) {b : Backlog σ} {verdict : Option (Verdict σ)}
    (passed : Backlog.Passed s.toVerifier s.evaluator n.holdings n.backlog b verdict) :
    Fit s (n.passed b verdict) := by
  have hwaiting : ∀ o ∈ b.waiting, s.place.Fits o := fun o ho => fit.waiting o (passed.subset o ho)
  have hphase := passed.phase_eq.trans fit.phase_eq
  have hfit : Fit s { n with backlog := b } := ⟨⟨fit.level_le, fit.mem_started, fit.contacts,
    fit.renewals⟩, fit.tidy, hwaiting, fit.genuine, hphase, fit.idle, fit.parked,
    fit.mem_completed⟩
  rcases verdict with _ | o | ⟨o, fault⟩
  · exact hfit
  · obtain ⟨ho, hok, -⟩ := passed.genuine o rfl
    have hrunning : n.phase = .running := by
      by_contra hnot
      cases passed.idle (fit.phase_eq ▸ hnot)
    refine ⟨⟨fit.level_le, fit.mem_started, fit.contacts, fit.renewals⟩, fit.tidy, hwaiting,
      fun o' ho' => ?_, hphase, fun hnot => absurd hrunning hnot, fit.parked, fit.mem_completed⟩
    rcases List.mem_append.1 ho' with ho' | ho'
    · exact fit.genuine o' ho'
    · rw [List.mem_singleton] at ho'
      exact ho' ▸ ⟨fit.waiting o ho, hok⟩
  · exact hfit.outward n.best n.timer _

theorem receive (fit : Fit s n) (packet : Packet) : Fit s (n.receive s packet) := by
  rcases receive_cases s fit.phase_eq packet with h | ⟨fault, h⟩ | ⟨o, hread, h⟩
  · rw [h]
    exact fit
  · rw [h]
    exact fit.outward n.best n.timer _
  · rw [h]
    refine ⟨⟨fit.level_le, fit.mem_started, fit.contacts, fit.renewals⟩, fit.tidy,
      fun o' ho' => ?_, fit.genuine, fit.phase_eq, fit.idle, fit.parked, fit.mem_completed⟩
    simp only [Backlog.waiting, ← List.append_assoc] at ho'
    rcases List.mem_append.1 ho' with ho' | ho'
    · exact fit.waiting o' ho'
    · rw [List.mem_singleton] at ho'
      exact ho' ▸ Setup.suits_of_read hread

theorem stop (fit : Fit s n) : Fit s n.stop := by
  unfold Node.stop
  split
  · exact fit
  · refine ⟨⟨fit.level_le, fit.mem_started, fit.contacts, fit.renewals⟩, fit.tidy, nofun, nofun,
      rfl, fun _ => rfl, ?_, fit.mem_completed⟩
    exact fit.parked.imp id fun h => ⟨h.1, nofun⟩

end Fit

/-- What an event comes to at a fit node, with a case for each way it can go. -/
inductive Stepped (s : Setup κ σ) (n : Node κ σ) : Event → Node κ σ → Prop
  | unstarted (hphase : n.phase ≠ .waiting) : Stepped s n .start n
  | started {entered : Bool} {n₁ : Node κ σ} {m : Multisig σ} (hphase : n.phase = .waiting)
      (hadvance : n.begun.advance s = .ok (entered, n₁)) (moved : Moved s n.begun n₁)
      (hm : n₁.holdings.whole s.scheme s.place = .ok (some m)) :
      Stepped s n .start (n₁.concluding s m)
  | received (packet : Packet) : Stepped s n (.receive packet) (n.receive s packet)
  | passed {b : Backlog σ} {verdict : Option (Verdict σ)}
      (passed : Backlog.Passed s.toVerifier s.evaluator n.holdings n.backlog b verdict) :
      Stepped s n .pass (n.passed b verdict)
  | untaken (hgenuine : n.genuine = []) : Stepped s n .takeIn n
  | taken {o : Offer σ} {rest : List (Offer σ)} {n₁ : Node κ σ} {m : Multisig σ}
      (hgenuine : n.genuine = o :: rest)
      (hcheck : (n.taking s o rest).checkCompleted s o.level.toNat = .ok n₁)
      (moved : Moved s (n.taking s o rest) n₁)
      (hm : n₁.holdings.whole s.scheme s.place = .ok (some m)) :
      Stepped s n .takeIn (n₁.concluding s m)
  | renewed {n' : Node κ σ} (hrenew : n.renew s = .ok n') (spoken : Spoken s n n')
      (fit : Fit s n') : Stepped s n .renew n'
  | advanced {entered : Bool} {n' : Node κ σ} (hadvance : n.advance s = .ok (entered, n'))
      (moved : Moved s n n') : Stepped s n .nextLevel n'
  | unasked : Stepped s n .timeout n
  | asked {entered : Bool} {n₁ : Node κ σ} (hadvance : n.advance s = .ok (entered, n₁))
      (moved : Moved s n n₁) (timer : LevelTimer) : Stepped s n .timeout { n₁ with timer := timer }
  | stopped : Stepped s n .stop n.stop

/-- Every event takes a fit node to a fit one. -/
theorem Stepped.fit {e : Event} {n' : Node κ σ} (h : Stepped s n e n') (fit : Fit s n) :
    Fit s n' := by
  cases h with
  | unstarted hphase => exact fit
  | started hphase hadvance moved hm => exact moved.fit.concluding _
  | received packet => exact fit.receive packet
  | passed passed => exact fit.passed passed
  | untaken hgenuine => exact fit
  | taken hgenuine hcheck moved hm => exact moved.fit.concluding _
  | renewed hrenew spoken fit' => exact fit'
  | advanced hadvance moved => exact moved.fit
  | unasked => exact fit
  | @asked entered n₁ hadvance moved timer => exact moved.fit.outward n₁.best timer n₁.journal
  | stopped => exact fit.stop

namespace Fit

theorem start (fit : Fit s n) (sound : s.Sound) : ∃ n', n.start s = .ok n' ∧
    Stepped s n .start n' := by
  by_cases hwaiting : n.phase = .waiting
  · obtain ⟨entered, n₁, hadvance, moved⟩ := fit.begun hwaiting sound
    obtain ⟨m, hm, -⟩ := Holdings.whole_eq moved.fit.tidy s.scheme sound.size_le_limit
    refine ⟨_, ?_, .started hwaiting hadvance moved hm⟩
    rw [start_eq hwaiting, hadvance]
    exact checkFinal_eq hm
  · exact ⟨n, if_pos hwaiting, .unstarted hwaiting⟩

theorem takeIn (fit : Fit s n) (sound : s.Sound) : ∃ n', n.takeIn s = .ok n' ∧
    Stepped s n .takeIn n' := by
  cases hgenuine : n.genuine with
  | nil => exact ⟨n, by rw [Node.takeIn, hgenuine], .untaken hgenuine⟩
  | cons o rest =>
      obtain ⟨n₁, hcheck, moved⟩ := fit.taking hgenuine sound
      obtain ⟨m, hm, -⟩ := Holdings.whole_eq moved.fit.tidy s.scheme sound.size_le_limit
      refine ⟨_, ?_, .taken hgenuine hcheck moved hm⟩
      have hrunning : n.phase ≠ .stopped := by
        rw [fit.phase_of_genuine hgenuine]
        decide
      rw [takeIn_eq hgenuine hrunning, hcheck]
      exact checkFinal_eq hm

theorem stepped (fit : Fit s n) (sound : s.Sound) (e : Event) :
    ∃ n', n.step s e = .ok n' ∧ Stepped s n e n' := by
  cases e with
  | start => exact fit.start sound
  | receive packet => exact ⟨_, rfl, .received packet⟩
  | pass =>
      obtain ⟨b, done, hpass, passed⟩ :=
        Backlog.pass_spec s.toVerifier s.evaluator n.holdings n.backlog
      exact ⟨_, pass_eq hpass, .passed passed⟩
  | takeIn => exact fit.takeIn sound
  | renew =>
      obtain ⟨n', hrenew, spoken, fit'⟩ := fit.renew sound
      exact ⟨n', hrenew, .renewed hrenew spoken fit'⟩
  | nextLevel =>
      obtain ⟨entered, n', hadvance, moved⟩ := fit.advance sound
      exact ⟨n', by rw [Node.step, hadvance]; rfl, .advanced hadvance moved⟩
  | timeout =>
      by_cases harmed : n.timer.isArmed = true
      · obtain ⟨entered, n₁, hadvance, moved⟩ := fit.advance sound
        refine ⟨_, ?_, .asked hadvance moved (n₁.timer.asked entered)⟩
        rw [Node.step, Node.timeout, if_pos harmed, hadvance]
        rfl
      · refine ⟨n, ?_, .unasked⟩
        rw [Node.step, Node.timeout, if_neg harmed]
        rfl
  | stop => exact ⟨_, rfl, .stopped⟩

theorem stepped_of_step (fit : Fit s n) (sound : s.Sound) {e : Event} {n' : Node κ σ}
    (h : n.step s e = .ok n') : Stepped s n e n' := by
  obtain ⟨n₁, hstep, stepped⟩ := fit.stepped sound e
  exact Except.ok.inj (hstep.symm.trans h) ▸ stepped

theorem step (fit : Fit s n) (sound : s.Sound) (e : Event) :
    ∃ n', n.step s e = .ok n' ∧ Fit s n' := by
  obtain ⟨n', hstep, stepped⟩ := fit.stepped sound e
  exact ⟨n', hstep, stepped.fit fit⟩

theorem run (fit : Fit s n) (sound : s.Sound) (events : List Event) :
    ∃ n', Node.run s events n = .ok n' ∧ Fit s n' := by
  induction events generalizing n with
  | nil => exact ⟨n, rfl, fit⟩
  | cons e rest ih =>
      obtain ⟨n₁, hstep, fit₁⟩ := fit.step sound e
      obtain ⟨n', hrun, fit'⟩ := ih fit₁
      refine ⟨n', ?_, fit'⟩
      rw [Node.run, hstep]
      exact hrun

/-- What none of the events breaks at a fit node is kept by a run of them. -/
theorem run_keeps (fit : Fit s n) (sound : s.Sound) {P : Node κ σ → Prop} {events : List Event}
    (keeps : ∀ e ∈ events, ∀ {n n' : Node κ σ}, Fit s n → n.step s e = .ok n' → P n → P n')
    {n' : Node κ σ} (h : Node.run s events n = .ok n') (hn : P n) : P n' := by
  induction events generalizing n with
  | nil => exact Except.ok.inj h ▸ hn
  | cons e rest ih =>
      obtain ⟨n₁, hstep, fit₁⟩ := fit.step sound e
      rw [Node.run, hstep] at h
      refine ih fit₁ (fun e he => keeps e (List.mem_cons_of_mem _ he)) h ?_
      exact keeps e List.mem_cons_self fit hstep hn

end Fit

/-- What an event does before the node looks for something to publish: at most
one genuine offer is taken in, and nothing is said but what is held then and
whom to blame. -/
structure Worked (s : Setup κ σ) (n n' : Node κ σ) : Prop where
  fit : Fit s n'
  best_eq : n'.best = n.best
  holdings : n'.holdings = n.holdings ∨ ∃ o ∈ n.genuine,
    n'.holdings = (n.holdings.add s.scheme o.level.toNat o.multisig).2
  journal : ∃ new, n'.journal = new ++ n.journal ∧
    ∀ a ∈ new, s.Informs n'.holdings a ∨ ∃ id fault, a = .report id fault

theorem Worked.of_spoken {n₀ n' : Node κ σ} (h : Spoken s n₀ n') (fit : Fit s n')
    (hbest : n₀.best = n.best) (hjournal : n₀.journal = n.journal)
    (hholdings : n₀.holdings = n.holdings ∨ ∃ o ∈ n.genuine,
      n₀.holdings = (n.holdings.add s.scheme o.level.toNat o.multisig).2) : Worked s n n' where
  fit := fit
  best_eq := h.best_eq.trans hbest
  holdings := h.holdings_eq ▸ hholdings
  journal := by
    obtain ⟨sends, hsends, hinforms⟩ := h.journal_eq
    exact ⟨sends, hjournal ▸ hsends, fun a ha => .inl (h.holdings_eq ▸ hinforms a ha)⟩

theorem holdings_receive (packet : Packet) : (n.receive s packet).holdings = n.holdings := by
  unfold Node.receive
  split
  · rfl
  · split <;> rfl

theorem phase_receive (packet : Packet) : (n.receive s packet).phase = n.phase := by
  unfold Node.receive
  split
  · rfl
  · split <;> rfl

theorem holdings_stop : n.stop.holdings = n.holdings := by
  unfold Node.stop
  split <;> rfl

theorem journal_stop : n.stop.journal = n.journal := by
  unfold Node.stop
  split <;> rfl

theorem phase_stop : n.stop.phase = .stopped := by
  unfold Node.stop
  split
  · assumption
  · rfl

theorem holdings_passed (b : Backlog σ) (verdict : Option (Verdict σ)) :
    (n.passed b verdict).holdings = n.holdings := by
  rcases verdict with _ | o | ⟨o, fault⟩ <;> rfl

theorem phase_passed (b : Backlog σ) (verdict : Option (Verdict σ)) :
    (n.passed b verdict).phase = n.phase := by
  rcases verdict with _ | o | ⟨o, fault⟩ <;> rfl

namespace Worked

theorem refl (fit : Fit s n) : Worked s n n :=
  .of_spoken (.refl s n) fit rfl rfl (.inl rfl)

theorem receive (fit : Fit s n) (packet : Packet) : Worked s n (n.receive s packet) := by
  have hreceive := fit.receive packet
  rcases receive_cases s fit.phase_eq packet with h | ⟨fault, h⟩ | ⟨o, -, h⟩
  · rw [h]
    exact refl fit
  · rw [h] at hreceive ⊢
    refine ⟨hreceive, rfl, .inl rfl, [_], rfl, fun a ha => .inr ?_⟩
    exact ⟨_, _, List.mem_singleton.1 ha⟩
  · rw [h] at hreceive ⊢
    exact ⟨hreceive, rfl, .inl rfl, [], rfl, nofun⟩

theorem passed {b : Backlog σ} {verdict : Option (Verdict σ)} (fit : Fit s (n.passed b verdict)) :
    Worked s n (n.passed b verdict) := by
  rcases verdict with _ | o | ⟨o, fault⟩
  · exact ⟨fit, rfl, .inl rfl, [], rfl, nofun⟩
  · exact ⟨fit, rfl, .inl rfl, [], rfl, nofun⟩
  · refine ⟨fit, rfl, .inl rfl, [_], rfl, fun a ha => .inr ?_⟩
    exact ⟨_, _, List.mem_singleton.1 ha⟩

theorem stop (fit : Fit s n) : Worked s n n.stop := by
  have hstop := fit.stop
  unfold Node.stop at hstop ⊢
  split
  · exact refl fit
  · rename_i hrunning
    rw [if_neg hrunning] at hstop
    exact ⟨hstop, rfl, .inl rfl, [], rfl, nofun⟩

end Worked

/-- Only work that leaves the holdings alone is not followed by a look for
something to publish, and no node starts to run without one. -/
theorem Fit.step_cases (fit : Fit s n) (sound : s.Sound) {e : Event} {n' : Node κ σ}
    (h : n.step s e = .ok n') :
    ∃ n₁, Worked s n n₁ ∧ n₁.phase = n.phase.after e ∧
      (n₁.holdings = n.holdings ∧ (n₁.phase = .running → n.phase = .running) ∧ n' = n₁ ∨
        ∃ m, n₁.holdings.whole s.scheme s.place = .ok (some m) ∧ n₁.phase = .running ∧
          n' = n₁.concluding s m) := by
  cases fit.stepped_of_step sound h with
  | unstarted hphase => exact ⟨n, .refl fit, (if_neg hphase).symm, .inl ⟨rfl, id, rfl⟩⟩
  | @started entered n₁ m hphase hadvance moved hm =>
      exact ⟨n₁, .of_spoken moved.toSpoken moved.fit rfl rfl (.inl rfl),
        moved.phase_eq.trans (if_pos hphase).symm, .inr ⟨m, hm, moved.phase_eq, rfl⟩⟩
  | received packet =>
      have hphase : (n.receive s packet).phase = n.phase := phase_receive packet
      exact ⟨_, .receive fit packet, hphase, .inl ⟨holdings_receive packet, hphase.symm.trans, rfl⟩⟩
  | @passed b verdict passed =>
      have hphase : (n.passed b verdict).phase = n.phase := phase_passed b verdict
      exact ⟨_, .passed (fit.passed passed), hphase,
        .inl ⟨holdings_passed b verdict, hphase.symm.trans, rfl⟩⟩
  | untaken hgenuine => exact ⟨n, .refl fit, rfl, .inl ⟨rfl, id, rfl⟩⟩
  | @taken o rest n₁ m hgenuine hcheck moved hm =>
      have ho : o ∈ n.genuine := hgenuine ▸ List.mem_cons_self
      exact ⟨n₁, .of_spoken moved.toSpoken moved.fit rfl rfl (.inr ⟨o, ho, rfl⟩), moved.phase_eq,
        .inr ⟨m, hm, moved.phase_eq.trans (fit.phase_of_genuine hgenuine), rfl⟩⟩
  | renewed hrenew spoken fit' =>
      exact ⟨n', .of_spoken spoken fit' rfl rfl (.inl rfl), spoken.phase_eq,
        .inl ⟨spoken.holdings_eq, spoken.phase_eq.symm.trans, rfl⟩⟩
  | advanced hadvance moved =>
      exact ⟨n', .of_spoken moved.toSpoken moved.fit rfl rfl (.inl rfl), moved.phase_eq,
        .inl ⟨moved.holdings_eq, moved.phase_eq.symm.trans, rfl⟩⟩
  | unasked => exact ⟨n, .refl fit, rfl, .inl ⟨rfl, id, rfl⟩⟩
  | @asked entered n₁ hadvance moved timer =>
      obtain ⟨-, hbest, hholdings, hjournal⟩ :=
        Worked.of_spoken (n := n) moved.toSpoken moved.fit rfl rfl (.inl rfl)
      exact ⟨_, ⟨moved.fit.outward n₁.best timer n₁.journal, hbest, hholdings, hjournal⟩,
        moved.phase_eq, .inl ⟨moved.holdings_eq, moved.phase_eq.symm.trans, rfl⟩⟩
  | stopped =>
      refine ⟨_, .stop fit, phase_stop, .inl ⟨holdings_stop, fun hrunning => ?_, rfl⟩⟩
      rw [phase_stop] at hrunning
      cases hrunning

theorem Fit.phase_step (fit : Fit s n) (sound : s.Sound) {e : Event} {n' : Node κ σ}
    (h : n.step s e = .ok n') : n'.phase = n.phase.after e := by
  obtain ⟨n₁, -, hphase, ⟨-, -, rfl⟩ | ⟨m, -, -, rfl⟩⟩ := fit.step_cases sound h
  · exact hphase
  · exact (phase_concluding m).trans hphase

theorem Fit.phase_run (fit : Fit s n) (sound : s.Sound) {events : List Event} {n' : Node κ σ}
    (h : Node.run s events n = .ok n') : n'.phase = events.foldl Phase.after n.phase := by
  induction events generalizing n with
  | nil => exact congrArg Node.phase (Except.ok.inj h).symm
  | cons e rest ih =>
      obtain ⟨n₁, hstep, fit₁⟩ := fit.step sound e
      rw [Node.run, hstep] at h
      rw [List.foldl_cons, ← fit.phase_step sound hstep]
      exact ih fit₁ h

/-- What a new node holds: its own signature. -/
theorem best?_create (s : Setup κ σ) (own : σ) (level : Nat) :
    (create s own).holdings.best? level =
      if 0 = level then some ⟨.ofList 1 [0], own⟩ else none := by
  have hadd : (Holdings.empty.add s.scheme 0 (⟨.ofList 1 [0], own⟩ : Multisig σ)).2 =
      ⟨LevelMap.empty.insert 0 ⟨.ofList 1 [0], own⟩⟩ := rfl
  rw [create, hadd]
  exact LevelMap.get?_insert LevelMap.empty 0 level _

theorem fit_create (s : Setup κ σ) (own : σ) : Fit s (create s own) where
  level_le := Nat.zero_le _
  mem_started level := by
    simp only [create, List.not_mem_nil, false_iff]
    omega
  contacts := Contacts.Sound.empty
  renewals := nofun
  tidy := by
    refine ⟨fun level m hbest => ?_, fun level m hbest => ?_, _, best?_create s own 0⟩
    · rw [best?_create] at hbest
      split at hbest
      · rename_i hlevel
        cases hbest
        subst hlevel
        exact ⟨Nat.zero_le _, _, s.place.peers_zero,
          by simp [Multisig.length, Mask.ofList, Span.size]⟩
      · cases hbest
    · rw [best?_create] at hbest
      split at hbest
      · cases hbest
        exact Nat.one_pos
      · cases hbest
  waiting := nofun
  genuine := nofun
  phase_eq := rfl
  idle _ := rfl
  parked := .inr ⟨rfl, nofun⟩
  mem_completed level := by
    have hcompleted : (create s own).completed = [0] := rfl
    rw [hcompleted, List.mem_singleton]
    refine ⟨.inl, ?_⟩
    rintro (h | ⟨hpos, hcount⟩)
    · exact h
    · by_contra hlevel
      rw [← hcount, Holdings.count, best?_create, if_neg (Ne.symm hlevel)] at hpos
      exact absurd hpos (Nat.lt_irrefl 0)

end Node

end MultisigTree
