import MultisigTree.Proofs.Attendance

/-!
# Screening is not seen from outside

An evaluator screens the offers that wait: those it finds of no use are not
verified. Two nodes that differ in their evaluators verify different offers, count
different ones as settled and report different members. But whatever one of them
lets go would have added nothing to what it holds, so all else about them stays the
same (`Node.Resting.attend_outline`): what they send and publish, the levels they
go through and what they hold (`Node.screening_is_invisible`).
-/
namespace MultisigTree

variable {κ σ : Type}

/-- The same setup with another evaluator. -/
def Setup.judging (s : Setup κ σ) (evaluator : Evaluator σ) : Setup κ σ :=
  { s with evaluator := evaluator }

theorem Setup.create_judging {scheme : Scheme κ σ} {roster : Roster κ} {id : Int32}
    {message : List UInt8} {settings : Settings} {order : ContactOrder} {evaluator : Evaluator σ}
    {exclusion : Exclusion} {pace : Pace} {s : Setup κ σ}
    (h : create scheme roster id message settings order evaluator exclusion pace = .ok s)
    (evaluator' : Evaluator σ) :
    create scheme roster id message settings order evaluator' exclusion pace =
      .ok (s.judging evaluator') := by
  obtain ⟨hvalid, hmember, place, threshold, hplace, hthreshold, rfl⟩ := create_eq_ok_iff.1 h
  exact create_eq_ok_iff.2 ⟨hvalid, hmember, place, threshold, hplace, hthreshold, rfl⟩

/-- What others see: packets and published signatures, but no reports. -/
def Action.isShown : Action κ σ → Bool
  | .send .. | .publish _ => true
  | .report .. => false

/-- Once a node has been started it does not wait again. -/
theorem Phase.after_ne_waiting {phase : Phase} {e : Event} (h : phase ≠ .waiting ∨ e = .start) :
    phase.after e ≠ .waiting := by
  cases phase <;> cases e <;> simp_all [Phase.after]

namespace Node

variable {s : Setup κ σ} {n n' : Node κ σ}

def shown (n : Node κ σ) : List (Action κ σ) :=
  n.journal.filter (·.isShown)

/-- A node but for its reports and for what its backlog has come to. -/
def outline (n : Node κ σ) : Node κ σ :=
  { n with backlog := ⟨n.phase, [], [], .empty, []⟩, journal := n.shown }

theorem outline_snd {α : Type} {x x' : Except Crash (α × Node κ σ)}
    (h : x.map (fun r => (r.1, r.2.outline)) = x') :
    (x.map (·.2)).map outline = x'.map (·.2) := by
  subst h
  cases x with
  | error crash => rfl
  | ok r => rfl

section
variable (s : Setup κ σ) (evaluator : Evaluator σ) (n : Node κ σ)

theorem outline_sendTo (level : Nat) (m : Multisig σ) (receivers : List (Member κ)) :
    (n.sendTo (s.judging evaluator) level m receivers).outline =
      n.outline.sendTo s level m receivers := by
  unfold sendTo
  rw [show (s.judging evaluator).scheme = s.scheme from rfl]
  cases m.encode s.scheme with
  | ok payload => rfl
  | error fault => rfl

theorem outline_approach (level : Nat) :
    (n.approach (s.judging evaluator) level).map outline = n.outline.approach s level := by
  unfold approach
  refine Crash.map_bind_same fun r => ?_
  obtain ⟨receivers?, contacts⟩ := r
  cases receivers? with
  | none => rfl
  | some receivers =>
      refine Crash.map_bind_same fun m? => ?_
      cases m? with
      | none => rfl
      | some m => exact congrArg Except.ok (outline_sendTo s evaluator _ level m receivers)

theorem outline_climb (steps : Nat) (entered : Bool) :
    (climb (s.judging evaluator) steps entered n).map (fun r => (r.1, r.2.outline)) =
      climb s steps entered n.outline := by
  induction steps generalizing entered n with
  | zero => rfl
  | succ steps ih =>
      rw [climb, climb]
      refine Crash.map_ite (ih _ entered) ?_
      refine Crash.map_bind (outline_approach s evaluator _ _) fun n₁ => ?_
      exact Crash.map_ite (ih n₁ true) rfl

theorem outline_advance :
    (n.advance (s.judging evaluator)).map (fun r => (r.1, r.2.outline)) = n.outline.advance s := by
  unfold advance
  exact Crash.map_ite rfl (outline_climb s evaluator n _ false)

theorem outline_approachAll (levels : List Nat) :
    (approachAll (s.judging evaluator) levels n).map outline = approachAll s levels n.outline := by
  induction levels generalizing n with
  | nil => rfl
  | cons level levels ih => exact Crash.map_bind (outline_approach s evaluator n level) ih

theorem outline_checkCompleted (level : Nat) :
    (n.checkCompleted (s.judging evaluator) level).map outline =
      n.outline.checkCompleted s level := by
  unfold checkCompleted
  refine Crash.map_ite rfl ?_
  rw [show n.outline.holdings = n.holdings from rfl]
  cases n.holdings.best? level with
  | none => rfl
  | some held =>
      refine Crash.map_ite rfl ?_
      refine Crash.map_bind (outline_approachAll s evaluator _ _) fun n₁ => ?_
      refine Crash.map_ite ?_ rfl
      exact Crash.map_bind (outline_advance s evaluator n₁) fun _ => rfl

theorem outline_checkFinal :
    (n.checkFinal (s.judging evaluator)).map outline = n.outline.checkFinal s := by
  unfold checkFinal
  refine Crash.map_ite rfl ?_
  refine Crash.map_bind_same fun m? => ?_
  cases m? with
  | none => rfl
  | some m => exact Crash.map_ite rfl (Crash.map_ite rfl rfl)

theorem outline_takeIn : (n.takeIn (s.judging evaluator)).map outline = n.outline.takeIn s := by
  unfold takeIn
  rw [show n.outline.genuine = n.genuine from rfl]
  cases n.genuine with
  | nil => rfl
  | cons o rest =>
      refine Crash.map_ite rfl ?_
      refine Crash.map_bind (outline_checkCompleted s evaluator _ _) fun n₁ => ?_
      exact outline_checkFinal s evaluator n₁

theorem outline_renewLevel (level : Nat) :
    (n.renewLevel (s.judging evaluator) level).map outline = n.outline.renewLevel s level := by
  unfold renewLevel
  rw [show (s.judging evaluator).place.membersAt (s.judging evaluator).roster level =
    s.place.membersAt s.roster level from rfl]
  cases s.place.membersAt s.roster level with
  | error fault => rfl
  | ok members =>
      refine Crash.map_bind_same fun m? => ?_
      cases m? with
      | none => rfl
      | some m =>
          refine Crash.map_ite rfl ?_
          refine Crash.map_bind_same fun receivers => ?_
          refine Crash.map_bind_same fun reach => ?_
          refine Crash.map_bind_same fun next => ?_
          refine Crash.map_bind_same fun sent => ?_
          exact congrArg Except.ok (outline_sendTo s evaluator _ level m receivers)

theorem outline_renewAll (levels : List Nat) :
    (renewAll (s.judging evaluator) levels n).map outline = renewAll s levels n.outline := by
  induction levels generalizing n with
  | nil => rfl
  | cons level levels ih => exact Crash.map_bind (outline_renewLevel s evaluator n level) ih

theorem outline_renew : (n.renew (s.judging evaluator)).map outline = n.outline.renew s := by
  unfold renew
  exact Crash.map_ite (outline_renewAll s evaluator n _) rfl

theorem outline_timeout :
    (n.timeout (s.judging evaluator)).map (fun r => (r.1, r.2.outline)) = n.outline.timeout s := by
  unfold timeout
  refine Crash.map_ite ?_ rfl
  exact Crash.map_bind (outline_advance s evaluator n) fun _ => rfl

theorem outline_start : (n.start (s.judging evaluator)).map outline = n.outline.start s := by
  unfold start
  rw [show n.outline.phase = n.phase from rfl]
  by_cases hwaiting : n.phase ≠ .waiting
  · rw [if_pos hwaiting, if_pos hwaiting]
    rfl
  · -- an outline has the backlog that comes of its phase, also once it has been started
    have hbacklog : n.outline.backlog.start = ⟨.running, [], [], .empty, []⟩ :=
      if_pos (Decidable.not_not.1 hwaiting)
    rw [if_neg hwaiting, if_neg hwaiting, hbacklog]
    refine Crash.map_bind (outline_advance s evaluator _) fun r => ?_
    exact outline_checkFinal s evaluator r.2

theorem outline_stop : n.stop.outline = n.outline.stop := by
  unfold stop
  rw [show n.outline.phase = n.phase from rfl]
  split
  · rfl
  · rfl

/-- Whatever happens to a node but for packets and passes shows in its outline. -/
theorem outline_step {e : Event} (hpass : e ≠ .pass) (hquiet : ∀ packet, e ≠ .receive packet) :
    (n.step (s.judging evaluator) e).map outline = n.outline.step s e := by
  cases e with
  | start => exact outline_start s evaluator n
  | receive packet => exact absurd rfl (hquiet packet)
  | pass => exact absurd rfl hpass
  | takeIn => exact outline_takeIn s evaluator n
  | renew => exact outline_renew s evaluator n
  | nextLevel => exact outline_snd (outline_advance s evaluator n)
  | timeout => exact outline_snd (outline_timeout s evaluator n)
  | stop => exact congrArg Except.ok (outline_stop n)

end

/-- What an event does to a node without a backlog: of a packet that it hears,
the offer is taken in at once if it is welcome. -/
def heed (s : Setup κ σ) (n : Node κ σ) : Event → Except Crash (Node κ σ)
  | .receive packet =>
      match if n.phase = .running then s.welcome n.holdings packet else none with
      | some o => ({ n with genuine := [o] } : Node κ σ).takeIn s
      | none => .ok n
  | .pass => .ok n
  | e => n.step s e

variable {evaluator evaluator' : Evaluator σ}

theorem heed_eq_step {e : Event} (hpass : e ≠ .pass) (hquiet : ∀ packet, e ≠ .receive packet) :
    n.heed s e = n.step s e := by
  cases e with
  | receive packet => exact absurd rfl (hquiet packet)
  | pass => exact absurd rfl hpass
  | _ => rfl

/-- Reports do not show. -/
theorem outline_reported (n : Node κ σ) (b : Backlog σ) (reports : Reports) :
    outline { n with
      backlog := b
      journal := reports.map (fun r => .report r.1 r.2) ++ n.journal } = n.outline := by
  have hnone : (reports.map fun r => (.report r.1 r.2 : Action κ σ)).filter (·.isShown) = [] := by
    refine List.filter_eq_nil_iff.2 fun a ha => ?_
    obtain ⟨r, -, rfl⟩ := List.mem_map.1 ha
    exact Bool.false_ne_true
  unfold outline shown
  rw [List.filter_append, hnone]
  rfl

/-- A node at rest that hears a packet does what its outline does with no backlog. -/
theorem Resting.receive_outline (resting : Resting (s.judging evaluator) n)
    (sound : (s.judging evaluator).Sound) (careful : evaluator.Careful)
    (hnever : s.exclusion = .never) (hphase : n.phase ≠ .waiting) (packet : Packet) :
    ∃ n', n.attend (s.judging evaluator) (.receive packet) = .ok n' ∧
      Resting (s.judging evaluator) n' ∧ n'.phase ≠ .waiting ∧
      n.outline.heed s (.receive packet) = .ok n'.outline := by
  cases hcase : n.phase with
  | waiting => exact absurd hcase hphase
  | stopped =>
      have hstep : n.step (s.judging evaluator) (.receive packet) = .ok n := by
        rw [Node.step, Node.receive, if_pos (.inl hcase)]
      have hidle : ¬ n.outline.phase = .running := by
        change ¬ n.phase = .running
        rw [hcase]
        decide
      refine ⟨n, resting.attend_of_step hstep, resting, hphase, ?_⟩
      rw [heed, if_neg hidle]
  | running =>
      obtain ⟨n', hattend, resting', hphase', hweighed⟩ :=
        resting.hear sound careful hnever hcase packet
      refine ⟨n', hattend, resting', by rw [hphase']; decide, ?_⟩
      rw [heed, if_pos (show n.outline.phase = .running from hcase)]
      change Weighed _ n (s.welcome n.outline.holdings packet) n' at hweighed
      cases hwelcome : s.welcome n.outline.holdings packet with
      | none =>
          rw [hwelcome] at hweighed
          cases hweighed with
          | dropped b reports => rw [outline_reported]
      | some o =>
          rw [hwelcome] at hweighed
          cases hweighed with
          | taken _ b _ htake =>
              have htaken := outline_takeIn s evaluator { n with backlog := b, genuine := [o] }
              rw [htake] at htaken
              exact htaken.symm

/-- Whatever its evaluator lets go, a node at rest does what its outline does
without a backlog. -/
theorem Resting.attend_outline (resting : Resting (s.judging evaluator) n) (sound : s.Sound)
    (careful : evaluator.Careful) (hnever : s.exclusion = .never) {e : Event}
    (hphase : n.phase ≠ .waiting ∨ e = .start) :
    ∃ n', n.attend (s.judging evaluator) e = .ok n' ∧ Resting (s.judging evaluator) n' ∧
      n'.phase ≠ .waiting ∧ n.outline.heed s e = .ok n'.outline := by
  have sound' : (s.judging evaluator).Sound :=
    ⟨sound.toPlaced, sound.leaf_eq, sound.candidates_lt⟩
  by_cases hreceive : ∃ packet, e = .receive packet
  · obtain ⟨packet, rfl⟩ := hreceive
    exact resting.receive_outline sound' careful hnever (hphase.resolve_right (by simp)) packet
  by_cases hpass : e = .pass
  · subst hpass
    have hstep : n.step (s.judging evaluator) .pass = .ok n :=
      pass_of_nothing resting.waiting_eq
    exact ⟨n, resting.attend_of_step hstep, resting, hphase.resolve_right (by simp), rfl⟩
  · have hquiet : ∀ packet, e ≠ .receive packet := not_exists.1 hreceive
    obtain ⟨n', hstep, -⟩ := resting.toFit.step sound' e
    have resting' := resting.step sound' hstep hquiet
    refine ⟨n', resting'.attend_of_step hstep, resting', ?_, ?_⟩
    · rw [resting.toFit.phase_step sound' hstep]
      exact Phase.after_ne_waiting hphase
    · rw [heed_eq_step hpass hquiet, ← outline_step s evaluator n hpass hquiet, hstep]
      rfl

def rests (s : Setup κ σ) : List Event → Node κ σ → Except Crash (List (Node κ σ))
  | [], _ => return []
  | e :: rest, n => do
      let n ← n.attend s e
      return n :: (← rests s rest n)

theorem rests_cons {e : Event} {rest : List Event} {nodes : List (Node κ σ)}
    (hattend : n.attend s e = .ok n') (hrest : rests s rest n' = .ok nodes) :
    rests s (e :: rest) n = .ok (n' :: nodes) := by
  simp only [rests, hattend, hrest, bind, Except.bind]
  rfl

/-- Nodes of one outline have one outline after each event, whatever their
evaluators let go. -/
theorem Resting.rests_outline {m : Node κ σ} (resting : Resting (s.judging evaluator) n)
    (resting' : Resting (s.judging evaluator') m) (sound : s.Sound) (careful : evaluator.Careful)
    (careful' : evaluator'.Careful) (hnever : s.exclusion = .never) {events : List Event}
    (hphase : n.phase ≠ .waiting ∨ ∃ later, events = .start :: later)
    (houtline : n.outline = m.outline) :
    ∃ nodes nodes', rests (s.judging evaluator) events n = .ok nodes ∧
      rests (s.judging evaluator') events m = .ok nodes' ∧
      nodes.map outline = nodes'.map outline := by
  induction events generalizing n m with
  | nil => exact ⟨[], [], rfl, rfl, rfl⟩
  | cons e rest ih =>
      have hfirst : n.phase ≠ .waiting ∨ e = .start :=
        hphase.imp id fun ⟨later, hlater⟩ => (List.cons.inj hlater).1
      have hsame : n.outline.phase = m.outline.phase := by rw [houtline]
      change n.phase = m.phase at hsame
      obtain ⟨n₁, hattend, resting₁, hphase₁, hheed⟩ :=
        resting.attend_outline sound careful hnever hfirst
      obtain ⟨m₁, hattend', resting₁', -, hheed'⟩ :=
        resting'.attend_outline sound careful' hnever (hsame ▸ hfirst)
      rw [houtline, hheed'] at hheed
      have houtline₁ := (Except.ok.inj hheed).symm
      obtain ⟨nodes, nodes', hrests, hrests', hnodes⟩ :=
        ih resting₁ resting₁' (.inl hphase₁) houtline₁
      refine ⟨n₁ :: nodes, m₁ :: nodes', rests_cons hattend hrests, rests_cons hattend' hrests', ?_⟩
      rw [List.map_cons, List.map_cons, houtline₁, hnodes]

/-- Over a dense roster, with valid settings and nobody excluded, it does not show
whether a node verifies only the offers that add something to what it holds, or
all it gets. From its start, after each event that it has attended to, it has sent
and published the same, is on the same level and holds the same. -/
theorem screening_is_invisible {roster : Roster κ} (hdense : roster.Dense) {settings : Settings}
    (hvalid : settings.validate = .ok ()) (hword : settings.candidates < Word.limit) {id : Int32}
    (hid : 0 ≤ id.toInt ∧ id.toInt.toNat < roster.size) (scheme : Scheme κ σ)
    (message : List UInt8) (order : ContactOrder) (pace : Pace) (own : σ) (events : List Event) :
    ∃ s s' nodes nodes',
      Setup.create scheme roster id message settings order .byGain .never pace = .ok s ∧
      Setup.create scheme roster id message settings order .acceptAll .never pace = .ok s' ∧
      rests s (.start :: events) (create s own) = .ok nodes ∧
      rests s' (.start :: events) (create s' own) = .ok nodes' ∧
      List.Forall₂ (fun n n' => n.shown = n'.shown ∧ n.level = n'.level ∧ n.holdings = n'.holdings)
        nodes nodes' := by
  obtain ⟨s, hs⟩ := Setup.exists_create hdense hvalid hid scheme message order .byGain .never pace
  obtain ⟨-, -, -, -, -, hevaluator, hnever, -⟩ := Setup.eq_of_create hs
  have sound := Setup.sound_of_create hdense hword hs
  obtain ⟨nodes, nodes', hrests, hrests', hnodes⟩ :=
    (resting_create (s.judging .byGain) own).rests_outline
      (resting_create (s.judging .acceptAll) own) sound Evaluator.careful_byGain
      Evaluator.careful_acceptAll hnever (.inr ⟨events, rfl⟩) rfl
  have hsame : s.judging .byGain = s := by
    rw [← hevaluator]
    rfl
  rw [hsame] at hrests
  refine ⟨s, s.judging .acceptAll, nodes, nodes', hs, Setup.create_judging hs .acceptAll, hrests,
    hrests', ?_⟩
  rw [← List.forall₂_eq_eq_eq, List.forall₂_map_left_iff, List.forall₂_map_right_iff] at hnodes
  refine hnodes.imp fun n n' houtline => ?_
  have hshown : n.outline.journal = n'.outline.journal := by rw [houtline]
  have hlevel : n.outline.level = n'.outline.level := by rw [houtline]
  have hholdings : n.outline.holdings = n'.outline.holdings := by rw [houtline]
  exact ⟨hshown, hlevel, hholdings⟩

/-- The second of four members hears from the third, and then once more with a
forged signature. Only the node that verifies all it gets reports that. -/
theorem screening_is_invisible_of_four :
    (Plain.roster 4).Dense ∧ ({ quorumPercent := 60 } : Settings).validate = .ok () ∧
      10 < Word.limit ∧ (0 ≤ Int32.toInt 1 ∧ (Int32.toInt 1).toNat < (Plain.roster 4).size) ∧
      ∃ s s' nodes nodes',
        Setup.create Plain.scheme (Plain.roster 4) 1 [7] { quorumPercent := 60 } .ascending .byGain
          .never .ticking = .ok s ∧
        Setup.create Plain.scheme (Plain.roster 4) 1 [7] { quorumPercent := 60 } .ascending
          .acceptAll .never .ticking = .ok s' ∧
        rests s [.start, .receive ⟨2, 2, [0, 3, 0, 2, 12, 1, 0, 0, 0, 2]⟩,
          .receive ⟨2, 2, [0, 3, 0, 2, 12, 0, 0, 0, 0, 2]⟩, .nextLevel, .renew]
          (create s (Plain.sign 1)) = .ok nodes ∧
        rests s' [.start, .receive ⟨2, 2, [0, 3, 0, 2, 12, 1, 0, 0, 0, 2]⟩,
          .receive ⟨2, 2, [0, 3, 0, 2, 12, 0, 0, 0, 0, 2]⟩, .nextLevel, .renew]
          (create s' (Plain.sign 1)) = .ok nodes' ∧
        List.Forall₂ (fun n n' => n.shown = n'.shown ∧ n.level = n'.level ∧
          n.holdings = n'.holdings) nodes nodes' ∧
        nodes.map (·.reports) = [[], [], [], [], []] ∧
        nodes'.map (·.reports) = [[], [], [(2, .scheme .invalidSignature)],
          [(2, .scheme .invalidSignature)], [(2, .scheme .invalidSignature)]] := by
  have hsize : (Plain.roster 4).size = 4 := Plain.size_roster 4
  have hid : 0 ≤ Int32.toInt 1 ∧ (Int32.toInt 1).toNat < (Plain.roster 4).size := by
    rw [hsize]
    decide
  have hvalid : ({ quorumPercent := 60 } : Settings).validate = .ok () := by decide
  obtain ⟨s, s', nodes, nodes', hs, hs', hrests, hrests', hsame⟩ :=
    screening_is_invisible (Plain.dense_roster 4) hvalid (by decide) hid Plain.scheme [7] .ascending
      .ticking (Plain.sign 1) [.receive ⟨2, 2, [0, 3, 0, 2, 12, 1, 0, 0, 0, 2]⟩,
        .receive ⟨2, 2, [0, 3, 0, 2, 12, 0, 0, 0, 0, 2]⟩, .nextLevel, .renew]
  refine ⟨Plain.dense_roster 4, hvalid, by decide, hid, s, s', nodes, nodes', hs, hs', hrests,
    hrests', hsame, ?_, ?_⟩
  · have hreports : ((Setup.create Plain.scheme (Plain.roster 4) 1 [7] { quorumPercent := 60 }
        .ascending .byGain .never .ticking).toOption.bind fun s => (rests s [.start,
          .receive ⟨2, 2, [0, 3, 0, 2, 12, 1, 0, 0, 0, 2]⟩,
          .receive ⟨2, 2, [0, 3, 0, 2, 12, 0, 0, 0, 0, 2]⟩, .nextLevel, .renew]
          (create s (Plain.sign 1))).toOption.map fun nodes => nodes.map (·.reports)) =
        some [[], [], [], [], []] := by
      decide +kernel
    simpa [hs, hrests, Except.toOption] using hreports
  · have hreports : ((Setup.create Plain.scheme (Plain.roster 4) 1 [7] { quorumPercent := 60 }
        .ascending .acceptAll .never .ticking).toOption.bind fun s => (rests s [.start,
          .receive ⟨2, 2, [0, 3, 0, 2, 12, 1, 0, 0, 0, 2]⟩,
          .receive ⟨2, 2, [0, 3, 0, 2, 12, 0, 0, 0, 0, 2]⟩, .nextLevel, .renew]
          (create s (Plain.sign 1))).toOption.map fun nodes => nodes.map (·.reports)) =
        some [[], [], [(2, .scheme .invalidSignature)], [(2, .scheme .invalidSignature)],
          [(2, .scheme .invalidSignature)]] := by
      decide +kernel
    simpa [hs', hrests', Except.toOption] using hreports

end Node
end MultisigTree
