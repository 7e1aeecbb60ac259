import MultisigTree.Proofs.Ledgers

/-!
# Why an offer waits no longer

Every entry of a ledger is justified by what happened before it
(`Backlog.Account`). So nothing that is added gets lost or comes out twice, only
what was verified is published or reported, and nothing is verified once the
backlog has stopped (`Backlog.every_offer_is_accounted_for`).
-/
namespace MultisigTree.Backlog

variable {κ σ : Type} {v : Verifier κ σ} {evaluator : Evaluator σ} {holdings : Holdings σ}
variable {b b' : Backlog σ} {event : Event σ} {events later : List (Event σ)}
variable {done : Pass σ} {entries ledger ledger' : List (Entry σ)}

/-- Why an offer no longer waits, after a run with these events and evaluations;
`earlier` are the entries made before. -/
def Justified (v : Verifier κ σ) (evaluator : Evaluator σ) (events : List (Event σ))
    (evaluations : List (Evaluation σ)) (earlier : List (Entry σ)) (e : Entry σ) : Prop :=
  match e.fate with
  | .published => v.verify e.offer = .ok ()
  | .reported id fault => id = e.offer.origin ∧ v.verify e.offer = .error (.refused fault)
  | .useless => ∃ before holdings, .pass holdings ∈ events ∧
      evaluator before holdings e.offer = 0 ∧ ⟨e.offer, 0⟩ :: before <:+ evaluations
  | .settled => ∃ g ∈ earlier, g.fate = .published ∧ g.offer.level = e.offer.level ∧
      v.place.sizeAt e.offer.level.toNat ≤ g.offer.multisig.card
  | .discarded => .stop ∈ events

theorem Justified.mono {evaluations evaluations' : List (Evaluation σ)}
    {earlier earlier' : List (Entry σ)} {e : Entry σ} {events' : List (Event σ)}
    (h : Justified v evaluator events evaluations earlier e) (hevents : events ⊆ events')
    (hevaluations : evaluations <:+ evaluations') (hearlier : earlier ⊆ earlier') :
    Justified v evaluator events' evaluations' earlier' e := by
  obtain ⟨o, fate⟩ := e
  cases fate with
  | published => exact h
  | reported id fault => exact h
  | useless =>
      obtain ⟨before, holdings, hmem, hscore, hsuffix⟩ := h
      exact ⟨before, holdings, hevents hmem, hscore, hsuffix.trans hevaluations⟩
  | settled =>
      obtain ⟨g, hg, hgenuine⟩ := h
      exact ⟨g, hearlier hg, hgenuine⟩
  | discarded => exact hevents h

/-- What the ledger of a run says is so. -/
structure Account (v : Verifier κ σ) (evaluator : Evaluator σ) (events : List (Event σ))
    (b : Backlog σ) (ledger : List (Entry σ)) : Prop where
  justified : ∀ earlier e later, ledger = earlier ++ e :: later →
    Justified v evaluator events b.evaluations earlier e
  counted : ∀ level card, b.resolved.get? level = some card →
    ∃ g ∈ ledger, g.fate = .published ∧ g.offer.level.toNat = level ∧
      g.offer.multisig.card = card
  stopped : b.phase = .stopped → .stop ∈ events ∧ b.waiting = []

theorem account_empty : Account v evaluator [] .empty [] where
  justified earlier e later h := by simp at h
  counted level card h := by cases h
  stopped h := by cases h

theorem Account.settled (account : Account v evaluator events b ledger) {o : Offer σ}
    (h : isSettled v.place b.resolved o.level.toNat = true) :
    Justified v evaluator events b.evaluations ledger ⟨o, .settled⟩ := by
  unfold isSettled at h
  split at h
  · rename_i card hget
    obtain ⟨g, hg, hpublished, hlevel, hcard⟩ := account.counted _ card hget
    exact ⟨g, hg, hpublished, UInt8.toNat_inj.1 hlevel, hcard ▸ of_decide_eq_true h⟩
  · cases h

/-- The entries of a pass are justified by the ledger before it. -/
theorem Account.entries_pass (account : Account v evaluator events b ledger)
    (h : b.pass v evaluator holdings = .ok (b', done)) {e : Entry σ} (he : e ∈ done.entries) :
    Justified v evaluator (events ++ [.pass holdings]) b'.evaluations ledger e := by
  have haccounted := accounted_of_pass h
  rcases List.mem_append.1 he with he | he
  · rcases List.mem_append.1 he with he | he
    · obtain ⟨o, ho, rfl⟩ := List.mem_map.1 he
      obtain ⟨before, hscore, hsuffix⟩ := haccounted.useless o ho
      exact ⟨before, holdings, List.mem_append_right _ (List.mem_singleton.2 rfl), hscore, hsuffix⟩
    · obtain ⟨o, ho, rfl⟩ := List.mem_map.1 he
      exact (account.settled (haccounted.settled o ho)).mono (List.subset_append_left _ _)
        haccounted.suffix (List.Subset.refl _)
  · obtain ⟨verdict, hverdict, rfl⟩ := List.mem_map.1 he
    rw [Option.mem_toList] at hverdict
    cases verdict with
    | genuine o => exact (haccounted.genuine o hverdict).1
    | forged o fault => exact ⟨rfl, (haccounted.forged o fault hverdict).1⟩

theorem Account.entries_step (account : Account v evaluator events b ledger)
    (h : b.step v evaluator event = .ok (b', entries)) {e : Entry σ} (he : e ∈ entries) :
    Justified v evaluator (events ++ [event]) b'.evaluations ledger e := by
  cases event with
  | pass holdings =>
      obtain ⟨done, hpass, heq⟩ := pass_of_step_pass h
      exact account.entries_pass hpass (heq ▸ he)
  | add o =>
      cases h
      split at he
      · rename_i hstopped
        obtain rfl := List.mem_singleton.1 he
        exact List.mem_append_left _ (account.stopped hstopped).1
      · cases he
  | start =>
      cases h
      cases he
  | stop =>
      cases h
      obtain ⟨o, -, rfl⟩ := List.mem_map.1 he
      exact List.mem_append_right _ (List.mem_singleton.2 rfl)

theorem Account.counted_step (account : Account v evaluator events b ledger)
    (h : b.step v evaluator event = .ok (b', entries)) {level card : Nat}
    (hget : b'.resolved.get? level = some card) :
    ∃ g ∈ ledger ++ entries, g.fate = .published ∧ g.offer.level.toNat = level ∧
      g.offer.multisig.card = card := by
  have hbefore : b.resolved.get? level = some card →
      ∃ g ∈ ledger ++ entries, g.fate = .published ∧ g.offer.level.toNat = level ∧
        g.offer.multisig.card = card := by
    intro hold
    obtain ⟨g, hg, hpublished⟩ := account.counted level card hold
    exact ⟨g, List.mem_append_left _ hg, hpublished⟩
  rcases resolved_step h with hsame | ⟨o, ho, hresolve⟩
  · exact hbefore (hsame ▸ hget)
  · rw [hresolve] at hget
    rcases counted_of_resolve hget with ⟨hlevel, hcard⟩ | hold
    · exact ⟨⟨o, .published⟩, List.mem_append_right _ ho, rfl, hlevel, hcard⟩
    · exact hbefore hold

theorem Account.stopped_step (account : Account v evaluator events b ledger)
    (h : b.step v evaluator event = .ok (b', entries)) (hstopped : b'.phase = .stopped) :
    .stop ∈ events ++ [event] ∧ b'.waiting = [] := by
  rw [phase_step h] at hstopped
  have hkept : b.phase = .stopped → .stop ∈ events ++ [event] ∧ b'.waiting = [] := by
    intro hphase
    obtain ⟨hstop, hwaiting⟩ := account.stopped hphase
    rw [(step_stopped hphase hwaiting h).1]
    exact ⟨List.mem_append_left _ hstop, hwaiting⟩
  cases event with
  | pass holdings => exact hkept hstopped
  | add o => exact hkept hstopped
  | start =>
      dsimp only at hstopped
      split at hstopped
      · cases hstopped
      · exact hkept hstopped
  | stop =>
      cases h
      exact ⟨List.mem_append_right _ (List.mem_singleton.2 rfl), rfl⟩

theorem Account.step (account : Account v evaluator events b ledger)
    (h : b.step v evaluator event = .ok (b', entries)) :
    Account v evaluator (events ++ [event]) b' (ledger ++ entries) where
  justified earlier e later heq := by
    -- The entry is one of the event, with the whole ledger before it, or an old one.
    rcases List.append_eq_append_iff.1 heq with ⟨new, hearlier, hentries⟩ | ⟨old, hledger, hlater⟩
    · have he : e ∈ entries := hentries ▸ List.mem_append_right _ List.mem_cons_self
      refine (account.entries_step h he).mono (List.Subset.refl _) (List.suffix_refl _) ?_
      rw [hearlier]
      exact List.subset_append_left _ _
    · cases old with
      | nil =>
          have he : e ∈ entries := by
            rw [← List.nil_append entries, ← hlater]
            exact List.mem_cons_self
          refine (account.entries_step h he).mono (List.Subset.refl _) (List.suffix_refl _) ?_
          rw [hledger, List.append_nil]
          exact List.Subset.refl _
      | cons e' rest =>
          cases hlater
          exact (account.justified earlier e rest hledger).mono (List.subset_append_left _ _)
            (evaluations_step h) (List.Subset.refl _)
  counted level card hget := account.counted_step h hget
  stopped hstopped := account.stopped_step h hstopped

theorem Account.run (account : Account v evaluator events b ledger)
    (h : run v evaluator later b = .ok (b', ledger')) :
    Account v evaluator (events ++ later) b' (ledger ++ ledger') := by
  induction later generalizing events b ledger ledger' with
  | nil =>
      cases h
      rwa [List.append_nil, List.append_nil]
  | cons event rest ih =>
      obtain ⟨b₁, entries, ledger₁, hstep, hrest, heq⟩ := run_cons_iff.1 h
      have hrun := ih (account.step hstep) hrest
      rw [heq]
      simpa only [List.append_assoc, List.singleton_append] using hrun

/-- A run of a new backlog leaves its ledger justified. -/
theorem account_of_run (h : Backlog.run v evaluator events .empty = .ok (b, ledger)) :
    Account v evaluator events b ledger :=
  account_empty.run h

/-- Whatever is added to a new backlog either waits or has one entry in the
ledger, and every entry is justified. A pass over offers that wait leaves fewer
of them; as many passes as offers wait leave none and verify no more than these.
Once the backlog has stopped it stays as it is, and whatever is added then is
discarded. -/
theorem every_offer_is_accounted_for (v : Verifier κ σ) (evaluator : Evaluator σ)
    (events : List (Event σ)) :
    ∃ b ledger, run v evaluator events .empty = .ok (b, ledger) ∧
      (b.waiting ++ ledger.map (·.offer)).Perm (added events) ∧
      (∀ earlier e later, ledger = earlier ++ e :: later →
        Justified v evaluator events b.evaluations earlier e) ∧
      (.start ∈ events → .stop ∉ events →
        (∀ holdings, 0 < b.load → ∃ b' done, b.pass v evaluator holdings = .ok (b', done) ∧
          b'.load < b.load) ∧
        ∀ burst : List (Holdings σ), b.load ≤ burst.length →
          ∃ b' entries,
            run v evaluator (events ++ burst.map .pass) .empty = .ok (b', ledger ++ entries) ∧
            b'.load = 0 ∧ entries.countP (·.isVerified) ≤ b.load) ∧
      (.stop ∈ events → ∀ later, ∃ entries,
        run v evaluator (events ++ later) .empty = .ok (b, ledger ++ entries) ∧ b.load = 0 ∧
          ∀ e ∈ entries, e.fate = .discarded) := by
  obtain ⟨b, ledger, hrun⟩ := exists_ledger v evaluator events .empty
  have account := account_of_run hrun
  refine ⟨b, ledger, hrun, perm_run hrun, account.justified, fun hstart hstop => ?_,
    fun hstop later => ?_⟩
  · have hrunning : b.phase = .running := (running_of_run hrun).2 ⟨hstart, hstop⟩
    refine ⟨fun holdings hload => ?_, fun burst hload => ?_⟩
    · obtain ⟨b', done, hpass⟩ := exists_pass v evaluator holdings b
      exact ⟨b', done, hpass, load_pass hpass hrunning hload⟩
    · obtain ⟨b', entries, hburst⟩ := exists_ledger v evaluator (burst.map .pass) b
      exact ⟨b', entries, run_append hrun hburst, load_passes hrunning hload hburst,
        verified_passes hburst⟩
  · have hstopped : b.phase = .stopped := (stopped_of_run hrun).2 (.inr hstop)
    have hwaiting := (account.stopped hstopped).2
    obtain ⟨b', entries, hlater⟩ := exists_ledger v evaluator later b
    obtain ⟨hsame, hdiscarded⟩ := run_stopped hstopped hwaiting hlater
    refine ⟨entries, hsame ▸ run_append hrun hlater, ?_, hdiscarded⟩
    rw [← length_waiting, hwaiting]
    rfl

/-- Four offers wait at the first of two members: one of a sender it ignores, a
forged one, and the signature of the other member twice. Four passes settle
them; if it stops after the first of these, what still waits is discarded, and so
is what is added later. -/
theorem every_offer_is_accounted_for_of_four :
    ∃ (v : Verifier IdSet Plain.Signature) (ignored forged genuine : Offer Plain.Signature)
      (b b' c : Backlog Plain.Signature),
      v = ⟨Plain.scheme, Plain.pair, ⟨2, 0, by decide⟩, [7]⟩ ∧
      ignored = ⟨9, 1, ⟨.ofList 1 [0], Plain.sign 1⟩⟩ ∧
      forged = ⟨1, 1, ⟨.ofList 1 [0], ⟨.singleton 1, false⟩⟩⟩ ∧
      genuine = ⟨1, 1, ⟨.ofList 1 [0], Plain.sign 1⟩⟩ ∧
      run v (.byOrigin [(9, 0)] 1)
          [.add ignored, .add forged, .add genuine, .add genuine, .start] .empty = .ok (b, []) ∧
      (∃ b₁ done, b.pass v (.byOrigin [(9, 0)] 1) .empty = .ok (b₁, done) ∧ b₁.load < b.load) ∧
      run v (.byOrigin [(9, 0)] 1)
          ([.add ignored, .add forged, .add genuine, .add genuine, .start] ++
            [.pass .empty, .pass .empty, .pass .empty, .pass .empty]) .empty =
        .ok (b', [⟨ignored, .useless⟩, ⟨forged, .reported 1 (.scheme .invalidSignature)⟩,
          ⟨genuine, .published⟩, ⟨genuine, .settled⟩]) ∧ b'.load = 0 ∧
      run v (.byOrigin [(9, 0)] 1)
          ([.add ignored, .add forged, .add genuine, .add genuine, .start, .pass .empty, .stop] ++
            [.add forged, .pass .empty]) .empty =
        .ok (c, [⟨ignored, .useless⟩, ⟨forged, .reported 1 (.scheme .invalidSignature)⟩,
          ⟨genuine, .discarded⟩, ⟨genuine, .discarded⟩, ⟨forged, .discarded⟩]) ∧
      c.load = 0 := by
  obtain ⟨v, hv⟩ : ∃ v : Verifier IdSet Plain.Signature,
      v = ⟨Plain.scheme, Plain.pair, ⟨2, 0, by decide⟩, [7]⟩ := ⟨_, rfl⟩
  obtain ⟨ignored, hignored⟩ : ∃ o : Offer Plain.Signature,
      o = ⟨9, 1, ⟨.ofList 1 [0], Plain.sign 1⟩⟩ := ⟨_, rfl⟩
  obtain ⟨forged, hforged⟩ : ∃ o : Offer Plain.Signature,
      o = ⟨1, 1, ⟨.ofList 1 [0], ⟨.singleton 1, false⟩⟩⟩ := ⟨_, rfl⟩
  obtain ⟨genuine, hgenuine⟩ : ∃ o : Offer Plain.Signature,
      o = ⟨1, 1, ⟨.ofList 1 [0], Plain.sign 1⟩⟩ := ⟨_, rfl⟩
  obtain ⟨b, ledger, hrun, -, -, hruns, -⟩ := every_offer_is_accounted_for v
    (.byOrigin [(9, 0)] 1) [.add ignored, .add forged, .add genuine, .add genuine, .start]
  obtain ⟨c, stopped, hstop, -, -, -, hstops⟩ := every_offer_is_accounted_for v
    (.byOrigin [(9, 0)] 1)
    [.add ignored, .add forged, .add genuine, .add genuine, .start, .pass .empty, .stop]
  obtain ⟨hpass, hburst⟩ := hruns (by simp) (by simp)
  have hwaits : b.load = 4 ∧ ledger = [] := by
    cases hrun
    exact ⟨rfl, rfl⟩
  obtain ⟨hload, rfl⟩ := hwaits
  obtain ⟨b', entries, hsettled, hnone, -⟩ :=
    hburst [.empty, .empty, .empty, .empty] (Nat.le_of_eq hload)
  obtain ⟨discarded, hlater, hempty, -⟩ :=
    hstops (by simp) [.add forged, .pass .empty]
  have hentries : (run v (.byOrigin [(9, 0)] 1)
      ([.add ignored, .add forged, .add genuine, .add genuine, .start] ++
        [.pass .empty, .pass .empty, .pass .empty, .pass .empty]) .empty).toOption.map (·.2) =
      some [⟨ignored, .useless⟩, ⟨forged, .reported 1 (.scheme .invalidSignature)⟩,
        ⟨genuine, .published⟩, ⟨genuine, .settled⟩] := by
    rw [hv, hignored, hforged, hgenuine]
    decide
  have hdiscarded : (run v (.byOrigin [(9, 0)] 1)
      ([.add ignored, .add forged, .add genuine, .add genuine, .start, .pass .empty, .stop] ++
        [.add forged, .pass .empty]) .empty).toOption.map (·.2) =
      some [⟨ignored, .useless⟩, ⟨forged, .reported 1 (.scheme .invalidSignature)⟩,
        ⟨genuine, .discarded⟩, ⟨genuine, .discarded⟩, ⟨forged, .discarded⟩] := by
    rw [hv, hignored, hforged, hgenuine]
    decide
  simp only [List.map_cons, List.map_nil] at hsettled
  simp only [hsettled, Except.toOption, Option.map_some, Option.some.injEq] at hentries
  simp only [hlater, Except.toOption, Option.map_some, Option.some.injEq] at hdiscarded
  rw [hentries] at hsettled
  rw [hdiscarded] at hlater
  exact ⟨v, ignored, forged, genuine, b, b', c, hv, hignored, hforged, hgenuine, hrun,
    hpass .empty (by omega), hsettled, hnone, hlater, hempty⟩

end MultisigTree.Backlog
