import MultisigTree.Proofs.Ledgers
import MultisigTree.Proofs.Preliminaries

/-!
# Offers in the order of their rank

As long as the scores of the offers that wait do not change, passes verify them
in the order of their rank: by score, then by level, then by arrival. Each pass
looks at all of them anew and takes out one, but together they come to the same
as a stable sort, made once, and one walk through its list
(`Backlog.verified_in_rank_order`).
-/
namespace MultisigTree

variable {κ σ : Type}

/-- `a` is not verified after `b` if it has waited as long: its score is higher,
or the same and its level not above that of `b`. -/
def Offer.Outranks (rate : Offer σ → Score) (a b : Offer σ) : Prop :=
  rate b < rate a ∨ rate a = rate b ∧ a.level ≤ b.level

namespace Offer

variable {rate : Offer σ → Score} {a b : Offer σ}

instance : DecidableRel (Outranks rate) := fun a b =>
  inferInstanceAs (Decidable (rate b < rate a ∨ rate a = rate b ∧ a.level ≤ b.level))

instance : Std.Total (Outranks rate) where
  total a b := by
    rcases Nat.lt_trichotomy (rate a) (rate b) with hlt | heq | hgt
    · exact .inr (.inl hlt)
    · exact (UInt8.le_total a.level b.level).imp (fun h => .inr ⟨heq, h⟩)
        fun h => .inr ⟨heq.symm, h⟩
    · exact .inl (.inl hgt)

instance : IsTrans (Offer σ) (Outranks rate) where
  trans a b c hab hbc := by
    rcases hab with hab | ⟨hab, hlevel⟩
    · exact .inl (hbc.elim (Nat.lt_trans · hab) fun h => h.1 ▸ hab)
    · rcases hbc with hbc | ⟨hbc, hlevel'⟩
      · exact .inl (hab ▸ hbc)
      · exact .inr ⟨hab.trans hbc, UInt8.le_trans hlevel hlevel'⟩

def rated (rate : Offer σ → Score) (o : Offer σ) : Evaluation σ :=
  ⟨o, rate o⟩

theorem leads_rated :
    Triage.leads (a.rated rate) (b.rated rate) = true ↔ ¬ Outranks rate b a := by
  rw [Triage.leads_iff, Outranks, not_or, not_and, UInt8.not_le, Nat.not_lt]
  constructor
  · rintro (hlt | ⟨heq, hlevel⟩)
    · exact ⟨Nat.le_of_lt hlt, fun heq => absurd heq (Nat.ne_of_lt hlt)⟩
    · exact ⟨Nat.le_of_eq heq.symm, fun _ => hlevel⟩
  · rintro ⟨hle, hlevel⟩
    rcases Nat.lt_or_eq_of_le hle with hlt | heq
    · exact .inl hlt
    · exact .inr ⟨heq.symm, hlevel heq⟩

end Offer

/-- The offers of some use, by rank, those of one rank in the order of their
arrival. -/
def Backlog.ranked (rate : Offer σ → Score) (offers : List (Offer σ)) : List (Offer σ) :=
  (offers.filter (rate · ≠ 0)).insertionSort (Offer.Outranks rate)

/-- Every evaluation made since `before` found the score `rate`. -/
def Steady (rate : Offer σ → Score) (before after : List (Evaluation σ)) : Prop :=
  ∃ made, after = made ++ before ∧ ∀ e ∈ made, e.score = rate e.offer

namespace Steady

variable {rate : Offer σ → Score} {before between after : List (Evaluation σ)}

theorem split (h : Steady rate before after) (hbefore : before <:+ between)
    (hafter : between <:+ after) : Steady rate before between ∧ Steady rate between after := by
  obtain ⟨made, heq, hmade⟩ := h
  obtain ⟨early, rfl⟩ := hbefore
  obtain ⟨late, rfl⟩ := hafter
  rw [← List.append_assoc, List.append_cancel_right_eq] at heq
  subst heq
  exact ⟨⟨early, rfl, fun e he => hmade e (List.mem_append_right _ he)⟩,
    ⟨late, rfl, fun e he => hmade e (List.mem_append_left _ he)⟩⟩

theorem refl (rate : Offer σ → Score) (before : List (Evaluation σ)) : Steady rate before before :=
  ⟨[], rfl, nofun⟩

theorem trans (h : Steady rate before between) (h' : Steady rate between after) :
    Steady rate before after := by
  obtain ⟨early, rfl, hearly⟩ := h
  obtain ⟨late, rfl, hlate⟩ := h'
  exact ⟨late ++ early, (List.append_assoc _ _ _).symm,
    List.forall_mem_append.2 ⟨hlate, hearly⟩⟩

end Steady

namespace Triage

variable {rate : Offer σ → Score}

section
variable {settled : Offer σ → Bool} {score : List (Evaluation σ) → Offer σ → Score}

/-- What is kept of a look are the offers of some use whose level is not
settled. -/
theorem kept_look {evaluations : List (Evaluation σ)} {offers : List (Offer σ)}
    (h : Steady rate evaluations (look settled score evaluations offers).evaluations) :
    (look settled score evaluations offers).kept =
      ((offers.filter (rate · ≠ 0)).filter (!settled ·)).map (·.rated rate) := by
  obtain ⟨made, hasked, hlook⟩ := look_spec settled score evaluations offers
  obtain ⟨made', heq, hscore⟩ := h
  rw [hlook, List.append_cancel_right_eq] at heq
  subst heq
  have hrated : made = (offers.filter (!settled ·)).map (·.rated rate) := by
    rw [← hasked.offers_eq, List.map_map]
    refine (List.map_id' made).symm.trans (List.map_congr_left fun e he => ?_)
    exact congrArg (Evaluation.mk e.offer) (hscore e (List.mem_reverse.2 he))
  rw [hlook, hrated, List.filter_map, List.filter_comm]
  rfl

theorem steady_look (settled : Offer σ → Bool) (h : ∀ before o, score before o = rate o)
    (evaluations : List (Evaluation σ)) (offers : List (Offer σ)) :
    Steady rate evaluations (look settled score evaluations offers).evaluations := by
  obtain ⟨made, hasked, hlook⟩ := look_spec settled score evaluations offers
  rw [hlook]
  refine ⟨made.reverse, rfl, fun e he => ?_⟩
  obtain ⟨i, hi⟩ := List.mem_iff_getElem?.1 (List.mem_reverse.1 he)
  rw [hasked.score_eq i e hi, h]

end

theorem ranked_of_choose {offers : List (Offer σ)} {best : Evaluation σ}
    {others : List (Evaluation σ)}
    (h : choose (offers.map (·.rated rate)) = some (best, others)) :
    ∃ (o : Offer σ) (rest : List (Offer σ)),
      best = o.rated rate ∧ others = rest.map (·.rated rate) ∧
      offers.insertionSort (Offer.Outranks rate) =
        o :: rest.insertionSort (Offer.Outranks rate) := by
  induction offers generalizing best others with
  | nil => cases h
  | cons o rest ih =>
      rw [List.map_cons, choose] at h
      split at h
      · rename_i hnone
        obtain rfl := List.map_eq_nil_iff.1 (choose_eq_none_iff.1 hnone)
        cases h
        exact ⟨o, [], rfl, rfl, rfl⟩
      · rename_i best' others' hsome
        obtain ⟨first, later, rfl, rfl, hsort⟩ := ih hsome
        rw [List.insertionSort_cons, hsort, List.orderedInsert_cons]
        split at h
        · rename_i hleads
          cases h
          rw [if_neg (Offer.leads_rated.1 hleads)]
          exact ⟨first, o :: later, rfl, rfl, rfl⟩
        · rename_i hleads
          cases h
          -- of two equals `choose` takes the one that came first, as a stable sort does
          rw [if_pos (not_not.1 (mt Offer.leads_rated.2 hleads)), ← hsort]
          exact ⟨o, rest, rfl, rfl, rfl⟩

end Triage

theorem Pass.verified_entries (done : Pass σ) :
    done.entries.filter (·.isVerified) = done.verdict.toList.map Verdict.entry := by
  have hverdict : ∀ e ∈ done.verdict.toList.map Verdict.entry, e.isVerified = true := by
    intro e he
    obtain ⟨verdict, -, rfl⟩ := List.mem_map.1 he
    cases verdict with
    | genuine o => rfl
    | forged o fault => rfl
  rw [entries, List.filter_append, List.filter_append, List.filter_map, List.filter_map,
    List.filter_eq_self.2 hverdict]
  simp [Entry.isVerified, Function.comp_def]

namespace Backlog

variable {v : Verifier κ σ} {evaluator : Evaluator σ} {holdings : Holdings σ}
variable {b b' : Backlog σ} {done : Pass σ} {ledger : List (Entry σ)}
variable {rate : Offer σ → Score} {resolved : LevelMap Nat}

/-- Verifies the offers one after the other, except those whose level is settled
by then. Each genuine one counts for its level. -/
def review (v : Verifier κ σ) :
    LevelMap Nat → List (Offer σ) → Except Crash (LevelMap Nat × List (Verdict σ))
  | resolved, [] => .ok (resolved, [])
  | resolved, o :: rest =>
      if isSettled v.place resolved o.level.toNat then review v resolved rest
      else
        match v.verify o with
        | .ok () => (review v (resolve resolved o) rest).map fun r => (r.1, .genuine o :: r.2)
        | .error (.refused fault) =>
            (review v resolved rest).map fun r => (r.1, .forged o fault :: r.2)
        | .error (.crashed crash) => .error crash

section
variable {o : Offer σ} {rest : List (Offer σ)}

theorem review_settled (h : isSettled v.place resolved o.level.toNat = true) :
    review v resolved (o :: rest) = review v resolved rest := by
  rw [review, if_pos h]

theorem review_genuine (h : isSettled v.place resolved o.level.toNat = false)
    (hverify : v.verify o = .ok ()) :
    review v resolved (o :: rest) =
      (review v (resolve resolved o) rest).map fun r => (r.1, .genuine o :: r.2) := by
  rw [review, h, hverify]
  rfl

theorem review_forged (h : isSettled v.place resolved o.level.toNat = false) {fault : Fault}
    (hverify : v.verify o = .error (.refused fault)) :
    review v resolved (o :: rest) =
      (review v resolved rest).map fun r => (r.1, .forged o fault :: r.2) := by
  rw [review, h, hverify]
  rfl

end

theorem isSettled_iff {p : Place} {level : Nat} : isSettled p resolved level = true ↔
    ∃ card, resolved.get? level = some card ∧ p.sizeAt level ≤ card := by
  unfold isSettled
  cases resolved.get? level with
  | none => simp
  | some card => simp

theorem isSettled_resolve {p : Place} {level : Nat} (o : Offer σ)
    (h : isSettled p resolved level = true) : isSettled p (resolve resolved o) level = true := by
  obtain ⟨card, hcard, hle⟩ := isSettled_iff.1 h
  rw [isSettled_iff, resolve, LevelMap.get?_insert]
  by_cases hlevel : o.level.toNat = level
  · rw [if_pos hlevel, hlevel, hcard, Option.getD_some]
    exact ⟨_, rfl, Nat.le_trans hle (Nat.le_max_left _ _)⟩
  · rw [if_neg hlevel]
    exact ⟨card, hcard, hle⟩

/-- Offers whose level is settled before the review make no difference to it. -/
theorem review_filter (v : Verifier κ σ) {before resolved : LevelMap Nat}
    (offers : List (Offer σ))
    (h : ∀ level, isSettled v.place before level = true → isSettled v.place resolved level = true) :
    review v resolved (offers.filter fun o => !isSettled v.place before o.level.toNat) =
      review v resolved offers := by
  induction offers generalizing resolved with
  | nil => rfl
  | cons o rest ih =>
      rw [List.filter_cons]
      cases hbefore : isSettled v.place before o.level.toNat with
      | true =>
          rw [review, if_pos (h _ hbefore)]
          exact ih h
      | false =>
          -- the offer is reviewed, and no level settled before is open again after it
          have hresolve := @ih (resolve resolved o) fun level hlevel =>
            isSettled_resolve o (h level hlevel)
          simp only [Bool.not_false, if_true, review, ih h, hresolve]

theorem review_unsettled (v : Verifier κ σ) (resolved : LevelMap Nat) (offers : List (Offer σ)) :
    review v resolved (offers.filter fun o => !isSettled v.place resolved o.level.toNat) =
      review v resolved offers :=
  review_filter v offers fun _ h => h

theorem sorted_kept
    (h : Steady rate b.evaluations (b.triage v evaluator holdings).evaluations) :
    ∃ live : List (Offer σ), (b.triage v evaluator holdings).kept = live.map (·.rated rate) ∧
      (∀ o ∈ live, rate o ≠ 0 ∧ isSettled v.place b.resolved o.level.toNat = false) ∧
      live.insertionSort (Offer.Outranks rate) =
        (ranked rate b.waiting).filter fun o => !isSettled v.place b.resolved o.level.toNat := by
  refine ⟨_, Triage.kept_look h, fun o ho => ?_, ?_⟩
  · obtain ⟨ho, hsettled⟩ := List.mem_filter.1 ho
    exact ⟨of_decide_eq_true (List.mem_filter.1 ho).2, by simpa using hsettled⟩
  · rw [ranked, List.filter_insertionSort]

/-- A review of all that wait comes first to the offer that a pass chooses, and
goes on with the others that are kept. -/
theorem review_of_choose
    (h : Steady rate b.evaluations (b.triage v evaluator holdings).evaluations)
    {chosen : Evaluation σ} {others : List (Evaluation σ)}
    (hchoose : Triage.choose (b.triage v evaluator holdings).kept = some (chosen, others)) :
    isSettled v.place b.resolved chosen.offer.level.toNat = false ∧
      review v b.resolved (ranked rate b.waiting) =
        review v b.resolved (chosen.offer :: ranked rate (others.map (·.offer))) := by
  obtain ⟨live, hkept, hlive, hsort⟩ := sorted_kept h
  rw [hkept] at hchoose
  obtain ⟨o, rest, rfl, rfl, hfirst⟩ := Triage.ranked_of_choose hchoose
  have hmem : ∀ o' ∈ o :: rest.insertionSort (Offer.Outranks rate), o' ∈ live := by
    intro o' ho'
    rw [← hfirst] at ho'
    exact (List.mem_insertionSort _).1 ho'
  have huseful : rest.filter (rate · ≠ 0) = rest := by
    refine List.filter_eq_self.2 fun o' ho' => decide_eq_true ?_
    exact (hlive o' (hmem o' (List.mem_cons_of_mem _ ((List.mem_insertionSort _).2 ho')))).1
  have hoffers : (rest.map (·.rated rate)).map (·.offer) = rest := by
    rw [List.map_map]
    exact List.map_id rest
  refine ⟨(hlive o (hmem o List.mem_cons_self)).2, ?_⟩
  rw [← review_unsettled v b.resolved (ranked rate b.waiting), ← hsort, hfirst, hoffers, ranked,
    huseful]
  rfl

/-- A pass verifies the first offer of a review of all that wait, and leaves the
rest to a review of what waits then. -/
theorem review_of_pass (h : b.pass v evaluator holdings = .ok (b', done))
    (hrunning : b.phase = .running) (hsteady : Steady rate b.evaluations b'.evaluations) :
    review v b.resolved (ranked rate b.waiting) =
      (review v b'.resolved (ranked rate b'.waiting)).map fun r =>
        (r.1, done.verdict.toList ++ r.2) := by
  cases passing_of_pass h with
  | idle hidle => exact absurd hrunning hidle
  | nothing _ hnone =>
      obtain ⟨live, hkept, -, hsort⟩ := sorted_kept hsteady
      obtain rfl := List.map_eq_nil_iff.1 (hkept.symm.trans hnone)
      rw [← review_unsettled v b.resolved (ranked rate b.waiting), ← hsort]
      rfl
  | genuine chosen others _ hchoose hverify =>
      obtain ⟨hopen, hfirst⟩ := review_of_choose hsteady hchoose
      rw [hfirst, review_genuine hopen hverify, waiting, List.append_nil]
      rfl
  | forged chosen others fault _ hchoose hverify =>
      obtain ⟨hopen, hfirst⟩ := review_of_choose hsteady hchoose
      rw [hfirst, review_forged hopen hverify, waiting, List.append_nil]
      rfl

theorem review_of_load_eq_zero (h : b.load = 0) :
    review v b.resolved (ranked rate b.waiting) = .ok (b.resolved, []) := by
  rw [← length_waiting, List.length_eq_zero_iff] at h
  rw [h]
  rfl

theorem evaluations_run {events : List (Event σ)}
    (h : run v evaluator events b = .ok (b', ledger)) :
    b.evaluations <:+ b'.evaluations := by
  induction events generalizing b ledger with
  | nil =>
      cases h
      exact List.suffix_refl _
  | cons event rest ih =>
      obtain ⟨b₁, entries, ledger₁, hstep, hrest, -⟩ := run_cons_iff.1 h
      exact (evaluations_step hstep).trans (ih hrest)

/-- Passes until no offer waits are a review of all that wait. -/
theorem review_of_run {burst : List (Holdings σ)}
    (h : run v evaluator (burst.map .pass) b = .ok (b', ledger)) (hrunning : b.phase = .running)
    (hload : b.load ≤ burst.length) (hsteady : Steady rate b.evaluations b'.evaluations) :
    ∃ verdicts, review v b.resolved (ranked rate b.waiting) = .ok (b'.resolved, verdicts) ∧
      ledger.filter (·.isVerified) = verdicts.map Verdict.entry := by
  -- each pass takes the first offer off the review and leaves the rest to the passes to come
  induction burst generalizing b ledger with
  | nil =>
      cases h
      exact ⟨[], review_of_load_eq_zero (Nat.le_zero.1 hload), rfl⟩
  | cons holdings rest ih =>
      obtain ⟨b₁, entries, ledger₁, hstep, hrest, heq⟩ := run_cons_iff.1 h
      obtain ⟨done, hpass, hentries⟩ := pass_of_step_pass hstep
      have hrunning₁ : b₁.phase = .running := (phase_step hstep).trans hrunning
      have hload₁ : b₁.load ≤ rest.length := by
        rw [List.length_cons] at hload
        have hfirst := load_add_verdict_le hpass
        have hshrinks := load_pass hpass hrunning
        omega
      obtain ⟨hfirst, hlater⟩ := hsteady.split (evaluations_step hstep) (evaluations_run hrest)
      obtain ⟨verdicts, hreview, hledger⟩ := ih hrest hrunning₁ hload₁ hlater
      refine ⟨done.verdict.toList ++ verdicts, ?_, ?_⟩
      · rw [review_of_pass hpass hrunning hfirst, hreview]
        rfl
      · rw [heq, hentries, List.filter_append, hledger, done.verified_entries, List.map_append]

/-- An evaluator that scores an offer as `rate` does, whatever it was asked
before, is steady. -/
theorem steady_pass (h : b.pass v evaluator holdings = .ok (b', done))
    (hrate : ∀ before o, evaluator before holdings o = rate o) :
    Steady rate b.evaluations b'.evaluations := by
  have hlook : Steady rate b.evaluations (b.triage v evaluator holdings).evaluations :=
    Triage.steady_look _ hrate _ _
  cases passing_of_pass h with
  | idle => exact .refl rate b.evaluations
  | nothing => exact hlook
  | genuine => exact hlook
  | forged => exact hlook

theorem steady_run {burst : List (Holdings σ)}
    (h : run v evaluator (burst.map .pass) b = .ok (b', ledger))
    (hrate : ∀ holdings ∈ burst, ∀ before o, evaluator before holdings o = rate o) :
    Steady rate b.evaluations b'.evaluations := by
  induction burst generalizing b ledger with
  | nil =>
      cases h
      exact .refl _ _
  | cons holdings rest ih =>
      obtain ⟨b₁, entries, ledger₁, hstep, hrest, -⟩ := run_cons_iff.1 h
      obtain ⟨done, hpass, -⟩ := pass_of_step_pass hstep
      have hfirst := steady_pass hpass (hrate holdings List.mem_cons_self)
      exact hfirst.trans (ih hrest fun h hh => hrate h (List.mem_cons_of_mem _ hh))

theorem review_of_passes {count : Nat} {verdicts : List (Verdict σ)}
    (h : b.passes v evaluator holdings count = .ok (b', verdicts)) (hrunning : b.phase = .running)
    (hload : b.load ≤ count) (hrate : ∀ before o, evaluator before holdings o = rate o) :
    review v b.resolved (ranked rate b.waiting) = .ok (b'.resolved, verdicts) := by
  induction count generalizing b verdicts with
  | zero =>
      cases h
      exact review_of_load_eq_zero (Nat.le_zero.1 hload)
  | succ count ih =>
      unfold passes at h
      by_cases hnone : b.load = 0
      · rw [if_pos (.inr hnone)] at h
        cases h
        exact review_of_load_eq_zero hnone
      · obtain ⟨b₁, done, hpass⟩ := exists_pass v evaluator holdings b
        have hphase := (accounted_of_pass hpass).phase_eq.trans hrunning
        have hshrinks := load_pass hpass hrunning (Nat.pos_of_ne_zero hnone)
        rw [if_neg (by simp [hrunning, hnone]), hpass] at h
        obtain ⟨b₂, later, hpasses, -⟩ := exists_passes v evaluator holdings count b₁
        simp only [bind, Except.bind, hpasses] at h
        cases h
        rw [review_of_pass hpass hrunning (steady_pass hpass hrate),
          ih hpasses hphase (by omega)]
        rfl

/-- Working off what waits is a review of it by rank. -/
theorem settle_eq_review (hrunning : b.phase = .running)
    (hrate : ∀ before o, evaluator before holdings o = rate o) :
    ∃ b' verdicts, b.settle v evaluator holdings = .ok (b', verdicts) ∧ b'.phase = .running ∧
      b'.waiting = [] ∧
      review v b.resolved (ranked rate b.waiting) = .ok (b'.resolved, verdicts) := by
  obtain ⟨b', verdicts, hsettle, hphase, -, hload⟩ := settle_spec v evaluator holdings b
  refine ⟨b', verdicts, hsettle, hphase.trans hrunning, ?_,
    review_of_passes hsettle hrunning (Nat.le_refl _) hrate⟩
  rw [← List.length_eq_zero_iff, length_waiting, hload hrunning]

/-- Offers of one score are ranked by their level alone. -/
theorem ranked_const {score : Score} (hpos : score ≠ 0) (offers : List (Offer σ)) :
    ranked (fun _ => score) offers = offers.insertionSort (·.level ≤ ·.level) := by
  have hall : offers.filter (fun _ => decide (score ≠ 0)) = offers :=
    List.filter_eq_self.2 fun _ _ => decide_eq_true hpos
  have hsort := List.map_insertionSort (r := Offer.Outranks fun _ : Offer σ => score)
    (s := fun o o' : Offer σ => o.level ≤ o'.level) id (l := offers)
    fun o _ o' _ => by simp [Offer.Outranks]
  rw [List.map_id, List.map_id] at hsort
  rw [ranked, hall, hsort]

/-- Passes until no offer waits verify those that were queued in the order of
their rank, as long as the scores that the evaluator finds do not change: what is
published and reported, in which order, and what is resolved then are what comes
of a stable sort by score and level and a review of the sorted offers. If the
evaluator accepts all, this is a stable sort by level. -/
theorem verified_in_rank_order (v : Verifier κ σ) (evaluator : Evaluator σ) {b : Backlog σ}
    (hrunning : b.phase = .running) (hpending : b.pending = []) {burst : List (Holdings σ)}
    (hload : b.queued.length ≤ burst.length) :
    ∃ (b' : Backlog σ) (ledger : List (Entry σ)),
      run v evaluator (burst.map .pass) b = .ok (b', ledger) ∧ b'.load = 0 ∧
      (∀ rate, Steady rate b.evaluations b'.evaluations →
        ∃ verdicts, review v b.resolved (ranked rate b.queued) = .ok (b'.resolved, verdicts) ∧
          ledger.filter (·.isVerified) = verdicts.map Verdict.entry) ∧
      (evaluator = .acceptAll →
        ∃ verdicts, review v b.resolved (b.queued.insertionSort (·.level ≤ ·.level)) =
            .ok (b'.resolved, verdicts) ∧
          ledger.filter (·.isVerified) = verdicts.map Verdict.entry) := by
  have hwaiting : b.waiting = b.queued := by rw [waiting, hpending, List.nil_append]
  have hload' : b.load ≤ burst.length := by rwa [← length_waiting, hwaiting]
  obtain ⟨b', ledger, hrun⟩ := exists_ledger v evaluator (burst.map .pass) b
  have hreview : ∀ rate, Steady rate b.evaluations b'.evaluations →
      ∃ verdicts, review v b.resolved (ranked rate b.queued) = .ok (b'.resolved, verdicts) ∧
        ledger.filter (·.isVerified) = verdicts.map Verdict.entry := by
    rw [← hwaiting]
    exact fun rate => review_of_run hrun hrunning hload'
  refine ⟨b', ledger, hrun, load_passes hrunning hload' hrun, hreview, fun hall => ?_⟩
  rw [← ranked_const Nat.one_ne_zero]
  exact hreview _ (steady_run hrun fun _ _ _ _ => by rw [hall]; rfl)

/-- Five offers are queued at the first of two members. That of a sender it
ignores is not verified. The forged one has the highest score and comes first,
then the member's own, on the lower level, then the other member's signature: it
settles its level, so that a copy of it is not verified. -/
theorem verified_in_rank_order_of_five :
    ∃ (v : Verifier IdSet Plain.Signature) (ignored genuine own forged : Offer Plain.Signature)
      (b b' : Backlog Plain.Signature) (ledger : List (Entry Plain.Signature)),
      v = ⟨Plain.scheme, Plain.pair, ⟨2, 0, by decide⟩, [7]⟩ ∧
      ignored = ⟨9, 1, ⟨.ofList 1 [0], Plain.sign 1⟩⟩ ∧
      genuine = ⟨1, 1, ⟨.ofList 1 [0], Plain.sign 1⟩⟩ ∧
      own = ⟨0, 0, ⟨.ofList 1 [0], Plain.sign 0⟩⟩ ∧
      forged = ⟨5, 1, ⟨.ofList 1 [0], ⟨.singleton 1, false⟩⟩⟩ ∧
      b = ⟨.running, [ignored, genuine, own, forged, genuine], [], .empty, []⟩ ∧
      run v (.byOrigin [(9, 0), (5, 2)] 1)
          [.pass .empty, .pass .empty, .pass .empty, .pass .empty, .pass .empty] b =
        .ok (b', ledger) ∧ b'.load = 0 ∧
      review v b.resolved (ranked (Evaluator.byOrigin [(9, 0), (5, 2)] 1 [] .empty) b.queued) =
        .ok (b'.resolved,
          [.forged forged (.scheme .invalidSignature), .genuine own, .genuine genuine]) ∧
      ledger.filter (·.isVerified) = [⟨forged, .reported 5 (.scheme .invalidSignature)⟩,
        ⟨own, .published⟩, ⟨genuine, .published⟩] := by
  obtain ⟨v, hv⟩ : ∃ v : Verifier IdSet Plain.Signature,
      v = ⟨Plain.scheme, Plain.pair, ⟨2, 0, by decide⟩, [7]⟩ := ⟨_, rfl⟩
  obtain ⟨ignored, hignored⟩ : ∃ o : Offer Plain.Signature,
      o = ⟨9, 1, ⟨.ofList 1 [0], Plain.sign 1⟩⟩ := ⟨_, rfl⟩
  obtain ⟨genuine, hgenuine⟩ : ∃ o : Offer Plain.Signature,
      o = ⟨1, 1, ⟨.ofList 1 [0], Plain.sign 1⟩⟩ := ⟨_, rfl⟩
  obtain ⟨own, hown⟩ : ∃ o : Offer Plain.Signature,
      o = ⟨0, 0, ⟨.ofList 1 [0], Plain.sign 0⟩⟩ := ⟨_, rfl⟩
  obtain ⟨forged, hforged⟩ : ∃ o : Offer Plain.Signature,
      o = ⟨5, 1, ⟨.ofList 1 [0], ⟨.singleton 1, false⟩⟩⟩ := ⟨_, rfl⟩
  obtain ⟨b, hb⟩ : ∃ b : Backlog Plain.Signature,
      b = ⟨.running, [ignored, genuine, own, forged, genuine], [], .empty, []⟩ := ⟨_, rfl⟩
  have hload : b.queued.length ≤ (List.replicate 5 (.empty : Holdings Plain.Signature)).length := by
    rw [hb]
    exact Nat.le_refl 5
  obtain ⟨b', ledger, hrun, hload, hsteady, -⟩ := verified_in_rank_order v
    (.byOrigin [(9, 0), (5, 2)] 1) (b := b) (by rw [hb]) (by rw [hb]) hload
  obtain ⟨verdicts, hreview, hledger⟩ :=
    hsteady (Evaluator.byOrigin [(9, 0), (5, 2)] 1 [] .empty) (steady_run hrun fun _ _ _ _ => rfl)
  have hverdicts : (review v b.resolved
      (ranked (Evaluator.byOrigin [(9, 0), (5, 2)] 1 [] .empty) b.queued)).toOption.map (·.2) =
      some [.forged forged (.scheme .invalidSignature), .genuine own, .genuine genuine] := by
    rw [hb, hv, hignored, hgenuine, hown, hforged]
    decide
  rw [hreview] at hverdicts
  obtain rfl := Option.some.inj hverdicts
  refine ⟨v, ignored, genuine, own, forged, b, b', ledger, hv, hignored, hgenuine, hown, hforged,
    hb, hrun, hload, hreview, hledger.trans ?_⟩
  rw [hforged]
  rfl

end Backlog

end MultisigTree
