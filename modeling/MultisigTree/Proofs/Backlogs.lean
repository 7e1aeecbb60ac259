import MultisigTree.Backlog
import MultisigTree.Proofs.Vouching

/-!
# What a pass does with the offers that wait

No pass crashes (`Backlog.exists_pass`). A pass asks the evaluator about the
offers whose level is not settled (`Triage.look_spec`) and verifies one of those
with a score. Each of the others waits on, unless its level is settled or the
evaluator found it of no use: together these are the offers that waited before
(`Backlog.Accounted`).
-/
namespace MultisigTree

namespace Triage

variable {σ : Type} {settled : Offer σ → Bool} {score : List (Evaluation σ) → Offer σ → Score}
variable {evaluations : List (Evaluation σ)} {offers : List (Offer σ)} {o : Offer σ}

/-- The evaluations made if the offers are asked about in turn: one for each, with
the score found when those before it had been made. -/
structure Asked (score : List (Evaluation σ) → Offer σ → Score)
    (evaluations : List (Evaluation σ)) (offers : List (Offer σ)) (made : List (Evaluation σ)) :
    Prop where
  offers_eq : made.map (·.offer) = offers
  score_eq : ∀ i e, made[i]? = some e →
    e.score = score ((made.take i).reverse ++ evaluations) e.offer

theorem Asked.cons {made : List (Evaluation σ)}
    (h : Asked score (⟨o, score evaluations o⟩ :: evaluations) offers made) :
    Asked score evaluations (o :: offers) (⟨o, score evaluations o⟩ :: made) where
  offers_eq := congrArg (o :: ·) h.offers_eq
  score_eq i e he := by
    cases i with
    | zero =>
        obtain rfl := Option.some.inj he
        rfl
    | succ i =>
        rw [h.score_eq i e he, List.take_succ_cons, List.reverse_cons, List.append_assoc]
        rfl

/-- A look asks about the offers whose level is not settled. It keeps those with a
score, and the others are of no use. -/
theorem look_spec (settled : Offer σ → Bool) (score : List (Evaluation σ) → Offer σ → Score)
    (evaluations : List (Evaluation σ)) (offers : List (Offer σ)) :
    ∃ made, Asked score evaluations (offers.filter (!settled ·)) made ∧
      look settled score evaluations offers =
        ⟨made.filter (·.score ≠ 0), (made.filter (·.score = 0)).map (·.offer),
          offers.filter settled, made.reverse ++ evaluations⟩ := by
  induction offers generalizing evaluations with
  | nil => exact ⟨[], ⟨rfl, nofun⟩, rfl⟩
  | cons o rest ih =>
      rw [look]
      cases hsettled : settled o with
      | true =>
          obtain ⟨made, hasked, hlook⟩ := ih evaluations
          refine ⟨made, ?_, ?_⟩
          · rwa [List.filter_cons_of_neg (by simp [hsettled])]
          · rw [if_pos rfl, hlook, List.filter_cons_of_pos hsettled]
      | false =>
          obtain ⟨made, hasked, hlook⟩ := ih (⟨o, score evaluations o⟩ :: evaluations)
          have hopen : (o :: rest).filter settled = rest.filter settled :=
            List.filter_cons_of_neg (by simp [hsettled])
          refine ⟨⟨o, score evaluations o⟩ :: made, ?_, ?_⟩
          · rw [List.filter_cons_of_pos (by simp [hsettled])]
            exact hasked.cons
          · rw [if_neg Bool.false_ne_true, hopen, List.reverse_cons, List.append_assoc]
            dsimp only
            rw [hlook]
            by_cases hzero : score evaluations o = 0
            · simp [hzero]
            · simp [hzero]

theorem suffix_look (settled : Offer σ → Bool) (score : List (Evaluation σ) → Offer σ → Score)
    (evaluations : List (Evaluation σ)) (offers : List (Offer σ)) :
    evaluations <:+ (look settled score evaluations offers).evaluations := by
  obtain ⟨made, -, hlook⟩ := look_spec settled score evaluations offers
  rw [hlook]
  exact List.suffix_append _ _

/-- Each offer looked at is kept, of no use or of a settled level, and no other
offer is. -/
theorem perm_look (settled : Offer σ → Bool) (score : List (Evaluation σ) → Offer σ → Score)
    (evaluations : List (Evaluation σ)) (offers : List (Offer σ)) :
    ((look settled score evaluations offers).kept.map (·.offer) ++
      ((look settled score evaluations offers).useless ++
        (look settled score evaluations offers).settled)).Perm offers := by
  obtain ⟨made, hasked, hlook⟩ := look_spec settled score evaluations offers
  have hmade : (made.filter (·.score ≠ 0) ++ made.filter (·.score = 0)).Perm made := by
    simpa using List.filter_append_perm (fun e : Evaluation σ => e.score ≠ 0) made
  have hoffers : (offers.filter (!settled ·) ++ offers.filter settled).Perm offers := by
    simpa using List.filter_append_perm (fun o => !settled o) offers
  rw [hlook, ← List.append_assoc, ← List.map_append]
  refine List.Perm.trans ?_ hoffers
  rw [← hasked.offers_eq]
  exact (hmade.map _).append_right _

theorem settled_of_look (h : o ∈ (look settled score evaluations offers).settled) :
    settled o = true := by
  obtain ⟨made, -, hlook⟩ := look_spec settled score evaluations offers
  rw [hlook] at h
  exact (List.mem_filter.1 h).2

theorem score_of_look (h : o ∈ (look settled score evaluations offers).useless) :
    ∃ before, score before o = 0 ∧
      ⟨o, 0⟩ :: before <:+ (look settled score evaluations offers).evaluations := by
  obtain ⟨made, hasked, hlook⟩ := look_spec settled score evaluations offers
  rw [hlook] at h ⊢
  obtain ⟨e, he, rfl⟩ := List.mem_map.1 h
  obtain ⟨he, hzero⟩ := List.mem_filter.1 he
  have hscore : e.score = 0 := of_decide_eq_true hzero
  obtain ⟨early, late, rfl⟩ := List.append_of_mem he
  have hfound := hasked.score_eq early.length e (by simp)
  rw [List.take_left, hscore] at hfound
  refine ⟨early.reverse ++ evaluations, hfound.symm, late.reverse, ?_⟩
  rw [← hscore]
  simp

end Triage

def Verdict.offer {σ : Type} : Verdict σ → Offer σ
  | .genuine o => o
  | .forged o _ => o

def Pass.offers {σ : Type} (done : Pass σ) : List (Offer σ) :=
  done.useless ++ done.settled ++ done.verdict.toList.map (·.offer)

theorem Pass.mem_offers {σ : Type} {done : Pass σ} {o : Offer σ} :
    o ∈ done.offers ↔ o ∈ done.useless ∨ o ∈ done.settled ∨
      ∃ verdict, done.verdict = some verdict ∧ verdict.offer = o := by
  simp [Pass.offers]

namespace Backlog

variable {κ σ : Type}

/-- The offers that wait to be verified. -/
def waiting (b : Backlog σ) : List (Offer σ) :=
  b.pending ++ b.queued

theorem length_waiting (b : Backlog σ) : b.waiting.length = b.load :=
  List.length_append

/-- What is counted for a level is of the offer counted last or was counted
before. -/
theorem counted_of_resolve {resolved : LevelMap Nat} {o : Offer σ} {level card : Nat}
    (h : (resolve resolved o).get? level = some card) :
    o.level.toNat = level ∧ o.multisig.card = card ∨ resolved.get? level = some card := by
  rw [resolve, LevelMap.get?_insert] at h
  split at h
  · rename_i hlevel
    rw [hlevel, Option.some.injEq] at h
    cases hold : resolved.get? level with
    | none =>
        rw [hold, Option.getD_none, Nat.zero_max] at h
        exact .inl ⟨hlevel, h⟩
    | some old =>
        rw [hold, Option.getD_some] at h
        rcases Nat.le_total old o.multisig.card with hle | hle
        · rw [Nat.max_eq_right hle] at h
          exact .inl ⟨hlevel, h⟩
        · rw [Nat.max_eq_left hle] at h
          exact .inr (congrArg some h)
  · exact .inr h

variable {v : Verifier κ σ} {evaluator : Evaluator σ} {holdings : Holdings σ}
variable {b b' : Backlog σ} {done : Pass σ}

theorem exists_pass (v : Verifier κ σ) (evaluator : Evaluator σ) (holdings : Holdings σ)
    (b : Backlog σ) : ∃ b' done, b.pass v evaluator holdings = .ok (b', done) := by
  unfold pass
  split
  · exact ⟨_, _, rfl⟩
  · dsimp only
    split
    · exact ⟨_, _, rfl⟩
    · rename_i chosen others hchoose
      split
      · exact ⟨_, _, rfl⟩
      · exact ⟨_, _, rfl⟩
      · rename_i crash hcrash
        exact absurd hcrash (v.verify_ne_crashed chosen.offer crash)

/-- How a pass looks at the offers that wait. -/
def triage (v : Verifier κ σ) (evaluator : Evaluator σ) (holdings : Holdings σ)
    (b : Backlog σ) : Triage σ :=
  Triage.look (fun o => isSettled v.place b.resolved o.level.toNat)
    (fun evaluations o => evaluator evaluations holdings o) b.evaluations b.waiting

section
variable (v : Verifier κ σ) (evaluator : Evaluator σ) (holdings : Holdings σ) (b : Backlog σ)

theorem perm_triage :
    ((b.triage v evaluator holdings).kept.map (·.offer) ++
      ((b.triage v evaluator holdings).useless ++
        (b.triage v evaluator holdings).settled)).Perm b.waiting :=
  Triage.perm_look _ _ _ _

theorem perm_triage_of_choose {chosen : Evaluation σ} {others : List (Evaluation σ)}
    (h : Triage.choose (b.triage v evaluator holdings).kept = some (chosen, others)) :
    (others.map (·.offer) ++ ((b.triage v evaluator holdings).useless ++
      (b.triage v evaluator holdings).settled ++ [chosen.offer])).Perm b.waiting := by
  have hchosen := ((Triage.choose_perm h).map (·.offer)).append_right
    ((b.triage v evaluator holdings).useless ++ (b.triage v evaluator holdings).settled)
  have hlast : (others.map (·.offer) ++ ((b.triage v evaluator holdings).useless ++
      (b.triage v evaluator holdings).settled ++ [chosen.offer])).Perm
      (chosen.offer :: (others.map (·.offer) ++ ((b.triage v evaluator holdings).useless ++
        (b.triage v evaluator holdings).settled))) := by
    rw [← List.append_assoc]
    exact List.perm_append_singleton _ _
  exact hlast.trans (hchosen.trans (b.perm_triage v evaluator holdings))

/-- What a pass can come to. -/
inductive Passing : Backlog σ → Pass σ → Prop
  | idle : b.phase ≠ .running → Passing b ⟨[], [], none⟩
  | nothing : b.phase = .running → (b.triage v evaluator holdings).kept = [] →
      Passing { b with
          queued := []
          pending := []
          evaluations := (b.triage v evaluator holdings).evaluations }
        ⟨(b.triage v evaluator holdings).useless, (b.triage v evaluator holdings).settled, none⟩
  | genuine (chosen : Evaluation σ) (others : List (Evaluation σ)) : b.phase = .running →
      Triage.choose (b.triage v evaluator holdings).kept = some (chosen, others) →
      v.verify chosen.offer = .ok () →
      Passing { b with
          queued := []
          pending := others.map (·.offer)
          resolved := resolve b.resolved chosen.offer
          evaluations := (b.triage v evaluator holdings).evaluations }
        ⟨(b.triage v evaluator holdings).useless, (b.triage v evaluator holdings).settled,
          some (.genuine chosen.offer)⟩
  | forged (chosen : Evaluation σ) (others : List (Evaluation σ)) (fault : Fault) :
      b.phase = .running →
      Triage.choose (b.triage v evaluator holdings).kept = some (chosen, others) →
      v.verify chosen.offer = .error (.refused fault) →
      Passing { b with
          queued := []
          pending := others.map (·.offer)
          evaluations := (b.triage v evaluator holdings).evaluations }
        ⟨(b.triage v evaluator holdings).useless, (b.triage v evaluator holdings).settled,
          some (.forged chosen.offer fault)⟩

end

theorem passing_of_pass (h : b.pass v evaluator holdings = .ok (b', done)) :
    Passing v evaluator holdings b b' done := by
  unfold pass at h
  split at h
  · rename_i hidle
    cases h
    exact .idle hidle
  · rename_i hphase
    have hrunning : b.phase = .running := Decidable.not_not.1 hphase
    dsimp only at h
    split at h
    · rename_i hchoose
      cases h
      exact .nothing hrunning (Triage.choose_eq_none_iff.1 hchoose)
    · rename_i chosen others hchoose
      split at h
      · rename_i hverify
        cases h
        exact .genuine chosen others hrunning hchoose hverify
      · rename_i fault hverify
        cases h
        exact .forged chosen others fault hrunning hchoose hverify
      · cases h

/-- Where the offers that waited are after a pass, and why. -/
structure Accounted (v : Verifier κ σ) (evaluator : Evaluator σ) (holdings : Holdings σ)
    (b b' : Backlog σ) (done : Pass σ) : Prop where
  phase_eq : b'.phase = b.phase
  idle : b.phase ≠ .running → b' = b ∧ done = ⟨[], [], none⟩
  perm : (b'.waiting ++ done.offers).Perm b.waiting
  suffix : b.evaluations <:+ b'.evaluations
  useless : ∀ o ∈ done.useless, ∃ before, evaluator before holdings o = 0 ∧
    ⟨o, 0⟩ :: before <:+ b'.evaluations
  settled : ∀ o ∈ done.settled, isSettled v.place b.resolved o.level.toNat = true
  genuine : ∀ o, done.verdict = some (.genuine o) →
    v.verify o = .ok () ∧ b'.resolved = resolve b.resolved o
  forged : ∀ o fault, done.verdict = some (.forged o fault) →
    v.verify o = .error (.refused fault) ∧ b'.resolved = b.resolved
  quiet : done.verdict = none →
    b'.resolved = b.resolved ∧ (b.phase = .running → b'.waiting = [])

theorem Passing.accounted (h : Passing v evaluator holdings b b' done) :
    Accounted v evaluator holdings b b' done := by
  have hsuffix : b.evaluations <:+ (b.triage v evaluator holdings).evaluations :=
    Triage.suffix_look _ _ _ _
  have huseless : ∀ o ∈ (b.triage v evaluator holdings).useless,
      ∃ before, evaluator before holdings o = 0 ∧
        ⟨o, 0⟩ :: before <:+ (b.triage v evaluator holdings).evaluations :=
    fun _ => Triage.score_of_look
  have hsettled : ∀ o ∈ (b.triage v evaluator holdings).settled,
      isSettled v.place b.resolved o.level.toNat = true := fun _ => Triage.settled_of_look
  cases h with
  | idle hidle =>
      exact ⟨rfl, fun _ => ⟨rfl, rfl⟩, by simp [Pass.offers], List.suffix_refl _, nofun, nofun,
        nofun, nofun, fun _ => ⟨rfl, fun hrunning => absurd hrunning hidle⟩⟩
  | nothing hrunning hkept =>
      have hperm := b.perm_triage v evaluator holdings
      rw [hkept] at hperm
      refine ⟨rfl, fun hidle => absurd hrunning hidle, ?_, hsuffix, huseless, hsettled, nofun,
        nofun, fun _ => ⟨rfl, fun _ => rfl⟩⟩
      simpa [waiting, Pass.offers] using hperm
  | genuine chosen others hrunning hchoose hverify =>
      refine ⟨rfl, fun hidle => absurd hrunning hidle, ?_, hsuffix, huseless, hsettled,
        fun o ho => ?_, nofun, nofun⟩
      · rw [waiting, List.append_nil]
        exact b.perm_triage_of_choose v evaluator holdings hchoose
      · cases ho
        exact ⟨hverify, rfl⟩
  | forged chosen others fault hrunning hchoose hverify =>
      refine ⟨rfl, fun hidle => absurd hrunning hidle, ?_, hsuffix, huseless, hsettled, nofun,
        fun o fault' ho => ?_, nofun⟩
      · rw [waiting, List.append_nil]
        exact b.perm_triage_of_choose v evaluator holdings hchoose
      · cases ho
        exact ⟨hverify, rfl⟩

theorem accounted_of_pass (h : b.pass v evaluator holdings = .ok (b', done)) :
    Accounted v evaluator holdings b b' done :=
  (passing_of_pass h).accounted

/-- What a pass may make of a backlog. -/
structure Passed (v : Verifier κ σ) (evaluator : Evaluator σ) (holdings : Holdings σ)
    (b b' : Backlog σ) (verdict : Option (Verdict σ)) : Prop where
  phase_eq : b'.phase = b.phase
  subset : ∀ o ∈ b'.waiting, o ∈ b.waiting
  idle : b.phase ≠ .running → verdict = none
  genuine : ∀ o, verdict = some (.genuine o) →
    o ∈ b.waiting ∧ v.verify o = .ok () ∧ b'.resolved = resolve b.resolved o
  forged : ∀ o fault, verdict = some (.forged o fault) →
    o ∈ b.waiting ∧ v.verify o = .error (.refused fault)
  resolved_eq : (∀ o, verdict ≠ some (.genuine o)) → b'.resolved = b.resolved
  fate : ∀ o ∈ b.waiting, o ∈ b'.waiting ∨ verdict = some (.genuine o) ∨
    (∃ fault, verdict = some (.forged o fault)) ∨
    isSettled v.place b.resolved o.level.toNat = true ∨
    ∃ evaluations, evaluator evaluations holdings o = 0

/-- An offer that waits no longer and has not been verified was let go. -/
theorem Passed.let_go (passed : Passed v evaluator holdings b b' none) {o : Offer σ}
    (ho : o ∈ b.waiting) (hgone : o ∉ b'.waiting) :
    isSettled v.place b.resolved o.level.toNat = true ∨
      ∃ evaluations, evaluator evaluations holdings o = 0 := by
  rcases passed.fate o ho with hwaits | hpublished | ⟨fault, hforged⟩ | hlets
  · exact absurd hwaits hgone
  · cases hpublished
  · cases hforged
  · exact hlets

theorem Accounted.passed (h : Accounted v evaluator holdings b b' done) :
    Passed v evaluator holdings b b' done.verdict where
  phase_eq := h.phase_eq
  subset o ho := h.perm.mem_iff.1 (List.mem_append_left _ ho)
  idle hidle := by rw [(h.idle hidle).2]
  genuine o hverdict := by
    have ho : o ∈ done.offers := Pass.mem_offers.2 (.inr (.inr ⟨_, hverdict, rfl⟩))
    have hgenuine := h.genuine o hverdict
    exact ⟨h.perm.mem_iff.1 (List.mem_append_right _ ho), hgenuine⟩
  forged o fault hverdict := by
    have ho : o ∈ done.offers := Pass.mem_offers.2 (.inr (.inr ⟨_, hverdict, rfl⟩))
    exact ⟨h.perm.mem_iff.1 (List.mem_append_right _ ho), (h.forged o fault hverdict).1⟩
  resolved_eq hnot := by
    cases hverdict : done.verdict with
    | none => exact (h.quiet hverdict).1
    | some verdict =>
        cases verdict with
        | genuine o => exact absurd hverdict (hnot o)
        | forged o fault => exact (h.forged o fault hverdict).2
  fate o ho := by
    rcases List.mem_append.1 (h.perm.mem_iff.2 ho) with hwaits | hdone
    · exact .inl hwaits
    · rcases Pass.mem_offers.1 hdone with huseless | hsettled | ⟨verdict, hverdict, heq⟩
      · have hscore := h.useless o huseless
        exact .inr (.inr (.inr (.inr ⟨hscore.choose, hscore.choose_spec.1⟩)))
      · exact .inr (.inr (.inr (.inl (h.settled o hsettled))))
      · cases verdict with
        | genuine o' => exact .inr (.inl (heq ▸ hverdict))
        | forged o' fault => exact .inr (.inr (.inl ⟨fault, heq ▸ hverdict⟩))

theorem pass_spec (v : Verifier κ σ) (evaluator : Evaluator σ) (holdings : Holdings σ)
    (b : Backlog σ) :
    ∃ b' done, b.pass v evaluator holdings = .ok (b', done) ∧
      Passed v evaluator holdings b b' done.verdict := by
  obtain ⟨b', done, hpass⟩ := exists_pass v evaluator holdings b
  exact ⟨b', done, hpass, (accounted_of_pass hpass).passed⟩

theorem verify_of_forged (h : b.pass v evaluator holdings = .ok (b', done))
    {o : Offer σ} {fault : Fault} (hforged : done.verdict = some (.forged o fault)) :
    v.verify o = .error (.refused fault) :=
  ((accounted_of_pass h).forged o fault hforged).1

end Backlog

end MultisigTree
