import Mathlib.Data.List.InsertIdx
import MultisigTree.Proofs.Rankings

/-!
# The offer that a pass chooses

A pass asks the evaluator about the offers whose level is not settled, in the
order of their arrival and about each of them once (`Triage.Asked`). Of those with
a score it takes out the foremost (`Triage.Foremost`), and the others wait on in
their order (`Backlog.chosen_is_foremost`).

Triage first makes a list of the offers it keeps and then chooses from it. A
single walk through the offers that remembers no more than the place of the
foremost so far comes to the same, and never looks up a place that is not there
(`Scan.select_eq`).
-/
namespace MultisigTree

variable {κ σ : Type}

namespace Triage

variable {settled : Offer σ → Bool} {o : Offer σ}
variable {es others : List (Evaluation σ)} {e chosen chosen' : Evaluation σ} {place place' : Nat}

theorem look_cons_of_settled (score : List (Evaluation σ) → Offer σ → Score)
    (evaluations : List (Evaluation σ)) (offers : List (Offer σ)) (h : settled o = true) :
    (look settled score evaluations (o :: offers)).kept =
        (look settled score evaluations offers).kept ∧
      (look settled score evaluations (o :: offers)).evaluations =
        (look settled score evaluations offers).evaluations := by
  rw [look, if_pos h]
  exact ⟨rfl, rfl⟩

theorem look_cons_of_unsettled (score : List (Evaluation σ) → Offer σ → Score)
    (evaluations : List (Evaluation σ)) (offers : List (Offer σ)) (h : settled o = false) :
    (look settled score evaluations (o :: offers)).kept =
        (if score evaluations o = 0 then [] else [⟨o, score evaluations o⟩]) ++
          (look settled score (⟨o, score evaluations o⟩ :: evaluations) offers).kept ∧
      (look settled score evaluations (o :: offers)).evaluations =
        (look settled score (⟨o, score evaluations o⟩ :: evaluations) offers).evaluations := by
  rw [look, if_neg (by rw [h]; decide)]
  dsimp only
  split
  · exact ⟨rfl, rfl⟩
  · exact ⟨rfl, rfl⟩

/-- The evaluation at `place` is the first by score, by level and by arrival: none
has a higher score, none of its score a lower level, and of those with its score
and its level none came before it. -/
structure Foremost (es : List (Evaluation σ)) (place : Nat) (chosen : Evaluation σ) : Prop where
  found : es[place]? = some chosen
  score_le : ∀ e ∈ es, e.score ≤ chosen.score
  level_le : ∀ e ∈ es, e.score = chosen.score → chosen.offer.level ≤ e.offer.level
  place_le : ∀ i e, es[i]? = some e → e.score = chosen.score →
    e.offer.level = chosen.offer.level → place ≤ i

/-- The foremost is led by none and leads whatever came before it. -/
theorem foremost_iff : Foremost es place chosen ↔ es[place]? = some chosen ∧
    (∀ e ∈ es, ¬ leads e chosen = true) ∧
    ∀ i e, i < place → es[i]? = some e → leads chosen e = true := by
  constructor
  · intro h
    refine ⟨h.found, fun e he => not_leads_iff.2 ⟨h.score_le e he, h.level_le e he⟩,
      fun i e hi he => ?_⟩
    by_contra hleads
    obtain ⟨hscore, hlevel⟩ := not_leads_iff.1 hleads
    have hmem := List.mem_of_getElem? he
    have hscore' := Nat.le_antisymm (h.score_le e hmem) hscore
    have hlevel' := UInt8.le_antisymm (hlevel hscore'.symm) (h.level_le e hmem hscore')
    exact absurd hi (Nat.not_lt.2 (h.place_le i e he hscore' hlevel'))
  · rintro ⟨hfound, hunled, hfirst⟩
    refine ⟨hfound, fun e he => (not_leads_iff.1 (hunled e he)).1,
      fun e he => (not_leads_iff.1 (hunled e he)).2, fun i e he hscore hlevel => ?_⟩
    by_contra hi
    rcases leads_iff.1 (hfirst i e (Nat.lt_of_not_le hi) he) with hlt | ⟨-, hlt⟩
    · exact absurd hscore (Nat.ne_of_lt hlt)
    · exact absurd hlevel.symm (UInt8.ne_of_lt hlt)

namespace Foremost

theorem singleton (e : Evaluation σ) : Foremost [e] 0 e := by
  rw [foremost_iff]
  refine ⟨rfl, fun e' he => ?_, fun i e' hi => absurd hi (Nat.not_lt_zero i)⟩
  rw [List.mem_singleton.1 he]
  exact leads_irrefl e

theorem unique (h : Foremost es place chosen) (h' : Foremost es place' chosen') :
    place = place' ∧ chosen = chosen' := by
  rw [foremost_iff] at h h'
  obtain ⟨hfound, hunled, hfirst⟩ := h
  obtain ⟨hfound', hunled', hfirst'⟩ := h'
  have hplace : place = place' := by
    rcases Nat.lt_trichotomy place place' with hlt | heq | hgt
    · exact absurd (hfirst' place chosen hlt hfound)
        (hunled chosen' (List.mem_of_getElem? hfound'))
    · exact heq
    · exact absurd (hfirst place' chosen' hgt hfound')
        (hunled' chosen (List.mem_of_getElem? hfound))
  subst hplace
  exact ⟨rfl, Option.some.inj (hfound.symm.trans hfound')⟩

theorem cons_of_leads (h : Foremost es place chosen) (hleads : leads chosen e = true) :
    Foremost (e :: es) (place + 1) chosen := by
  rw [foremost_iff] at h ⊢
  obtain ⟨hfound, hunled, hfirst⟩ := h
  refine ⟨hfound, ?_, ?_⟩
  · exact List.forall_mem_cons.2 ⟨leads_asymm hleads, hunled⟩
  · intro i e' hi he'
    cases i with
    | zero => exact Option.some.inj he' ▸ hleads
    | succ i => exact hfirst i e' (Nat.lt_of_succ_lt_succ hi) he'

theorem cons_of_not_leads (h : Foremost es place chosen) (hleads : ¬ leads chosen e = true) :
    Foremost (e :: es) 0 e := by
  rw [foremost_iff] at h ⊢
  refine ⟨rfl, ?_, fun i e' hi => absurd hi (Nat.not_lt_zero i)⟩
  refine List.forall_mem_cons.2 ⟨leads_irrefl e, fun e' he' hleads' => ?_⟩
  -- what leads `e` would lead `chosen`, as `chosen` does not lead `e`
  exact (leads_or_leads hleads' chosen).elim (h.2.1 e' he') hleads

theorem concat_of_leads (h : Foremost es place chosen) (hleads : leads e chosen = true) :
    Foremost (es ++ [e]) es.length e := by
  rw [foremost_iff] at h ⊢
  -- none of `es` is before `chosen`, so all of them are behind `e`
  have hfirst : ∀ e' ∈ es, leads e e' = true := fun e' he' =>
    (leads_or_leads hleads e').resolve_right (h.2.1 e' he')
  refine ⟨List.getElem?_concat_length, ?_, fun i e' hi he' => ?_⟩
  · refine List.forall_mem_append.2 ⟨fun e' he' => leads_asymm (hfirst e' he'), fun e' he' => ?_⟩
    rw [List.mem_singleton.1 he']
    exact leads_irrefl e
  · rw [List.getElem?_append_left hi] at he'
    exact hfirst e' (List.mem_of_getElem? he')

theorem concat_of_not_leads (h : Foremost es place chosen) (hleads : ¬ leads e chosen = true) :
    Foremost (es ++ [e]) place chosen := by
  rw [foremost_iff] at h ⊢
  obtain ⟨hfound, hunled, hfirst⟩ := h
  have hlt : place < es.length := (List.getElem?_eq_some_iff.1 hfound).1
  refine ⟨?_, ?_, fun i e' hi he' => hfirst i e' hi ?_⟩
  · rw [List.getElem?_append_left hlt]
    exact hfound
  · refine List.forall_mem_append.2 ⟨hunled, fun e' he' => ?_⟩
    rw [List.mem_singleton.1 he']
    exact hleads
  · rwa [List.getElem?_append_left (Nat.lt_trans hi hlt)] at he'

end Foremost

/-- What is chosen is the foremost, and the others are left in their order. -/
theorem foremost_of_choose (h : choose es = some (chosen, others)) :
    ∃ place, Foremost es place chosen ∧ others = es.eraseIdx place := by
  induction es generalizing chosen others with
  | nil => cases h
  | cons e rest ih =>
      rw [choose] at h
      split at h
      · rename_i hnone
        obtain rfl := choose_eq_none_iff.1 hnone
        cases h
        exact ⟨0, .singleton e, rfl⟩
      · rename_i best others' hsome
        obtain ⟨place, hforemost, rfl⟩ := ih hsome
        split at h
        · rename_i hleads
          cases h
          exact ⟨place + 1, hforemost.cons_of_leads hleads, rfl⟩
        · rename_i hleads
          cases h
          exact ⟨0, hforemost.cons_of_not_leads hleads, rfl⟩

def outcome (es : List (Evaluation σ)) : Option (Offer σ) × List (Offer σ) :=
  match choose es with
  | none => (none, [])
  | some (chosen, others) => (some chosen.offer, others.map (·.offer))

theorem outcome_of_foremost (h : Foremost es place chosen) :
    outcome es = (some chosen.offer, (es.eraseIdx place).map (·.offer)) := by
  unfold outcome
  split
  · rename_i hnone
    obtain rfl := choose_eq_none_iff.1 hnone
    cases h.found
  · rename_i chosen' others hsome
    obtain ⟨place', hforemost, rfl⟩ := foremost_of_choose hsome
    obtain ⟨rfl, rfl⟩ := h.unique hforemost
    rfl

theorem foremost_of_outcome {o : Offer σ} {rest : List (Offer σ)}
    (h : outcome es = (some o, rest)) :
    ∃ place chosen, Foremost es place chosen ∧ o = chosen.offer ∧
      rest = (es.eraseIdx place).map (·.offer) := by
  unfold outcome at h
  split at h
  · cases h
  · rename_i chosen others hsome
    obtain ⟨place, hforemost, rfl⟩ := foremost_of_choose hsome
    cases h
    exact ⟨place, chosen, hforemost, rfl, rfl⟩

theorem outcome_fst_eq_none_iff : (outcome es).1 = none ↔ es = [] := by
  rw [← choose_eq_none_iff, outcome]
  split
  · rename_i hnone
    simp [hnone]
  · rename_i hsome
    simp [hsome]

end Triage

/-- How a walk through the offers stands: the offers kept, in the order of their
arrival, the score and the place of the foremost of them, and every evaluation
made, the latest first. -/
structure Scan (σ : Type) where
  kept : List (Offer σ)
  foremost : Option (Score × Nat)
  evaluations : List (Evaluation σ)

namespace Scan

open Triage

/-- Whether an offer of the score `found` comes before the foremost so far. -/
def overtakes (s : Scan σ) (o : Offer σ) (found : Score) : Except Crash Bool :=
  match s.foremost with
  | none => .ok true
  | some (score, place) =>
      match s.kept[place]? with
      | some current => .ok (score < found || (found == score && o.level < current.level))
      | none => .error (.indexBeyond place s.kept.length)

/-- Goes on to the next offer. One that is let go takes up no place. -/
def visit (settled : Offer σ → Bool) (score : List (Evaluation σ) → Offer σ → Score)
    (s : Scan σ) (o : Offer σ) : Except Crash (Scan σ) :=
  if settled o then .ok s
  else
    let found := score s.evaluations o
    let evaluations := ⟨o, found⟩ :: s.evaluations
    if found = 0 then .ok { s with evaluations }
    else do
      let better ← s.overtakes o found
      let foremost := if better then some (found, s.kept.length) else s.foremost
      return ⟨s.kept ++ [o], foremost, evaluations⟩

/-- Takes the foremost offer out of those kept. -/
def finish (s : Scan σ) : Except Crash (Option (Offer σ) × List (Offer σ)) :=
  match s.foremost with
  | none => .ok (none, s.kept)
  | some (_, place) =>
      match s.kept[place]? with
      | some o => .ok (some o, s.kept.eraseIdx place)
      | none => .error (.indexBeyond place s.kept.length)

/-- The offer chosen in a single walk and the others kept, and every evaluation
made. -/
def select (settled : Offer σ → Bool) (score : List (Evaluation σ) → Offer σ → Score)
    (before : List (Evaluation σ)) (offers : List (Offer σ)) :
    Except Crash ((Option (Offer σ) × List (Offer σ)) × List (Evaluation σ)) := do
  let s ← offers.foldlM (visit settled score) ⟨[], none, before⟩
  let chosen ← s.finish
  return (chosen, s.evaluations)

variable {settled : Offer σ → Bool} {score : List (Evaluation σ) → Offer σ → Score}
variable {s : Scan σ} {es : List (Evaluation σ)} {e : Evaluation σ} {o : Offer σ}

inductive Follows : Scan σ → List (Evaluation σ) → Prop
  | nothing (evaluations : List (Evaluation σ)) : Follows ⟨[], none, evaluations⟩ []
  | foremost {es : List (Evaluation σ)} {place : Nat} {chosen : Evaluation σ}
      (h : Foremost es place chosen) (evaluations : List (Evaluation σ)) :
      Follows ⟨es.map (·.offer), some (chosen.score, place), evaluations⟩ es

theorem visit_of_settled (score : List (Evaluation σ) → Offer σ → Score) (s : Scan σ)
    (hsettled : settled o = true) : s.visit settled score o = .ok s :=
  if_pos hsettled

theorem visit_of_useless (hsettled : settled o = false) (hzero : score s.evaluations o = 0) :
    s.visit settled score o = .ok { s with evaluations := ⟨o, 0⟩ :: s.evaluations } := by
  rw [visit, hsettled, hzero]
  rfl

theorem Follows.of_useless (h : Follows s es) (evaluations : List (Evaluation σ)) :
    Follows { s with evaluations } es := by
  cases h with
  | nothing => exact .nothing evaluations
  | foremost h => exact .foremost h evaluations

theorem overtakes_eq {place : Nat} {chosen : Evaluation σ} (h : Foremost es place chosen)
    (evaluations : List (Evaluation σ)) (e : Evaluation σ) :
    overtakes ⟨es.map (·.offer), some (chosen.score, place), evaluations⟩ e.offer e.score =
      .ok (leads e chosen) := by
  simp only [overtakes, List.getElem?_map, h.found, Option.map_some]
  rfl

/-- An offer with a score is put behind those kept, and the walk knows the foremost
again. -/
theorem Follows.visit_useful (h : Follows s es) (hsettled : settled e.offer = false)
    (hfound : score s.evaluations e.offer = e.score) (hscore : e.score ≠ 0) :
    ∃ s', s.visit settled score e.offer = .ok s' ∧ s'.evaluations = e :: s.evaluations ∧
      Follows s' (es ++ [e]) := by
  rw [visit, hsettled, if_neg Bool.false_ne_true]
  dsimp only
  rw [hfound, if_neg hscore]
  cases h with
  | nothing evaluations => exact ⟨_, rfl, rfl, .foremost (.singleton e) _⟩
  | foremost hforemost evaluations =>
      rw [overtakes_eq hforemost]
      refine ⟨_, rfl, rfl, ?_⟩
      have hkept : es.map (·.offer) ++ [e.offer] = (es ++ [e]).map (·.offer) := by
        rw [List.map_append, List.map_singleton]
      rw [hkept, List.length_map]
      split
      · rename_i hleads
        exact .foremost (hforemost.concat_of_leads hleads) _
      · rename_i hleads
        exact .foremost (hforemost.concat_of_not_leads hleads) _

/-- A walk does not crash, and keeps what a look keeps. -/
theorem Follows.walk (h : Follows s es) (settled : Offer σ → Bool)
    (score : List (Evaluation σ) → Offer σ → Score) (offers : List (Offer σ)) :
    ∃ s', offers.foldlM (visit settled score) s = .ok s' ∧
      s'.evaluations = (look settled score s.evaluations offers).evaluations ∧
      Follows s' (es ++ (look settled score s.evaluations offers).kept) := by
  -- `es` are the evaluations of the offers kept before; a look at the rest starts from
  -- the evaluations that the walk has made by then
  induction offers generalizing s es with
  | nil => exact ⟨s, rfl, rfl, by rwa [look, List.append_nil]⟩
  | cons o rest ih =>
      rw [List.foldlM_cons]
      cases hsettled : settled o with
      | true =>
          obtain ⟨hkept, hmade⟩ := look_cons_of_settled score s.evaluations rest hsettled
          rw [hkept, hmade, visit_of_settled score s hsettled]
          exact ih h
      | false =>
          obtain ⟨hkept, hmade⟩ := look_cons_of_unsettled score s.evaluations rest hsettled
          rw [hkept, hmade]
          by_cases hscore : score s.evaluations o = 0
          · rw [visit_of_useless hsettled hscore, if_pos hscore, hscore]
            exact ih (h.of_useless _)
          · obtain ⟨s₁, hvisit, hevaluations, hfollows⟩ :=
              h.visit_useful (e := ⟨o, score s.evaluations o⟩) hsettled rfl hscore
            rw [hvisit, if_neg hscore, ← List.append_assoc, ← hevaluations]
            exact ih hfollows

theorem Follows.finish_eq (h : Follows s es) : s.finish = .ok (outcome es) := by
  cases h with
  | nothing => rfl
  | foremost hforemost =>
      simp only [finish, List.getElem?_map, hforemost.found, Option.map_some]
      rw [outcome_of_foremost hforemost, List.eraseIdx_map]

/-- A single walk comes to the same as a look and a choice from what it keeps. -/
theorem select_eq (settled : Offer σ → Bool) (score : List (Evaluation σ) → Offer σ → Score)
    (before : List (Evaluation σ)) (offers : List (Offer σ)) :
    select settled score before offers =
      .ok (outcome (look settled score before offers).kept,
        (look settled score before offers).evaluations) := by
  obtain ⟨s, hwalk, hevaluations, hfollows⟩ :=
    (Follows.nothing before).walk settled score offers
  rw [List.nil_append] at hfollows
  simp only [select, hwalk, hfollows.finish_eq, hevaluations, bind, Except.bind]
  rfl

end Scan

namespace Backlog

variable {v : Verifier κ σ} {evaluator : Evaluator σ} {holdings : Holdings σ}
variable {b b' : Backlog σ} {done : Pass σ}

def unsettled (v : Verifier κ σ) (b : Backlog σ) : List (Offer σ) :=
  b.waiting.filter fun o => !isSettled v.place b.resolved o.level.toNat

def scan (v : Verifier κ σ) (evaluator : Evaluator σ) (holdings : Holdings σ) (b : Backlog σ) :
    Except Crash ((Option (Offer σ) × List (Offer σ)) × List (Evaluation σ)) :=
  Scan.select (fun o => isSettled v.place b.resolved o.level.toNat)
    (fun evaluations o => evaluator evaluations holdings o) b.evaluations b.waiting

theorem scan_eq (v : Verifier κ σ) (evaluator : Evaluator σ) (holdings : Holdings σ)
    (b : Backlog σ) : b.scan v evaluator holdings =
      .ok (Triage.outcome (b.triage v evaluator holdings).kept,
        (b.triage v evaluator holdings).evaluations) :=
  Scan.select_eq _ _ _ _

theorem asked_of_triage (v : Verifier κ σ) (evaluator : Evaluator σ) (holdings : Holdings σ)
    (b : Backlog σ) :
    ∃ made, Triage.Asked (fun before o => evaluator before holdings o) b.evaluations
        (b.unsettled v) made ∧
      (b.triage v evaluator holdings).kept = made.filter (·.score ≠ 0) ∧
      (b.triage v evaluator holdings).evaluations = made.reverse ++ b.evaluations := by
  obtain ⟨made, hasked, hlook⟩ :=
    Triage.look_spec (fun o => isSettled v.place b.resolved o.level.toNat)
      (fun before o => evaluator before holdings o) b.evaluations b.waiting
  exact ⟨made, hasked, congrArg Triage.kept hlook, congrArg Triage.evaluations hlook⟩

/-- A pass verifies the offer chosen and leaves the others pending. -/
theorem outcome_of_pass (h : b.pass v evaluator holdings = .ok (b', done))
    (hrunning : b.phase = .running) :
    Triage.outcome (b.triage v evaluator holdings).kept = (done.verdict.map (·.offer), b'.pending) ∧
      b'.evaluations = (b.triage v evaluator holdings).evaluations := by
  cases passing_of_pass h with
  | idle hidle => exact absurd hrunning hidle
  | nothing _ hkept =>
      rw [hkept]
      exact ⟨rfl, rfl⟩
  | genuine chosen others _ hchoose _ =>
      rw [Triage.outcome, hchoose]
      exact ⟨rfl, rfl⟩
  | forged chosen others fault _ hchoose _ =>
      rw [Triage.outcome, hchoose]
      exact ⟨rfl, rfl⟩

/-- What one pass chooses, whatever waits, whatever is resolved and whatever scores
the evaluator finds. It asks about each offer whose level is not settled, once and
in the order of arrival. If it finds no score but 0, nothing is chosen. Otherwise
the offer of the highest score is, of those the one on the lowest level, and of
those the one that came first; the others with a score stay pending in their order.
A single walk that remembers the place of the foremost offer comes to the same. -/
theorem chosen_is_foremost (v : Verifier κ σ) (evaluator : Evaluator σ) (holdings : Holdings σ)
    {b : Backlog σ} (hrunning : b.phase = .running) :
    ∃ (b' : Backlog σ) (done : Pass σ) (made useful : List (Evaluation σ)),
      b.pass v evaluator holdings = .ok (b', done) ∧
      b'.evaluations = made.reverse ++ b.evaluations ∧
      Triage.Asked (fun before o => evaluator before holdings o) b.evaluations (b.unsettled v)
        made ∧
      useful = made.filter (·.score ≠ 0) ∧
      (done.verdict = none ↔ ∀ e ∈ made, e.score = 0) ∧
      (done.verdict = none → b'.pending = []) ∧
      (∀ verdict, done.verdict = some verdict → ∃ place chosen,
        Triage.Foremost useful place chosen ∧ verdict.offer = chosen.offer ∧
        b'.pending = (useful.eraseIdx place).map (·.offer)) ∧
      b.scan v evaluator holdings =
        .ok ((done.verdict.map (·.offer), b'.pending), b'.evaluations) := by
  obtain ⟨b', done, hpass⟩ := exists_pass v evaluator holdings b
  obtain ⟨houtcome, hevaluations⟩ := outcome_of_pass hpass hrunning
  obtain ⟨made, hasked, hkept, hmade⟩ := b.asked_of_triage v evaluator holdings
  have hscan := b.scan_eq v evaluator holdings
  rw [houtcome, ← hevaluations] at hscan
  rw [hkept] at houtcome
  have hnone : done.verdict = none ↔ made.filter (·.score ≠ 0) = [] := by
    rw [← Triage.outcome_fst_eq_none_iff, houtcome, Option.map_eq_none_iff]
  refine ⟨b', done, made, _, hpass, hevaluations.trans hmade, hasked, rfl, ?_, ?_, ?_, hscan⟩
  · rw [hnone, List.filter_eq_nil_iff]
    simp
  · intro hverdict
    rw [hnone.1 hverdict] at houtcome
    exact (congrArg Prod.snd houtcome).symm
  · intro verdict hverdict
    rw [hverdict] at houtcome
    exact Triage.foremost_of_outcome houtcome

/-- Eight offers wait at the first of two members, and the evaluator finds a score
for each call. It is not asked about the third offer, as that level is settled. Of
the three best offers the two on level 0 are before the one that came first, and
the earlier of them is verified. Offers of score 0 are let go before it, between
the others and behind it. -/
theorem chosen_is_foremost_of_eight :
    ∃ (v : Verifier IdSet Plain.Signature) (evaluator : Evaluator Plain.Signature)
      (ignored low stale high own again : Offer Plain.Signature) (b b' : Backlog Plain.Signature)
      (done : Pass Plain.Signature) (useful : List (Evaluation Plain.Signature)),
      v = ⟨Plain.scheme, Plain.pair, ⟨2, 0, by decide⟩, [7]⟩ ∧
      evaluator = (fun before _ _ => [0, 1, 2, 0, 2, 2, 0].getD before.length 0) ∧
      ignored = ⟨9, 1, ⟨.ofList 1 [0], Plain.sign 1⟩⟩ ∧
      low = ⟨1, 1, ⟨.ofList 1 [0], Plain.sign 1⟩⟩ ∧
      stale = ⟨1, 2, ⟨.ofList 2 [1], Plain.sign 1⟩⟩ ∧
      high = ⟨5, 1, ⟨.ofList 1 [0], Plain.sign 1⟩⟩ ∧
      own = ⟨0, 0, ⟨.ofList 1 [0], Plain.sign 0⟩⟩ ∧
      again = ⟨6, 0, ⟨.ofList 1 [0], Plain.sign 0⟩⟩ ∧
      b = ⟨.running, [high, ignored, own, again, ignored], [ignored, low, stale],
        LevelMap.empty.insert 2 2, []⟩ ∧
      b.phase = .running ∧ b.pass v evaluator .empty = .ok (b', done) ∧
      b'.evaluations = [⟨ignored, 0⟩, ⟨again, 2⟩, ⟨own, 2⟩, ⟨ignored, 0⟩, ⟨high, 2⟩, ⟨low, 1⟩,
        ⟨ignored, 0⟩] ∧
      useful = [⟨low, 1⟩, ⟨high, 2⟩, ⟨own, 2⟩, ⟨again, 2⟩] ∧
      done.verdict = some (.genuine own) ∧ b'.pending = [low, high, again] ∧
      (∃ place chosen, Triage.Foremost useful place chosen ∧ own = chosen.offer ∧
        [low, high, again] = (useful.eraseIdx place).map (·.offer)) ∧
      b.scan v evaluator .empty = .ok ((some own, [low, high, again]), b'.evaluations) := by
  obtain ⟨v, hv⟩ : ∃ v : Verifier IdSet Plain.Signature,
      v = ⟨Plain.scheme, Plain.pair, ⟨2, 0, by decide⟩, [7]⟩ := ⟨_, rfl⟩
  obtain ⟨evaluator, hevaluator⟩ : ∃ evaluator : Evaluator Plain.Signature,
      evaluator = fun before _ _ => [0, 1, 2, 0, 2, 2, 0].getD before.length 0 := ⟨_, rfl⟩
  obtain ⟨ignored, hignored⟩ : ∃ o : Offer Plain.Signature,
      o = ⟨9, 1, ⟨.ofList 1 [0], Plain.sign 1⟩⟩ := ⟨_, rfl⟩
  obtain ⟨low, hlow⟩ : ∃ o : Offer Plain.Signature,
      o = ⟨1, 1, ⟨.ofList 1 [0], Plain.sign 1⟩⟩ := ⟨_, rfl⟩
  obtain ⟨stale, hstale⟩ : ∃ o : Offer Plain.Signature,
      o = ⟨1, 2, ⟨.ofList 2 [1], Plain.sign 1⟩⟩ := ⟨_, rfl⟩
  obtain ⟨high, hhigh⟩ : ∃ o : Offer Plain.Signature,
      o = ⟨5, 1, ⟨.ofList 1 [0], Plain.sign 1⟩⟩ := ⟨_, rfl⟩
  obtain ⟨own, hown⟩ : ∃ o : Offer Plain.Signature,
      o = ⟨0, 0, ⟨.ofList 1 [0], Plain.sign 0⟩⟩ := ⟨_, rfl⟩
  obtain ⟨again, hagain⟩ : ∃ o : Offer Plain.Signature,
      o = ⟨6, 0, ⟨.ofList 1 [0], Plain.sign 0⟩⟩ := ⟨_, rfl⟩
  obtain ⟨b, hb⟩ : ∃ b : Backlog Plain.Signature,
      b = ⟨.running, [high, ignored, own, again, ignored], [ignored, low, stale],
        LevelMap.empty.insert 2 2, []⟩ := ⟨_, rfl⟩
  have hrunning : b.phase = .running := by rw [hb]
  obtain ⟨b', done, made, useful, hpass, hmade, -, huseful, -, -, hchosen, hscan⟩ :=
    chosen_is_foremost v evaluator .empty hrunning
  have hresult : (b.pass v evaluator .empty).toOption.map
      (fun r => (r.1.evaluations, r.1.pending, r.2.verdict)) =
      some ([⟨ignored, 0⟩, ⟨again, 2⟩, ⟨own, 2⟩, ⟨ignored, 0⟩, ⟨high, 2⟩, ⟨low, 1⟩, ⟨ignored, 0⟩],
        [low, high, again], some (.genuine own)) := by
    rw [hb, hv, hevaluator, hignored, hlow, hstale, hhigh, hown, hagain]
    decide
  rw [hpass] at hresult
  simp only [Except.toOption, Option.map_some, Option.some.injEq, Prod.mk.injEq] at hresult
  obtain ⟨hevaluations, hpending, hverdict⟩ := hresult
  have hnothing : b.evaluations = [] := by rw [hb]
  rw [hevaluations, hnothing, List.append_nil] at hmade
  have hforemost := hchosen _ hverdict
  rw [hpending] at hforemost
  rw [hverdict, hpending] at hscan
  refine ⟨v, evaluator, ignored, low, stale, high, own, again, b, b', done, useful, hv, hevaluator,
    hignored, hlow, hstale, hhigh, hown, hagain, hb, hrunning, hpass, hevaluations, ?_, hverdict,
    hpending, hforemost, hscan⟩
  rw [huseful, List.reverse_eq_iff.1 hmade.symm]
  rfl

end Backlog

end MultisigTree
