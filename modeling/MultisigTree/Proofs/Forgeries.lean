import Mathlib.Data.List.Forall2
import MultisigTree.Proofs.Rankings

/-!
# Forged offers change nothing but the reports

A desk takes in batches of offers and works each of them off before the next. If
forged offers are put in between the others, however high they score, they are
looked at and reported; but the other offers keep their rank, and no level is
settled by a forged one. So with every task the desk publishes the same
(`Desk.published_despite_forgeries`).
-/
namespace MultisigTree

/-- `more` is `less` with some junk put in between, anywhere. -/
inductive Padded {α : Type} (junk : α → Prop) : List α → List α → Prop
  | nil : Padded junk [] []
  | keep (a : α) {more less : List α} : Padded junk more less → Padded junk (a :: more) (a :: less)
  | pad {a : α} {more less : List α} : junk a → Padded junk more less →
      Padded junk (a :: more) less

namespace Padded

variable {α : Type} {junk : α → Prop} {more less more' less' : List α}

theorem refl (junk : α → Prop) (l : List α) : Padded junk l l := by
  induction l with
  | nil => exact .nil
  | cons a l ih => exact .keep a ih

theorem append (h : Padded junk more less) (h' : Padded junk more' less') :
    Padded junk (more ++ more') (less ++ less') := by
  induction h with
  | nil => exact h'
  | keep a _ ih => exact .keep a ih
  | pad ha _ ih => exact .pad ha ih

theorem sublist (h : Padded junk more less) : less.Sublist more := by
  induction h with
  | nil => exact .slnil
  | keep a _ ih => exact ih.cons_cons a
  | pad _ _ ih => exact ih.cons _

theorem filter (h : Padded junk more less) (p : α → Bool) :
    Padded junk (more.filter p) (less.filter p) := by
  induction h with
  | nil => exact .nil
  | keep a _ ih =>
      rw [List.filter_cons, List.filter_cons]
      split
      · exact .keep a ih
      · exact ih
  | pad ha _ ih =>
      rw [List.filter_cons]
      split
      · exact .pad ha ih
      · exact ih

/-- What keeps no junk does not see the padding. -/
theorem filterMap_eq {β : Type} {f : α → Option β} (hjunk : ∀ a, junk a → f a = none)
    (h : Padded junk more less) : more.filterMap f = less.filterMap f := by
  induction h with
  | nil => rfl
  | keep a _ ih => rw [List.filterMap_cons, List.filterMap_cons, ih]
  | pad ha _ ih => rw [List.filterMap_cons_none (hjunk _ ha), ih]

/-- In a sorted list a new entry finds the same place with the padding and
without it. -/
theorem orderedInsert {r : α → α → Prop} [DecidableRel r] [IsTrans α r]
    (h : Padded junk more less) (hsorted : more.Pairwise r) (a : α) :
    Padded junk (more.orderedInsert r a) (less.orderedInsert r a) := by
  induction h with
  | nil => exact .keep a .nil
  | @keep b more less hless ih =>
      rw [List.orderedInsert_cons, List.orderedInsert_cons]
      split
      · exact .keep a (.keep b hless)
      · exact .keep b (ih (List.pairwise_cons.1 hsorted).2)
  | @pad b more less hb hless ih =>
      obtain ⟨hfirst, hmore⟩ := List.pairwise_cons.1 hsorted
      rw [List.orderedInsert_cons]
      split
      · rename_i hab
        -- the entry goes before the junk, so without it before all that comes after
        have hall : ∀ c ∈ less, r a c := fun c hc =>
          IsTrans.trans a b c hab (hfirst c (hless.sublist.subset hc))
        rw [List.orderedInsert_of_forall hall]
        exact .keep a (.pad hb hless)
      · exact .pad hb (ih hmore)

theorem orderedInsert_junk {r : α → α → Prop} [DecidableRel r] (h : Padded junk more less)
    {a : α} (ha : junk a) : Padded junk (more.orderedInsert r a) less := by
  induction h with
  | nil => exact .pad ha .nil
  | keep b hless ih =>
      rw [List.orderedInsert_cons]
      split
      · exact .pad ha (.keep b hless)
      · exact .keep b ih
  | pad hb hless ih =>
      rw [List.orderedInsert_cons]
      split
      · exact .pad ha (.pad hb hless)
      · exact .pad hb ih

/-- A stable sort leaves the padding in between, wherever it comes to stand. -/
theorem insertionSort {r : α → α → Prop} [DecidableRel r] [Std.Total r] [IsTrans α r]
    (h : Padded junk more less) : Padded junk (more.insertionSort r) (less.insertionSort r) := by
  induction h with
  | nil => exact .nil
  | keep a _ ih => exact ih.orderedInsert (List.pairwise_insertionSort r _) a
  | pad ha _ ih => exact ih.orderedInsert_junk ha

end Padded

variable {κ σ : Type}

namespace Verifier

/-- The offer does not verify. -/
def Refuses (v : Verifier κ σ) (o : Offer σ) : Prop :=
  v.verify o ≠ .ok ()

theorem Refuses.exists_fault {v : Verifier κ σ} {o : Offer σ} (h : v.Refuses o) :
    ∃ fault, v.verify o = .error (.refused fault) := by
  cases hverify : v.verify o with
  | ok u => exact absurd hverify h
  | error failure =>
      cases failure with
      | refused fault => exact ⟨fault, rfl⟩
      | crashed crash => exact absurd hverify (v.verify_ne_crashed o crash)

end Verifier

namespace Verdict

def IsForged : Verdict σ → Prop
  | .genuine _ => False
  | .forged .. => True

def published (verdicts : List (Verdict σ)) : List (Offer σ) :=
  verdicts.filterMap fun
    | .genuine o => some o
    | .forged .. => none

theorem published_padded {verdicts verdicts' : List (Verdict σ)}
    (h : Padded IsForged verdicts verdicts') : published verdicts = published verdicts' := by
  refine h.filterMap_eq fun verdict hforged => ?_
  cases verdict with
  | genuine o => exact hforged.elim
  | forged o fault => rfl

end Verdict

namespace Backlog

variable {v : Verifier κ σ} {rate : Offer σ → Score} {more less : List (Offer σ)}
variable {b c : Backlog σ}

theorem padded_ranked (rate : Offer σ → Score) (h : Padded v.Refuses more less) :
    Padded v.Refuses (ranked rate more) (ranked rate less) :=
  (h.filter _).insertionSort

/-- A forged offer settles no level, so a review comes to the same without it. -/
theorem padded_review (h : Padded v.Refuses more less) (resolved : LevelMap Nat) :
    ∃ last verdicts verdicts', review v resolved more = .ok (last, verdicts) ∧
      review v resolved less = .ok (last, verdicts') ∧
      Padded Verdict.IsForged verdicts verdicts' := by
  induction h generalizing resolved with
  | nil => exact ⟨resolved, [], [], rfl, rfl, .nil⟩
  | keep o _ ih =>
      cases hopen : isSettled v.place resolved o.level.toNat with
      | true =>
          rw [review_settled hopen, review_settled hopen]
          exact ih resolved
      | false =>
          by_cases hverify : v.verify o = .ok ()
          · obtain ⟨last, verdicts, verdicts', hmore, hless, hpadded⟩ := ih (resolve resolved o)
            rw [review_genuine hopen hverify, review_genuine hopen hverify, hmore, hless]
            exact ⟨last, _, _, rfl, rfl, .keep _ hpadded⟩
          · obtain ⟨fault, hfault⟩ := Verifier.Refuses.exists_fault hverify
            obtain ⟨last, verdicts, verdicts', hmore, hless, hpadded⟩ := ih resolved
            rw [review_forged hopen hfault, review_forged hopen hfault, hmore, hless]
            exact ⟨last, _, _, rfl, rfl, .keep _ hpadded⟩
  | @pad o _ _ hforged _ ih =>
      cases hopen : isSettled v.place resolved o.level.toNat with
      | true =>
          rw [review_settled hopen]
          exact ih resolved
      | false =>
          obtain ⟨fault, hfault⟩ := hforged.exists_fault
          obtain ⟨last, verdicts, verdicts', hmore, hless, hpadded⟩ := ih resolved
          rw [review_forged hopen hfault, hmore]
          exact ⟨last, _, _, rfl, hless, .pad trivial hpadded⟩

/-- `b` is `c` but for forged offers that wait and the evaluations made. -/
structure PaddedBy (v : Verifier κ σ) (b c : Backlog σ) : Prop where
  phase_eq : b.phase = c.phase
  resolved_eq : b.resolved = c.resolved
  waiting : Padded v.Refuses b.waiting c.waiting

theorem settle_of_idle {evaluator : Evaluator σ} {holdings : Holdings σ}
    (h : b.phase ≠ .running) : b.settle v evaluator holdings = .ok (b, []) := by
  unfold settle
  cases b.load with
  | zero => rfl
  | succ count => exact if_pos (.inl h)

/-- Working off what waits comes to the same without the forged offers, but for
the verdicts on them. -/
theorem PaddedBy.settle (h : PaddedBy v b c) (score : Holdings σ → Offer σ → Score)
    (holdings : Holdings σ) :
    ∃ b' c' verdicts verdicts', b.settle v (fun _ => score) holdings = .ok (b', verdicts) ∧
      c.settle v (fun _ => score) holdings = .ok (c', verdicts') ∧ PaddedBy v b' c' ∧
      Padded Verdict.IsForged verdicts verdicts' := by
  by_cases hidle : b.phase ≠ .running
  · exact ⟨b, c, [], [], settle_of_idle hidle, settle_of_idle (h.phase_eq ▸ hidle), h, .nil⟩
  · have hrunning : b.phase = .running := Decidable.not_not.1 hidle
    have hrate : ∀ (before : List (Evaluation σ)) (o : Offer σ),
        (fun _ => score : Evaluator σ) before holdings o = score holdings o := fun _ _ => rfl
    obtain ⟨b', verdicts, hsettle, hphase, hnone, hreview⟩ :=
      settle_eq_review (v := v) hrunning hrate
    obtain ⟨c', verdicts', hsettle', hphase', hnone', hreview'⟩ :=
      settle_eq_review (v := v) (h.phase_eq ▸ hrunning) hrate
    -- both come to a review by rank of what waits, and so do not depend on the passes
    obtain ⟨last, verdicts₁, verdicts₂, hmore, hless, hpadded⟩ :=
      padded_review (padded_ranked (score holdings) h.waiting) b.resolved
    obtain ⟨hlast, rfl⟩ := Prod.mk.inj (Except.ok.inj (hreview.symm.trans hmore))
    rw [h.resolved_eq] at hless
    obtain ⟨hlast', rfl⟩ := Prod.mk.inj (Except.ok.inj (hreview'.symm.trans hless))
    refine ⟨b', c', verdicts, verdicts', hsettle, hsettle', ⟨?_, ?_, ?_⟩, hpadded⟩
    · rw [hphase, hphase']
    · rw [hlast, hlast']
    · rw [hnone, hnone']
      exact .nil

theorem PaddedBy.add (h : PaddedBy v b c) (o : Offer σ) : PaddedBy v (b.add o) (c.add o) := by
  unfold Backlog.add
  rw [h.phase_eq]
  split
  · exact h
  · refine ⟨rfl, h.resolved_eq, ?_⟩
    have hlast := h.waiting.append (.refl v.Refuses [o])
    rwa [Backlog.waiting, Backlog.waiting, List.append_assoc, List.append_assoc] at hlast

theorem PaddedBy.add_forged (h : PaddedBy v b c) {o : Offer σ} (ho : v.Refuses o) :
    PaddedBy v (b.add o) c := by
  unfold Backlog.add
  split
  · exact h
  · refine ⟨h.phase_eq, h.resolved_eq, ?_⟩
    have hlast := h.waiting.append (.pad ho .nil)
    rwa [Backlog.waiting, List.append_assoc, List.append_nil] at hlast

theorem PaddedBy.add_all (h : PaddedBy v b c) (hbatch : Padded v.Refuses more less) :
    PaddedBy v (more.foldl Backlog.add b) (less.foldl Backlog.add c) := by
  induction hbatch generalizing b c with
  | nil => exact h
  | keep o _ ih => exact ih (h.add o)
  | pad ho _ ih => exact ih (h.add_forged ho)

theorem PaddedBy.start (h : PaddedBy v b c) : PaddedBy v b.start c.start := by
  unfold Backlog.start
  rw [h.phase_eq]
  split
  · exact ⟨rfl, h.resolved_eq, h.waiting⟩
  · exact h

theorem PaddedBy.stop (h : PaddedBy v b c) : PaddedBy v b.stop c.stop :=
  ⟨rfl, h.resolved_eq, .nil⟩

end Backlog

/-- A backlog and what is held already, by which its offers are scored. -/
structure Desk (σ : Type) where
  backlog : Backlog σ
  holdings : Holdings σ

namespace Desk

inductive Task (σ : Type) where
  | add (batch : List (Offer σ))
  | start
  | stop
  | store (level : Nat) (m : Multisig σ)

def change (scheme : Scheme κ σ) (d : Desk σ) : Task σ → Desk σ
  | .add batch => { d with backlog := batch.foldl Backlog.add d.backlog }
  | .start => { d with backlog := d.backlog.start }
  | .stop => { d with backlog := d.backlog.stop }
  | .store level m => { d with holdings := (d.holdings.add scheme level m).2 }

/-- One task. All that waits then is worked off. -/
def step (v : Verifier κ σ) (evaluator : Evaluator σ) (d : Desk σ) (task : Task σ) :
    Except Crash (Desk σ × List (Verdict σ)) := do
  let d := d.change v.scheme task
  let (backlog, verdicts) ← d.backlog.settle v evaluator d.holdings
  return ({ d with backlog := backlog }, verdicts)

/-- The tasks one after the other, with the verdicts of each. -/
def run (v : Verifier κ σ) (evaluator : Evaluator σ) :
    List (Task σ) → Desk σ → Except Crash (Desk σ × List (List (Verdict σ)))
  | [], d => return (d, [])
  | task :: rest, d => do
      let (d, verdicts) ← d.step v evaluator task
      let (d, outcomes) ← run v evaluator rest d
      return (d, verdicts :: outcomes)

/-- The tasks are the same but for forged offers in the batch of the first. -/
inductive Task.PaddedBy (v : Verifier κ σ) : Task σ → Task σ → Prop
  | add {more less : List (Offer σ)} (h : Padded v.Refuses more less) :
      PaddedBy v (.add more) (.add less)
  | same (task : Task σ) : PaddedBy v task task

/-- The desks are the same but for forged offers that wait and the evaluations
made. -/
structure PaddedBy (v : Verifier κ σ) (d e : Desk σ) : Prop where
  backlog : Backlog.PaddedBy v d.backlog e.backlog
  holdings_eq : d.holdings = e.holdings

variable {v : Verifier κ σ} {d e : Desk σ} {task task' : Task σ} {tasks tasks' : List (Task σ)}

theorem PaddedBy.refl (v : Verifier κ σ) (d : Desk σ) : PaddedBy v d d :=
  ⟨⟨rfl, rfl, .refl _ _⟩, rfl⟩

theorem PaddedBy.change (h : PaddedBy v d e) (htask : Task.PaddedBy v task task') :
    PaddedBy v (d.change v.scheme task) (e.change v.scheme task') := by
  cases htask with
  | add hbatch => exact ⟨h.backlog.add_all hbatch, h.holdings_eq⟩
  | same =>
      cases task with
      | add batch => exact ⟨h.backlog.add_all (.refl _ batch), h.holdings_eq⟩
      | start => exact ⟨h.backlog.start, h.holdings_eq⟩
      | stop => exact ⟨h.backlog.stop, h.holdings_eq⟩
      | store level m => exact ⟨h.backlog, by rw [Desk.change, Desk.change, h.holdings_eq]⟩

theorem PaddedBy.step (h : PaddedBy v d e) (htask : Task.PaddedBy v task task')
    (score : Holdings σ → Offer σ → Score) :
    ∃ d' e' verdicts verdicts', d.step v (fun _ => score) task = .ok (d', verdicts) ∧
      e.step v (fun _ => score) task' = .ok (e', verdicts') ∧ PaddedBy v d' e' ∧
      Padded Verdict.IsForged verdicts verdicts' := by
  have hchange := h.change htask
  obtain ⟨b', c', verdicts, verdicts', hsettle, hsettle', hpadded, hverdicts⟩ :=
    hchange.backlog.settle score (d.change v.scheme task).holdings
  rw [hchange.holdings_eq] at hsettle'
  refine ⟨⟨b', _⟩, ⟨c', _⟩, verdicts, verdicts', ?_, ?_, ⟨hpadded, hchange.holdings_eq⟩,
    hverdicts⟩
  · simp only [Desk.step, hsettle]
    rfl
  · simp only [Desk.step, hsettle']
    rfl

theorem PaddedBy.run (h : PaddedBy v d e) (htasks : List.Forall₂ (Task.PaddedBy v) tasks tasks')
    (score : Holdings σ → Offer σ → Score) :
    ∃ d' e' outcomes outcomes', Desk.run v (fun _ => score) tasks d = .ok (d', outcomes) ∧
      Desk.run v (fun _ => score) tasks' e = .ok (e', outcomes') ∧ PaddedBy v d' e' ∧
      List.Forall₂ (Padded Verdict.IsForged) outcomes outcomes' := by
  induction htasks generalizing d e with
  | nil => exact ⟨d, e, [], [], rfl, rfl, h, .nil⟩
  | cons htask _ ih =>
      obtain ⟨d₁, e₁, verdicts, verdicts', hstep, hstep', h₁, hverdicts⟩ := h.step htask score
      obtain ⟨d', e', outcomes, outcomes', hrun, hrun', h', houtcomes⟩ := ih h₁
      refine ⟨d', e', verdicts :: outcomes, verdicts' :: outcomes', ?_, ?_, h',
        .cons hverdicts houtcomes⟩
      · rw [Desk.run, hstep]
        simp only [bind, Except.bind, hrun]
        rfl
      · rw [Desk.run, hstep']
        simp only [bind, Except.bind, hrun']
        rfl

theorem published_of_padded {outcomes outcomes' : List (List (Verdict σ))}
    (h : List.Forall₂ (Padded Verdict.IsForged) outcomes outcomes') :
    outcomes.map Verdict.published = outcomes'.map Verdict.published := by
  induction h with
  | nil => rfl
  | cons hverdicts _ ih =>
      rw [List.map_cons, List.map_cons, Verdict.published_padded hverdicts, ih]

/-- Forged offers put in between those of any batches do not change what is
published with any task, nor its order, if the score of an offer depends on
nothing but the offer and what is held. All else they do is to be reported, and
all reports made without them are made with them too. -/
theorem published_despite_forgeries (v : Verifier κ σ) (score : Holdings σ → Offer σ → Score)
    (h : List.Forall₂ (Task.PaddedBy v) tasks tasks') (d : Desk σ) :
    ∃ d' e' outcomes outcomes', run v (fun _ => score) tasks d = .ok (d', outcomes) ∧
      run v (fun _ => score) tasks' d = .ok (e', outcomes') ∧
      outcomes.map Verdict.published = outcomes'.map Verdict.published ∧
      List.Forall₂ (Padded Verdict.IsForged) outcomes outcomes' ∧
      d'.backlog.resolved = e'.backlog.resolved ∧ d'.holdings = e'.holdings := by
  obtain ⟨d', e', outcomes, outcomes', hrun, hrun', hpadded, houtcomes⟩ :=
    (PaddedBy.refl v d).run h score
  exact ⟨d', e', outcomes, outcomes', hrun, hrun', published_of_padded houtcomes, houtcomes,
    hpadded.backlog.resolved_eq, hpadded.holdings_eq⟩

/-- At the first of two members a forged offer comes before the genuine one of the
same score, and another is of the lower level: they are reported, and the genuine
offers are published as without them. The second copy of an offer taken in is of
no use. -/
theorem published_despite_forgeries_at_two_levels :
    ∃ (v : Verifier IdSet Plain.Signature) (genuine own forged forged' : Offer Plain.Signature)
      (tasks tasks' : List (Task Plain.Signature)) (d d' : Desk Plain.Signature)
      (outcomes outcomes' : List (List (Verdict Plain.Signature))),
      v = ⟨Plain.scheme, Plain.pair, ⟨2, 0, by decide⟩, [7]⟩ ∧
      genuine = ⟨1, 1, ⟨.ofList 1 [0], Plain.sign 1⟩⟩ ∧
      own = ⟨0, 0, ⟨.ofList 1 [0], Plain.sign 0⟩⟩ ∧
      forged = ⟨1, 1, ⟨.ofList 1 [0], ⟨.singleton 1, false⟩⟩⟩ ∧
      forged' = ⟨0, 0, ⟨.ofList 1 [0], Plain.sign 1⟩⟩ ∧
      tasks = [.add [forged, genuine], .start, .store 1 genuine.multisig,
        .add [genuine, forged', own], .stop] ∧
      tasks' = [.add [genuine], .start, .store 1 genuine.multisig, .add [genuine, own], .stop] ∧
      List.Forall₂ (Task.PaddedBy v) tasks tasks' ∧
      run v (fun _ => Holdings.evaluate) tasks ⟨.empty, .empty⟩ = .ok (d, outcomes) ∧
      run v (fun _ => Holdings.evaluate) tasks' ⟨.empty, .empty⟩ = .ok (d', outcomes') ∧
      outcomes.map Verdict.published = [[], [genuine], [], [own], []] ∧
      outcomes'.map Verdict.published = outcomes.map Verdict.published ∧
      outcomes = [[], [.forged forged (.scheme .invalidSignature), .genuine genuine], [],
        [.forged forged' (.scheme .invalidSignature), .genuine own], []] := by
  obtain ⟨v, hv⟩ : ∃ v : Verifier IdSet Plain.Signature,
      v = ⟨Plain.scheme, Plain.pair, ⟨2, 0, by decide⟩, [7]⟩ := ⟨_, rfl⟩
  obtain ⟨genuine, hgenuine⟩ : ∃ o : Offer Plain.Signature,
      o = ⟨1, 1, ⟨.ofList 1 [0], Plain.sign 1⟩⟩ := ⟨_, rfl⟩
  obtain ⟨own, hown⟩ : ∃ o : Offer Plain.Signature,
      o = ⟨0, 0, ⟨.ofList 1 [0], Plain.sign 0⟩⟩ := ⟨_, rfl⟩
  obtain ⟨forged, hforged⟩ : ∃ o : Offer Plain.Signature,
      o = ⟨1, 1, ⟨.ofList 1 [0], ⟨.singleton 1, false⟩⟩⟩ := ⟨_, rfl⟩
  obtain ⟨forged', hforged'⟩ : ∃ o : Offer Plain.Signature,
      o = ⟨0, 0, ⟨.ofList 1 [0], Plain.sign 1⟩⟩ := ⟨_, rfl⟩
  have hrefused : v.Refuses forged := by
    rw [Verifier.Refuses, hv, hforged]
    decide
  have hrefused' : v.Refuses forged' := by
    rw [Verifier.Refuses, hv, hforged']
    decide
  have htasks : List.Forall₂ (Task.PaddedBy v)
      [.add [forged, genuine], .start, .store 1 genuine.multisig, .add [genuine, forged', own],
        .stop]
      [.add [genuine], .start, .store 1 genuine.multisig, .add [genuine, own], .stop] :=
    .cons (.add (.pad hrefused (.refl _ _))) (.cons (.same _) (.cons (.same _)
      (.cons (.add (.keep genuine (.pad hrefused' (.refl _ _)))) (.cons (.same _) .nil))))
  obtain ⟨d, d', outcomes, outcomes', hrun, hrun', hpublished, -⟩ :=
    published_despite_forgeries v Holdings.evaluate htasks ⟨.empty, .empty⟩
  have houtcomes : (run v (fun _ => Holdings.evaluate)
      [.add [forged, genuine], .start, .store 1 genuine.multisig, .add [genuine, forged', own],
        .stop] ⟨.empty, .empty⟩).toOption.map (·.2) =
      some [[], [.forged forged (.scheme .invalidSignature), .genuine genuine], [],
        [.forged forged' (.scheme .invalidSignature), .genuine own], []] := by
    rw [hv, hgenuine, hown, hforged, hforged']
    decide +kernel
  rw [hrun] at houtcomes
  obtain rfl := Option.some.inj houtcomes
  exact ⟨v, genuine, own, forged, forged', _, _, d, d', _, outcomes', hv, hgenuine, hown, hforged,
    hforged', rfl, rfl, htasks, hrun, hrun', rfl, hpublished.symm, rfl⟩

end Desk

end MultisigTree
