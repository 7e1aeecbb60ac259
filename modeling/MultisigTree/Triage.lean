import MultisigTree.Holdings

/-!
# Triage

Offers wait to be verified, and verifying is dear. Triage looks at each of
them once, in the order of arrival. Offers of levels that are settled and
offers of score 0 are let go; of the others one is chosen: the highest score,
then the lowest level, then the earliest arrival.
-/
namespace MultisigTree

structure Evaluation (σ : Type) where
  offer : Offer σ
  score : Score
  deriving DecidableEq

/-- Scores an offer, given the evaluations made before, the latest first, and
what is held. -/
abbrev Evaluator (σ : Type) := List (Evaluation σ) → Holdings σ → Offer σ → Score

namespace Evaluator

variable {σ : Type}

def byGain : Evaluator σ := fun _ holdings o => holdings.evaluate o

/-- Every offer is worth verifying, and none more than another. -/
def acceptAll : Evaluator σ := fun _ _ _ => 1

/-- Scores by the sender of an offer; the last entry for a sender counts. -/
def byOrigin (scores : List (Int32 × Score)) (usual : Score) : Evaluator σ := fun _ _ o =>
  (scores.reverse.lookup o.origin).getD usual

end Evaluator

/-- The offers of one look, each list in the order of arrival, and all
evaluations made so far. -/
structure Triage (σ : Type) where
  kept : List (Evaluation σ)
  useless : List (Offer σ)
  settled : List (Offer σ)
  evaluations : List (Evaluation σ)

namespace Triage

variable {σ : Type}

/-- Looks at each offer once; `evaluations` are those made before. -/
def look (settled : Offer σ → Bool) (score : List (Evaluation σ) → Offer σ → Score)
    (evaluations : List (Evaluation σ)) : List (Offer σ) → Triage σ
  | [] => ⟨[], [], [], evaluations⟩
  | o :: rest =>
      if settled o then
        let t := look settled score evaluations rest
        { t with settled := o :: t.settled }
      else
        let e : Evaluation σ := ⟨o, score evaluations o⟩
        let t := look settled score (e :: evaluations) rest
        if e.score = 0 then { t with useless := o :: t.useless }
        else { t with kept := e :: t.kept }

/-- `a` has to be verified before `b`, whichever came first. -/
def leads (a b : Evaluation σ) : Bool :=
  b.score < a.score || (a.score == b.score && a.offer.level < b.offer.level)

theorem leads_iff {a b : Evaluation σ} : leads a b = true ↔
    b.score < a.score ∨ a.score = b.score ∧ a.offer.level < b.offer.level := by
  simp [leads]

theorem not_leads_iff {a b : Evaluation σ} : ¬ leads a b = true ↔
    a.score ≤ b.score ∧ (a.score = b.score → b.offer.level ≤ a.offer.level) := by
  rw [leads_iff, not_or, not_and, Nat.not_lt, UInt8.not_lt]

theorem leads_asymm {a b : Evaluation σ} (h : leads a b = true) : ¬ leads b a = true := by
  grind [leads]

theorem leads_irrefl (e : Evaluation σ) : ¬ leads e e = true :=
  fun h => leads_asymm h h

/-- Any third one is behind the leader or before the one that is led. -/
theorem leads_or_leads {a c : Evaluation σ} (h : leads a c = true) (b : Evaluation σ) :
    leads a b = true ∨ leads b c = true := by
  grind [leads]

/-- The first offer that no other one leads, and the other offers. -/
def choose : List (Evaluation σ) → Option (Evaluation σ × List (Evaluation σ))
  | [] => none
  | e :: rest =>
      match choose rest with
      | none => some (e, [])
      | some (best, others) => if leads best e then some (best, e :: others) else some (e, rest)

theorem choose_eq_none_iff {es : List (Evaluation σ)} : choose es = none ↔ es = [] := by
  cases es with
  | nil => simp [choose]
  | cons e rest =>
      simp only [choose]
      split
      · simp
      · split <;> simp

theorem choose_perm {es others : List (Evaluation σ)} {best : Evaluation σ}
    (h : choose es = some (best, others)) : (best :: others).Perm es := by
  induction es generalizing best others with
  | nil => simp [choose] at h
  | cons e rest ih =>
      simp only [choose] at h
      split at h
      · rename_i hn
        obtain rfl := choose_eq_none_iff.1 hn
        cases h
        exact .rfl
      · rename_i b os hs
        split at h
        · cases h
          exact (List.Perm.swap e _ os).trans (.cons e (ih hs))
        · cases h
          exact .rfl

end Triage

end MultisigTree
