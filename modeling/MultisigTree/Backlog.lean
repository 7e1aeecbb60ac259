import MultisigTree.Triage
import MultisigTree.Verification

/-!
# The backlog of a node

Offers are queued as they come in. In one pass all queued offers are taken up
behind those still pending, triage chooses one of them, and this one is
verified: it turns out genuine, and counts for its level from then on, or
forged. Passes are only made between start and stop, and stopping forgets
whatever waits.
-/
namespace MultisigTree

inductive Phase where
  | waiting
  | running
  | stopped
  deriving DecidableEq, Repr

inductive Verdict (σ : Type) where
  | genuine (offer : Offer σ)
  | forged (offer : Offer σ) (fault : Fault)
  deriving DecidableEq

structure Backlog (σ : Type) where
  phase : Phase
  queued : List (Offer σ)
  pending : List (Offer σ)
  /-- The most contributions of a genuine offer of each level. -/
  resolved : LevelMap Nat
  /-- Every evaluation made, the latest first. -/
  evaluations : List (Evaluation σ)

/-- What one pass did with the offers that do not wait any longer. -/
structure Pass (σ : Type) where
  useless : List (Offer σ)
  settled : List (Offer σ)
  verdict : Option (Verdict σ)

namespace Backlog

variable {κ σ : Type}

def empty : Backlog σ := ⟨.waiting, [], [], .empty, []⟩

instance : Inhabited (Backlog σ) := ⟨empty⟩

def start (b : Backlog σ) : Backlog σ :=
  if b.phase = .waiting then { b with phase := .running } else b

def stop (b : Backlog σ) : Backlog σ :=
  { b with phase := .stopped, queued := [], pending := [] }

def add (b : Backlog σ) (o : Offer σ) : Backlog σ :=
  if b.phase = .stopped then b else { b with queued := b.queued ++ [o] }

def load (b : Backlog σ) : Nat :=
  b.pending.length + b.queued.length

/-- A genuine offer of the level had all the contributions there are. -/
def isSettled (p : Place) (resolved : LevelMap Nat) (level : Nat) : Bool :=
  match resolved.get? level with
  | some card => p.sizeAt level ≤ card
  | none => false

def resolve (resolved : LevelMap Nat) (o : Offer σ) : LevelMap Nat :=
  let level := o.level.toNat
  resolved.insert level (max ((resolved.get? level).getD 0) o.multisig.card)

def pass (v : Verifier κ σ) (evaluator : Evaluator σ) (holdings : Holdings σ) (b : Backlog σ) :
    Except Crash (Backlog σ × Pass σ) :=
  if b.phase ≠ .running then .ok (b, ⟨[], [], none⟩)
  else
    let triage := Triage.look (fun o => isSettled v.place b.resolved o.level.toNat)
      (fun evaluations o => evaluator evaluations holdings o) b.evaluations
      (b.pending ++ b.queued)
    let b := { b with queued := [], evaluations := triage.evaluations }
    match Triage.choose triage.kept with
    | none => .ok ({ b with pending := [] }, ⟨triage.useless, triage.settled, none⟩)
    | some (chosen, others) =>
        let o := chosen.offer
        let b := { b with pending := others.map (·.offer) }
        match v.verify o with
        | .ok () =>
            .ok ({ b with resolved := resolve b.resolved o },
              ⟨triage.useless, triage.settled, some (.genuine o)⟩)
        | .error (.refused fault) =>
            .ok (b, ⟨triage.useless, triage.settled, some (.forged o fault)⟩)
        | .error (.crashed crash) => .error crash

/-- At most so many passes, until no offer waits; the holdings do not change
meanwhile. -/
def passes (v : Verifier κ σ) (evaluator : Evaluator σ) (holdings : Holdings σ) :
    Nat → Backlog σ → Except Crash (Backlog σ × List (Verdict σ))
  | 0, b => return (b, [])
  | count + 1, b => do
      if b.phase ≠ .running ∨ b.load = 0 then return (b, [])
      let (b, done) ← b.pass v evaluator holdings
      let (b, verdicts) ← passes v evaluator holdings count b
      return (b, done.verdict.toList ++ verdicts)

/-- Passes until no offer waits: each pass settles at least one. -/
def settle (v : Verifier κ σ) (evaluator : Evaluator σ) (holdings : Holdings σ) (b : Backlog σ) :
    Except Crash (Backlog σ × List (Verdict σ)) :=
  b.passes v evaluator holdings b.load

end Backlog

end MultisigTree
