/-!
# Level timers

A timer asks its node for the next level from time to time, so that a node
does not wait for ever on a level that cannot be completed. A ticking timer
asks at most once per level after each start, and leaves off as soon as it is
told that no level was started. An idle timer never asks.
-/
namespace MultisigTree

inductive Pace where
  | ticking
  | idle
  deriving DecidableEq, Repr

structure LevelTimer where
  pace : Pace
  maxLevel : Nat
  /-- How often the timer may still ask; nothing when it is not started. -/
  budget : Option Nat
  deriving DecidableEq, Repr

namespace LevelTimer

def create (pace : Pace) (maxLevel : Nat) : LevelTimer :=
  ⟨pace, maxLevel, none⟩

/-- A timer that was started and not stopped goes on as it is. -/
def start (t : LevelTimer) : LevelTimer :=
  match t.budget with
  | none => { t with budget := some t.maxLevel }
  | some _ => t

def stop (t : LevelTimer) : LevelTimer :=
  { t with budget := none }

def isArmed (t : LevelTimer) : Bool :=
  t.pace = .ticking && 0 < t.budget.getD 0

/-- The timer after it has asked and been told whether a level was started. -/
def asked (t : LevelTimer) (started : Bool) : LevelTimer :=
  { t with budget := t.budget.map fun left => if started then left - 1 else 0 }

end LevelTimer

end MultisigTree
