import MultisigTree.Backlog
import MultisigTree.LevelTimer
import MultisigTree.Packet
import MultisigTree.Settings

/-!
# Nodes

A node takes part in the protocol for one member of the roster. Its `Setup`
stays the same all along. Its state `Node` holds the level it has reached, the
best multi-signatures it has, the offers that wait, and a journal of what it
has shown to the outside: packets sent, signatures published, members
reported.
-/
namespace MultisigTree

inductive Action (κ σ : Type) where
  | send (receivers : List (Member κ)) (packet : Packet)
  | publish (m : Multisig σ)
  | report (id : Int32) (fault : Fault)

/-- Members reported so far with the faults found, the latest first. -/
abbrev Reports := List (Int32 × Fault)

/-- Whose packets are dropped unread, given the reports so far. -/
abbrev Exclusion := Reports → Int32 → Bool

namespace Exclusion

def never : Exclusion := fun _ _ => false

/-- The listed members are not heard, nor, with `reported`, anyone who has
been reported. -/
def barring (ids : List Int32) (reported : Bool) : Exclusion := fun reports id =>
  ids.contains id || (reported && reports.any (·.1 == id))

end Exclusion

structure Setup (κ σ : Type) extends Verifier κ σ where
  id : Int32
  settings : Settings
  threshold : Nat
  order : ContactOrder
  evaluator : Evaluator σ
  exclusion : Exclusion
  pace : Pace

structure Renewal where
  next : Nat := 0
  /-- Members contacted since the aggregate last grew. -/
  sent : Nat := 0
  /-- Contributions of the aggregate last sent. -/
  card : Nat := 0
  deriving DecidableEq, Repr

structure Node (κ σ : Type) where
  phase : Phase
  level : Nat
  /-- The levels entered, in increasing order. -/
  started : List Nat
  /-- The levels that hold all contributions there are, in increasing order. -/
  completed : List Nat
  renewals : LevelMap Renewal
  contacts : Contacts
  holdings : Holdings σ
  backlog : Backlog σ
  /-- Genuine offers not yet taken in, the earliest first. -/
  genuine : List (Offer σ)
  best : Option (Multisig σ)
  timer : LevelTimer
  /-- All actions, the latest first. -/
  journal : List (Action κ σ)

namespace Setup

variable {κ σ : Type}

def create (scheme : Scheme κ σ) (roster : Roster κ) (id : Int32) (message : List UInt8)
    (settings : Settings) (order : ContactOrder) (evaluator : Evaluator σ)
    (exclusion : Exclusion) (pace : Pace) : Except Failure (Setup κ σ) := do
  settings.validate.mapError fun cause => .refused (.settings cause)
  if id.toInt < 0 ∨ (roster.member? id.toInt.toNat).isNone then
    throw (.refused (.unknownMember id))
  let place ← (Place.of roster.size id).mapError .refused
  let threshold ← (settings.threshold roster.size).mapError .crashed
  return { scheme := scheme, roster, place, message, id, settings, threshold, order, evaluator,
           exclusion, pace }

def maxLevel (s : Setup κ σ) : Nat :=
  s.place.maxLevel

end Setup

namespace Node

variable {κ σ : Type}

def create (s : Setup κ σ) (own : σ) : Node κ σ where
  phase := .waiting
  level := 0
  started := []
  completed := [0]
  renewals := .empty
  contacts := .empty
  holdings := (Holdings.empty.add s.scheme 0 ⟨.ofList 1 [0], own⟩).2
  backlog := .empty
  genuine := []
  best := none
  timer := .create s.pace s.maxLevel
  journal := []

def record (n : Node κ σ) (a : Action κ σ) : Node κ σ :=
  { n with journal := a :: n.journal }

def reports (n : Node κ σ) : Reports :=
  n.journal.filterMap fun
    | .report id fault => some (id, fault)
    | _ => none

def published (n : Node κ σ) : List (Multisig σ) :=
  n.journal.filterMap fun
    | .publish m => some m
    | _ => none

def isAtRest (n : Node κ σ) : Bool :=
  n.backlog.load = 0 && n.genuine.isEmpty

end Node

end MultisigTree
