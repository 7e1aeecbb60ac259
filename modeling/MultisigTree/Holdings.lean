import MultisigTree.LevelMap
import MultisigTree.Tree.Combine

/-!
# Holdings

The best multi-signature a node has for each level. A new one is joined with
the one held if both have the same length and no contribution in common; else
it takes its place if it has more contributions; else it is of no use.
-/
namespace MultisigTree

/-- What holding a multi-signature would do to its level. -/
inductive Gain (σ : Type) where
  | nothing
  | replaces
  | joins (held : Multisig σ)
  deriving DecidableEq

/-- How useful a multi-signature is to a node; 0 is of no use. -/
abbrev Score := Nat

def Gain.score {σ : Type} : Gain σ → Score
  | .nothing => 0
  | .replaces => 1
  | .joins _ => 2

structure Holdings (σ : Type) where
  table : LevelMap (Multisig σ)

namespace Holdings

variable {κ σ : Type}

def empty : Holdings σ := ⟨.empty⟩

instance : Inhabited (Holdings σ) := ⟨empty⟩

def best? (h : Holdings σ) (level : Nat) : Option (Multisig σ) :=
  h.table.get? level

/-- What a multi-signature adds to the one held. -/
def gainOver (held? : Option (Multisig σ)) (m : Multisig σ) : Gain σ :=
  if m.card = 0 then .nothing
  else
    match held? with
    | none => .replaces
    | some held =>
        if held.length = m.length ∧ !held.mask.meets m.mask then .joins held
        else if held.card < m.card then .replaces
        else .nothing

def gain (h : Holdings σ) (level : Nat) (m : Multisig σ) : Gain σ :=
  gainOver (h.best? level) m

def evaluate (h : Holdings σ) (o : Offer σ) : Score :=
  (h.gain o.level.toNat o.multisig).score

/-- The holdings with `m` taken in, and whether that changed them. -/
def add (scheme : Scheme κ σ) (h : Holdings σ) (level : Nat) (m : Multisig σ) :
    Bool × Holdings σ :=
  match h.gain level m with
  | .nothing => (false, h)
  | .replaces => (true, ⟨h.table.insert level m⟩)
  | .joins held =>
      (true, ⟨h.table.insert level
        ⟨held.mask.union m.mask, scheme.merge held.signature m.signature⟩⟩)

/-- What is held for each level, by increasing level. -/
def parts (h : Holdings σ) : List (Part σ) :=
  h.table.entries.map fun (level, m) => ⟨level, m⟩

/-- Everything held for levels up to `level` as the members of the next level
expect it. -/
def combined (scheme : Scheme κ σ) (p : Place) (h : Holdings σ) (level : Nat) :
    Except Crash (Option (Multisig σ)) :=
  let level := min level p.maxLevel
  p.combine scheme (h.parts.filter (·.level ≤ level)) (level + 1)

def whole (scheme : Scheme κ σ) (p : Place) (h : Holdings σ) :
    Except Crash (Option (Multisig σ)) :=
  p.combineAll scheme h.parts

end Holdings

end MultisigTree
