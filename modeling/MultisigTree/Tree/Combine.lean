import MultisigTree.Multisig
import MultisigTree.Tree.Place
import MultisigTree.Word

/-!
# Combining levels

The multi-signatures of several levels become one: their masks are laid side
by side, each at the place of its level, and their signatures are merged from
the left.
-/
namespace MultisigTree

namespace Mask

/-- The marked positions moved up by `offset` in a mask of `length` positions;
those beyond the length are lost. -/
def shift (m : Mask) (length offset : Nat) : Mask where
  length := length
  ones := (m.ones.map (offset + ·)).filter (· < length)
  ascending :=
    Ascending.filter _ (List.pairwise_map.2 (m.ascending.imp fun h => Nat.add_lt_add_left h _))
  bounded i h := by simpa using (List.mem_filter.1 h).2

def shiftWord (m : Mask) (length offset : Nat) : Except Crash Mask :=
  if m.ones.all (offset + · < Word.limit) then .ok (m.shift length offset)
  else .error .addOverflow

end Mask

structure Part (σ : Type) where
  level : Nat
  multisig : Multisig σ

namespace Part

variable {κ σ : Type}

/-- Lays the parts into a mask, each at the offset of its level; parts of
levels without an offset are left out. -/
def layAll (scheme : Scheme κ σ) (offset : Nat → Except Crash (Option Nat)) :
    Mask → Option σ → List (Part σ) → Except Crash (Option (Multisig σ))
  | mask, signature, [] => return signature.map fun s => ⟨mask, s⟩
  | mask, signature, part :: rest => do
      match ← offset part.level with
      | none => layAll scheme offset mask signature rest
      | some start =>
          let marks ← part.multisig.mask.shiftWord mask.length start
          let merged := match signature with
            | some s => scheme.merge s part.multisig.signature
            | none => part.multisig.signature
          layAll scheme offset (mask.union marks) (some merged) rest

end Part

namespace Place

variable {κ σ : Type} (p : Place)

def offset? (level : Nat) : Option Nat :=
  (p.peers level).toOption.map (·.lo)

/-- One multi-signature over the members below `level`, from parts of levels
up to `level`. This is what the members of `level` are sent. -/
def combine (scheme : Scheme κ σ) (parts : List (Part σ)) (level : Nat) :
    Except Crash (Option (Multisig σ)) :=
  if parts.isEmpty || parts.any (level < ·.level) then .ok none
  else
    match p.below level with
    | .error _ => .ok none
    | .ok window =>
        let offset l := match p.offset? l with
          | some lo => some <$> Word.sub lo window.lo
          | none => .ok none
        Part.layAll scheme offset (.empty window.size) none parts

def combineAll (scheme : Scheme κ σ) (parts : List (Part σ)) :
    Except Crash (Option (Multisig σ)) :=
  Part.layAll scheme (fun l => .ok (p.offset? l)) (.empty p.size) none parts

end Place

end MultisigTree
