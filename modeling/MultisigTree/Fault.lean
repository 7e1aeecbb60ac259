/-!
# What can go wrong

A `Fault` is a reason to refuse something: a packet, an encoding, a setting.
A `Crash` is a computation that cannot go on, such as a sum that does not fit
a machine word. Both have one wording, `Fault.message` and `Crash.message`. Two
computations that do the same from one state and from an image of it crash alike
(`Crash.map_bind`).
-/
namespace MultisigTree

/-- Why an encoded mask is refused, or a mask cannot be encoded. -/
inductive MaskFault where
  | tooLong (length : Nat)
  | notMinimal
  | unknownVersion
  | badVarint
  | overflow
  | beyondLength (position length : Nat)
  deriving DecidableEq, Repr

def MaskFault.message : MaskFault → String
  | .tooLong length => s!"bit length {length} exceeds u16"
  | .notMinimal => "bitfield not minimally encoded"
  | .unknownVersion => "bitfield specifies an unsupported version"
  | .badVarint => "invalid varint"
  | .overflow => "bitfield overflows 2^63-1"
  | .beyondLength position length => s!"bit {position} set beyond length {length}"

/-- Why the encoding of a key or of a signature is refused. -/
inductive EncodingFault where
  | empty
  | trailing (count : Nat)
  | keyLength (got : Nat)
  | keyPoint
  | signatureLength (got : Nat)
  | signaturePoint
  deriving DecidableEq, Repr

def EncodingFault.message : EncodingFault → String
  | .empty => "empty buffer"
  | .trailing count => s!"trailing {count} bytes"
  | .keyLength got => s!"invalid public key length: expected 48 bytes, got {got}"
  | .keyPoint => "failed to deserialize public key: Group decode error"
  | .signatureLength got => s!"invalid signature length: expected 96 bytes, got {got}"
  | .signaturePoint => "failed to deserialize signature: Group decode error"

/-- What a signature scheme refuses. -/
inductive SchemeFault where
  | invalidSignature
  | malformedSignature (cause : EncodingFault)
  | malformedKey (cause : EncodingFault)
  deriving DecidableEq, Repr

def SchemeFault.message : SchemeFault → String
  | .invalidSignature => "signature verification failed"
  | .malformedSignature cause => "malformed signature: " ++ cause.message
  | .malformedKey cause => "malformed public key: " ++ cause.message

/-- Settings no node runs with. -/
inductive SettingsFault where
  | quorum (percent : Nat)
  | candidates
  | updates
  | period
  deriving DecidableEq, Repr

def SettingsFault.message : SettingsFault → String
  | .quorum percent => s!"contributions percentage must be in (0, 100], got {percent}"
  | .candidates => "candidate count must be positive"
  | .updates => "update count must be positive"
  | .period => "update period must be positive"

inductive Fault where
  | levelBeyond (level max : Nat)
  | levelEmpty (level : Nat)
  | unlisted (span : Nat × Nat)
  | outsideLevel (id : Int32) (span : Nat × Nat) (level : Nat)
  | originBeyond (origin : Int32) (size : Nat)
  | packetLevel (level : UInt8) (max : Nat)
  | shortBuffer (need got : Nat)
  | mask (cause : MaskFault)
  | maskTooLarge (bytes : Nat)
  | maskLength (expected actual : Nat)
  | noContribution
  | unknownMember (id : Int32)
  | settings (cause : SettingsFault)
  | scheme (cause : SchemeFault)
  deriving DecidableEq, Repr

def Fault.message : Fault → String
  | .levelBeyond level max =>
      s!"invalid level {level} for computing candidate set (max {max})"
  | .levelEmpty level => s!"empty level {level}"
  | .unlisted (lo, hi) => s!"registry can't find ids in range [{lo}, {hi})"
  | .outsideLevel id (lo, hi) level =>
      s!"global id {id} outside range [{lo}, {hi}) of level {level}"
  | .originBeyond origin size =>
      s!"packet's origin {origin} out of range for registry of size {size}"
  | .packetLevel level max => s!"invalid packet's level {level} (max {max})"
  | .shortBuffer need got => s!"buffer too short: need {need} bytes, got {got}"
  | .mask cause => "malformed bitset: " ++ cause.message
  | .maskTooLarge bytes => s!"bitset too large to encode: {bytes} bytes"
  | .maskLength expected actual =>
      s!"inconsistent bitset with given level: expected {expected} bits, got {actual}"
  | .noContribution => "no signature in the bitset"
  | .unknownMember id => s!"unknown identity {id}"
  | .settings cause => "invalid config: " ++ cause.message
  | .scheme cause => cause.message

inductive Crash where
  | addOverflow
  | subOverflow
  | mulOverflow
  | indexBeyond (index size : Nat)
  | zeroDivisor
  | noEntry (level : Nat)
  deriving DecidableEq, Repr

def Crash.message : Crash → String
  | .addOverflow => "attempt to add with overflow"
  | .subOverflow => "attempt to subtract with overflow"
  | .mulOverflow => "attempt to multiply with overflow"
  | .indexBeyond index size =>
      s!"index out of bounds: the len is {size} but the index is {index}"
  | .zeroDivisor => "attempt to calculate the remainder with a divisor of zero"
  | .noEntry level => s!"no signature stored at level {level} after storing a verified one"

/-- How a computation that may refuse its input and may crash ends early. -/
inductive Failure where
  | refused (fault : Fault)
  | crashed (crash : Crash)
  deriving DecidableEq, Repr

namespace Crash

variable {α α' β β' : Type} {q : β → β'}

/-- Two computations in step, the second of which starts from an image of what the
first one starts from. -/
theorem map_bind {x : Except Crash α} {x' : Except Crash α'} {p : α → α'} (hx : x.map p = x')
    {f : α → Except Crash β} {f' : α' → Except Crash β'} (hf : ∀ a, (f a).map q = f' (p a)) :
    (x >>= f).map q = x' >>= f' := by
  subst hx
  cases x with
  | error crash => rfl
  | ok a => exact hf a

theorem map_bind_same {x : Except Crash α} {f : α → Except Crash β} {f' : α → Except Crash β'}
    (hf : ∀ a, (f a).map q = f' a) : (x >>= f).map q = x >>= f' := by
  cases x with
  | error crash => rfl
  | ok a => exact hf a

theorem map_ite {p : Prop} [Decidable p] {x y : Except Crash β} {x' y' : Except Crash β'}
    (hx : x.map q = x') (hy : y.map q = y') :
    (if p then x else y).map q = if p then x' else y' := by
  split
  · exact hx
  · exact hy

end Crash

end MultisigTree
