import MultisigTree.BigEndian
import MultisigTree.Fault
import MultisigTree.Mask.RunLength

/-!
# Masks as bytes

A mask is written as its length, two bytes wide, and the run-length coding of
its marked positions. Lengths beyond two bytes have no written form. Reading
refuses runs that go on beyond the length before it lists a single position,
so a short text that describes an enormous run costs nothing.
-/
namespace MultisigTree.Mask

def runs (m : Mask) : Runs :=
  Runs.ofSpans m.spans

/-- The mask of `length` positions whose runs are `r`, if these fit. -/
def ofRuns? (length : Nat) (r : Runs) : Option Mask :=
  if h : r.total ≤ length then
    some
      { length
        ones := r.ones
        ascending := Runs.ascending_positions 0 r.first r.lengths
        bounded := fun i hi => by
          have := Runs.positions_upper hi
          simp only [Runs.total] at h
          omega }
  else none

def encode (m : Mask) : Except Fault (List UInt8) :=
  if m.length < 2 ^ 16 then
    .ok (BigEndian.encode 2 m.length ++ RunLength.encode m.runs)
  else .error (.mask (.tooLong m.length))

def decode (bytes : List UInt8) : Except Fault Mask :=
  if bytes.length < 2 then .error (.shortBuffer 2 bytes.length)
  else
    let length := BigEndian.decode (bytes.take 2)
    match RunLength.decode (bytes.drop 2) with
    | .error cause => .error (.mask cause)
    | .ok r =>
        match ofRuns? length r with
        | some m => .ok m
        | none => .error (.mask (.beyondLength (r.total - 1) length))

theorem encode_isOk_iff {m : Mask} : (∃ bytes, m.encode = .ok bytes) ↔ m.length < 2 ^ 16 := by
  unfold encode
  split <;> simp_all

end MultisigTree.Mask
