import MultisigTree.Bits
import MultisigTree.Mask.Basic

/-!
# Run-length coding of masks

The marked positions of a mask are written as the lengths of the alternating
runs of cleared and marked positions, up to the last marked one. A bit string
holds two bits of version, the value of the first run, and then the lengths:

* length 1 is the bit `1`;
* lengths 2 to 15 are `01` and four binary digits, the lowest first;
* lengths from 16 on are `00` and a number of seven-bit groups, the lowest
  first, each with a bit that says whether another one follows.

Each number of marked positions has one written form. Whatever is not the
shortest writing of some runs is refused.
-/
namespace MultisigTree

/-- The lengths of alternating runs; the first one has the value `first`. -/
structure Runs where
  first : Bool
  lengths : List Nat
  deriving DecidableEq, Repr

namespace Runs

def total (r : Runs) : Nat :=
  r.lengths.foldr (· + ·) 0

/-- The positions in the runs of ones, the first run starting at `start`. -/
def positions (start : Nat) : Bool → List Nat → List Nat
  | _, [] => []
  | true, n :: rest => List.range' start n ++ positions (start + n) false rest
  | false, n :: rest => positions (start + n) true rest

def ones (r : Runs) : List Nat :=
  positions 0 r.first r.lengths

/-- Gap and run of each span in turn, counted from `start`. -/
def alternate (start : Nat) : List Span → List Nat
  | [] => []
  | s :: rest => (s.lo - start) :: s.size :: alternate s.hi rest

/-- The runs up to the end of the last span. -/
def ofSpans : List Span → Runs
  | [] => ⟨false, []⟩
  | s :: rest =>
      if s.lo = 0 then ⟨true, s.size :: alternate s.hi rest⟩
      else ⟨false, alternate 0 (s :: rest)⟩

theorem positions_lower {start i : Nat} {value : Bool} {lengths : List Nat}
    (h : i ∈ positions start value lengths) : start ≤ i := by
  induction lengths generalizing start value with
  | nil => cases value <;> simp [positions] at h
  | cons n rest ih =>
      cases value with
      | true =>
          rcases List.mem_append.1 h with h | h
          · exact (List.mem_range'_1.1 h).1
          · exact Nat.le_trans (Nat.le_add_right _ _) (ih h)
      | false => exact Nat.le_trans (Nat.le_add_right _ _) (ih h)

theorem positions_upper {start i : Nat} {value : Bool} {lengths : List Nat}
    (h : i ∈ positions start value lengths) : i < start + lengths.foldr (· + ·) 0 := by
  induction lengths generalizing start value with
  | nil => cases value <;> simp [positions] at h
  | cons n rest ih =>
      rw [List.foldr_cons, ← Nat.add_assoc]
      cases value with
      | true =>
          rcases List.mem_append.1 h with h | h
          · have := (List.mem_range'_1.1 h).2
            omega
          · exact ih h
      | false => exact ih h

theorem ascending_positions (start : Nat) (value : Bool) (lengths : List Nat) :
    Ascending (positions start value lengths) := by
  induction lengths generalizing start value with
  | nil => cases value <;> exact .nil
  | cons n rest ih =>
      cases value with
      | true =>
          refine List.pairwise_append.2 ⟨List.pairwise_lt_range', ih _ _, ?_⟩
          intro i hi j hj
          have := (List.mem_range'_1.1 hi).2
          have := positions_lower hj
          omega
      | false => exact ih _ _

end Runs

namespace RunLength

/-- Seven-bit groups of `n`, the lowest first; the eighth bit says that
another group follows. -/
def writeVarint (n : Nat) : List Bool :=
  if n < 128 then Bits.ofNat 8 n else Bits.ofNat 7 n ++ true :: writeVarint (n / 128)

def writeLength (n : Nat) : List Bool :=
  if n = 1 then [true]
  else if n < 16 then false :: true :: Bits.ofNat 4 n
  else false :: false :: writeVarint n

/-- Reads seven-bit groups, at most `groups` of them. A number that is not the
first may not end in an empty group, and the tenth group only holds one bit. -/
def readVarint : (groups : Nat) → (first : Bool) → List Bool →
    Except MaskFault (Nat × List Bool)
  | 0, _, _ => .error .badVarint
  | groups + 1, first, bits =>
      let byte := Bits.toNat (bits.take 8)
      let rest := bits.drop 8
      if groups = 0 ∧ 1 < byte then .error .badVarint
      else if byte < 128 then
        if byte = 0 ∧ !first then .error .badVarint else .ok (byte, rest)
      else (readVarint groups false rest).map fun (high, rest) => (byte - 128 + 128 * high, rest)

def readLength : List Bool → Except MaskFault (Nat × List Bool)
  | [] => .error .notMinimal
  | true :: rest => .ok (1, rest)
  | false :: true :: rest =>
      let n := Bits.toNat (rest.take 4)
      if n < 2 then .error .notMinimal else .ok (n, rest.drop 4)
  | false :: rest => do
      let (n, rest) ← readVarint 10 true rest.tail
      if n < 16 then .error .notMinimal else .ok (n, rest)

theorem readVarint_length_le {groups : Nat} {first : Bool} {bits rest : List Bool} {n : Nat}
    (h : readVarint groups first bits = .ok (n, rest)) : rest.length ≤ bits.length := by
  induction groups generalizing first bits n rest with
  | zero => simp [readVarint] at h
  | succ groups ih =>
      simp only [readVarint] at h
      split at h
      · simp at h
      · split at h
        · split at h
          · simp at h
          · simp only [Except.ok.injEq, Prod.mk.injEq] at h
            rw [← h.2, List.length_drop]
            omega
        · cases hr : readVarint groups false (bits.drop 8) with
          | error e => simp [hr, Except.map] at h
          | ok p =>
              have := ih hr
              simp only [hr, Except.map, Except.ok.injEq, Prod.mk.injEq] at h
              rw [← h.2]
              rw [List.length_drop] at this
              omega

theorem readLength_length_lt {bits rest : List Bool} {n : Nat}
    (h : readLength bits = .ok (n, rest)) : rest.length < bits.length := by
  unfold readLength at h
  split at h
  · simp at h
  · simp only [Except.ok.injEq, Prod.mk.injEq] at h
    simp [← h.2]
  · dsimp only at h
    split at h
    · simp at h
    · simp only [Except.ok.injEq, Prod.mk.injEq] at h
      rw [← h.2]
      simp only [List.length_drop, List.length_cons]
      omega
  · rename_i tail _
    cases hr : readVarint 10 true tail.tail with
    | error e => simp [hr, bind, Except.bind] at h
    | ok p =>
        have := readVarint_length_le hr
        simp only [hr, bind, Except.bind] at h
        split at h
        · simp at h
        · simp only [Except.ok.injEq, Prod.mk.injEq] at h
          rw [← h.2, List.length_cons]
          rw [List.length_tail] at this
          omega

/-- Reads lengths as long as a one is left. `value` is the value of the next
run, which is the one that must not be missing if it is a run of ones, and
`sum` the sum of the lengths before. -/
def readLengths (value : Bool) (sum : Nat) (bits : List Bool) : Except MaskFault (List Nat) :=
  if bits.contains true then
    match _h : readLength bits with
    | .error fault => .error fault
    | .ok (n, rest) =>
        if sum + n < Word.limit then (readLengths (!value) (sum + n) rest).map (n :: ·)
        else .error .overflow
  else if value then .error .notMinimal
  else .ok []
termination_by bits.length
decreasing_by exact readLength_length_lt _h

def write (r : Runs) : List Bool :=
  false :: false :: r.first :: r.lengths.flatMap writeLength

def read (bits : List Bool) : Except MaskFault Runs :=
  if (bits.take 2).contains true then .error .unknownVersion
  else
    let first := (bits.drop 2).headD false
    (readLengths first 0 (bits.drop 3)).map fun lengths => ⟨first, lengths⟩

/-- No runs are no bytes. -/
def encode (r : Runs) : List UInt8 :=
  if r.lengths = [] then [] else Bits.toBytes (Bits.trim (write r))

def decode (bytes : List UInt8) : Except MaskFault Runs :=
  if bytes.getLast? = some 0 then .error .notMinimal else read (Bits.ofBytes bytes)

end RunLength

end MultisigTree
