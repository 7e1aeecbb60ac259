import MultisigTree.Proofs.WireForms

/-!
# Each mask has one written form

Whatever the readers of numbers, lengths and runs accept is, up to zeros at
the end, the writing of what they have read. A byte string that does not end
in a zero byte has all its zeros at the end in its last byte, so runs are read
from their written form only (`RunLength.encode_of_decode`). Runs that are not
empty, the last one of marked positions, are the runs of the mask they make
(`Mask.runs_ofRuns?`). Together, reading a mask and writing it undo each other
in both directions (`Mask.encode_iff_decode`).
-/
namespace MultisigTree

namespace Bits

theorem trim_append {a b : List Bool} (x : List Bool) (h : trim a = trim b) :
    trim (x ++ a) = trim (x ++ b) := by
  induction x with
  | nil => exact h
  | cons bit x ih => simp only [List.cons_append, trim, ih]

theorem trim_of_not_contains {bits : List Bool} (h : ¬ bits.contains true) : trim bits = [] := by
  induction bits with
  | nil => rfl
  | cons bit bits ih =>
      cases bit with
      | false => rw [trim, ih (by simpa using h)]; rfl
      | true => simp at h

theorem Pads.trim_eq {a b : List Bool} (h : Pads a b) : trim b = trim a := by
  obtain ⟨count, rfl⟩ := h
  have hzeros : trim (List.replicate count false) = trim [] := trim_of_not_contains (by simp)
  have happend := trim_append a hzeros
  rwa [List.append_nil] at happend

/-- The first bits, read as a number and written back, with zeros for those
that were missing. -/
theorem trim_take_drop (width : Nat) (bits : List Bool) :
    trim bits = trim (ofNat width (toNat (bits.take width)) ++ bits.drop width) := by
  have hlen : (bits.take width).length ≤ width := List.length_take_le _ _
  rw [ofNat_append_zeros hlen]
  rcases Nat.le_total width bits.length with hlong | hshort
  · have hfull : (bits.take width).length = width := List.length_take_of_le hlong
    rw [hfull, Nat.sub_self, List.replicate_zero, List.append_nil, List.take_append_drop]
  · rw [List.take_of_length_le hshort, List.drop_of_length_le hshort, List.append_nil]
    have hpads : Pads bits (bits ++ List.replicate (width - bits.length) false) := ⟨_, rfl⟩
    exact hpads.trim_eq.symm

theorem trim_append_of_ne_nil {b : List Bool} (a : List Bool) (h : trim b ≠ []) :
    trim (a ++ b) = a ++ trim b := by
  induction a with
  | nil => rfl
  | cons bit a ih =>
      rw [List.cons_append, trim, ih, List.cons_append]
      split
      · rename_i hnil
        exact absurd (List.append_eq_nil_iff.1 hnil).2 h
      · rfl

theorem toNat_trim (bits : List Bool) : toNat (trim bits) = toNat bits := by
  have hpads := (pads_trim bits).choose_spec
  conv_rhs => rw [hpads]
  rw [toNat_append_replicate]

theorem toNat_take_lt (width : Nat) (bits : List Bool) : toNat (bits.take width) < 2 ^ width := by
  have hlen : (bits.take width).length ≤ width := List.length_take_le _ _
  exact Nat.lt_of_lt_of_le (toNat_lt _) (Nat.pow_le_pow_right (by decide) hlen)

theorem toBytes_append {a : List Bool} (b : List Bool) (h : a.length = 8) :
    toBytes (a ++ b) = UInt8.ofNat (toNat a) :: toBytes b := by
  match a, h with
  | [_, _, _, _, _, _, _, _], _ => rfl

theorem toBytes_of_length_le {bits : List Bool} (hne : bits ≠ []) (hlen : bits.length ≤ 8) :
    toBytes bits = [UInt8.ofNat (toNat bits)] := by
  fun_cases toBytes bits with
  | case1 a b c d e f g h rest =>
      simp only [List.length_cons] at hlen
      have hrest : rest = [] := List.eq_nil_of_length_eq_zero (by omega)
      rw [hrest]
      rfl
  | case2 => exact absurd rfl hne
  | case3 => rfl

/-- A byte string that does not end in a zero byte is told by its bits up to
the last one. -/
theorem toBytes_trim_ofBytes {bytes : List UInt8} (h : bytes.getLast? ≠ some 0) :
    toBytes (trim (ofBytes bytes)) = bytes := by
  induction bytes with
  | nil => rfl
  | cons byte rest ih =>
      have hbyte : toNat (ofNat 8 byte.toNat) = byte.toNat := by
        rw [toNat_ofNat, Nat.mod_eq_of_lt byte.toNat_lt]
      cases rest with
      | nil =>
          have hbits : ofBytes [byte] = ofNat 8 byte.toNat := by simp [ofBytes]
          have hvalue : toNat (trim (ofNat 8 byte.toNat)) = byte.toNat := by
            rw [toNat_trim, hbyte]
          have hlen := RunLength.length_trim_le (ofNat 8 byte.toNat)
          rw [length_ofNat] at hlen
          have hne : trim (ofNat 8 byte.toNat) ≠ [] := by
            intro hnil
            rw [hnil, toNat] at hvalue
            have hzero : byte = 0 := UInt8.toNat_inj.1 hvalue.symm
            exact h (by rw [hzero]; rfl)
          rw [hbits, toBytes_of_length_le hne hlen, hvalue, UInt8.ofNat_toNat]
      | cons next rest =>
          have hlast : (next :: rest).getLast? ≠ some 0 := by
            rwa [List.getLast?_cons_cons] at h
          have htail := ih hlast
          have hne : trim (ofBytes (next :: rest)) ≠ [] := by
            intro hnil
            rw [hnil] at htail
            cases htail
          rw [ofBytes_cons, trim_append_of_ne_nil _ hne, toBytes_append _ (length_ofNat 8 _),
            htail, hbyte, UInt8.ofNat_toNat]

end Bits

namespace RunLength

open Bits

/-- A group with its mark set and the writing of a number after it are the writing
of the number they make together. -/
theorem writeVarint_group {byte n : Nat} (hmark : 128 ≤ byte) (hbyte : byte < 2 ^ 8)
    (hpos : 0 < n) : writeVarint (byte - 128 + 128 * n) = ofNat 8 byte ++ writeVarint n := by
  have hlow : (byte - 128 + 128 * n) % 2 ^ 7 + 2 ^ 7 = byte := by omega
  have hdiv : (byte - 128 + 128 * n) / 128 = n := by omega
  have hgroup := ofNat_append_true 7 (byte - 128 + 128 * n)
  rw [hlow] at hgroup
  rw [writeVarint, if_neg (by omega), hdiv, ← hgroup]
  simp

/-- A number is read from its own writing only, and one that is not the first
group is not zero. -/
theorem trim_of_readVarint {groups : Nat} {first : Bool} {bits rest : List Bool} {n : Nat}
    (h : readVarint groups first bits = .ok (n, rest)) :
    trim bits = trim (writeVarint n ++ rest) ∧ (first = false → 0 < n) := by
  induction groups generalizing first bits n with
  | zero => cases h
  | succ groups ih =>
      have hgroup := trim_take_drop 8 bits
      have hbyte := toNat_take_lt 8 bits
      simp only [readVarint] at h
      generalize toNat (bits.take 8) = byte at h hgroup hbyte
      split at h
      · cases h
      · split at h
        · rename_i hlast
          split at h
          · cases h
          · rename_i hzero
            cases h
            rw [writeVarint, if_pos hlast]
            refine ⟨hgroup, fun hfirst => ?_⟩
            rw [hfirst] at hzero
            simp at hzero
            omega
        · rename_i hmore
          cases hread : readVarint groups false (bits.drop 8) with
          | error fault =>
              rw [hread] at h
              cases h
          | ok r =>
              rw [hread] at h
              cases h
              have htail := ih hread
              have hhigh := htail.2 rfl
              constructor
              · rw [writeVarint_group (by omega) hbyte hhigh, hgroup, List.append_assoc]
                exact trim_append _ htail.1
              · intro _
                omega

theorem trim_of_readLength {bits rest : List Bool} {n : Nat} (h : readLength bits = .ok (n, rest)) :
    trim bits = trim (writeLength n ++ rest) ∧ 0 < n := by
  unfold readLength at h
  split at h
  · cases h
  · cases h
    exact ⟨rfl, Nat.one_pos⟩
  · rename_i tail
    have hbits := trim_take_drop 4 tail
    have hlt : toNat (tail.take 4) < 16 := toNat_take_lt 4 tail
    dsimp only at h
    split at h
    · cases h
    · rename_i hlong
      cases h
      constructor
      · rw [writeLength, if_neg (by omega), if_pos hlt]
        exact trim_append [false, true] hbits
      · omega
  · rename_i tail hnot
    cases hread : readVarint 10 true tail.tail with
    | error fault =>
        rw [hread] at h
        cases h
    | ok r =>
        rw [hread] at h
        simp only [bind, Except.bind] at h
        split at h
        · cases h
        · rename_i hlong
          cases h
          -- A zero that is missing behind the first one is read as if it were there.
          have hstart : trim (false :: tail) = trim ([false, false] ++ tail.tail) := by
            match tail, hnot with
            | [], _ => rfl
            | false :: _, _ => rfl
            | true :: rest, hnot => exact (hnot rest rfl).elim
          constructor
          · rw [writeLength, if_neg (by omega), if_neg hlong, hstart]
            exact trim_append [false, false] (trim_of_readVarint hread).1
          · omega

/-- Reading comes to an end where no one is left and the next run would be of
zeros, or goes on behind a length. -/
theorem readLengths_cases {value : Bool} {sum : Nat} {bits : List Bool} {lengths : List Nat}
    (h : readLengths value sum bits = .ok lengths) :
    (¬ bits.contains true ∧ value = false ∧ lengths = []) ∨
      ∃ n rest others, readLength bits = .ok (n, rest) ∧
        readLengths (!value) (sum + n) rest = .ok others ∧ lengths = n :: others := by
  by_cases htrue : bits.contains true
  · right
    cases hread : readLength bits with
    | error fault =>
        rw [readLengths_of_error htrue hread] at h
        cases h
    | ok r =>
        rw [readLengths_of_ok htrue hread] at h
        split at h
        · cases hrest : readLengths (!value) (sum + r.1) r.2 with
          | error fault =>
              rw [hrest] at h
              cases h
          | ok others =>
              rw [hrest] at h
              cases h
              exact ⟨r.1, r.2, others, rfl, hrest, rfl⟩
        · cases h
  · left
    rw [readLengths, if_neg htrue] at h
    cases value with
    | false =>
        cases h
        exact ⟨htrue, rfl, rfl⟩
    | true => cases h

theorem trim_of_readLengths {value : Bool} {sum : Nat} {bits : List Bool} {lengths : List Nat}
    (h : readLengths value sum bits = .ok lengths) :
    trim bits = trim (lengths.flatMap writeLength) ∧ (∀ n ∈ lengths, 0 < n) ∧
      Runs.nextValue value lengths = false := by
  induction lengths generalizing value sum bits with
  | nil =>
      rcases readLengths_cases h with hend | ⟨n, rest, others, -, -, hcons⟩
      · exact ⟨trim_of_not_contains hend.1, by simp, hend.2.1⟩
      · cases hcons
  | cons n lengths ih =>
      rcases readLengths_cases h with hend | ⟨n', rest, others, hread, hrest, hcons⟩
      · cases hend.2.2
      · cases hcons
        have hlength := trim_of_readLength hread
        have htail := ih hrest
        refine ⟨?_, List.forall_mem_cons.2 ⟨hlength.2, htail.2.1⟩, htail.2.2⟩
        rw [hlength.1, List.flatMap_cons]
        exact trim_append _ htail.1

theorem trim_of_read {bits : List Bool} {r : Runs} (h : read bits = .ok r) :
    trim bits = trim (write r) ∧ r.Proper := by
  unfold read at h
  split at h
  · cases h
  · rename_i hversion
    dsimp only at h
    cases hread : readLengths ((bits.drop 2).headD false) 0 (bits.drop 3) with
    | error fault =>
        rw [hread] at h
        cases h
    | ok lengths =>
        rw [hread] at h
        cases h
        have hlengths := trim_of_readLengths hread
        have hstart : trim bits =
            trim ([false, false, (bits.drop 2).headD false] ++ bits.drop 3) := by
          match bits, hversion with
          | [], _ => rfl
          | [false], _ => rfl
          | [false, false], _ => rfl
          | false :: false :: _ :: _, _ => rfl
          | true :: _, hversion => simp at hversion
          | false :: true :: _, hversion => simp at hversion
        constructor
        · rw [hstart]
          exact trim_append _ hlengths.1
        · exact ⟨hlengths.2.1, hlengths.2.2⟩

theorem encode_eq_toBytes {r : Runs} (hproper : r.Proper) :
    encode r = toBytes (trim (write r)) := by
  unfold encode
  split
  · rename_i hnil
    obtain ⟨first, lengths⟩ := r
    have hlengths : lengths = [] := hnil
    subst hlengths
    have hfirst : first = false := hproper.closed
    rw [hfirst]
    rfl
  · rfl

theorem encode_of_decode {bytes : List UInt8} {r : Runs} (h : decode bytes = .ok r) :
    r.Proper ∧ encode r = bytes := by
  unfold decode at h
  split at h
  · cases h
  · rename_i hlast
    have hread := trim_of_read h
    refine ⟨hread.2, ?_⟩
    rw [encode_eq_toBytes hread.2, ← hread.1, toBytes_trim_ofBytes hlast]

end RunLength

namespace Span

theorem foldr_push_toList {s : Span} {spans : List Span} (hlt : s.lo < s.hi)
    (h : Apart (s.hi + 1) spans) : s.toList.foldr push spans = s :: spans := by
  obtain ⟨lo, hi⟩ := s
  obtain ⟨count, hcount⟩ : ∃ count, hi = lo + count + 1 := ⟨hi - lo - 1, by dsimp at hlt; omega⟩
  subst hcount
  have hsize : (⟨lo, lo + count + 1⟩ : Span).size = count + 1 := by
    unfold size
    dsimp only
    omega
  unfold toList
  rw [hsize]
  dsimp only at h ⊢
  clear hlt hsize
  induction count generalizing lo with
  | zero =>
      rw [List.range'_succ, List.range'_zero, List.foldr_cons, List.foldr_nil]
      cases spans with
      | nil => rfl
      | cons t rest =>
          have hne : t.lo ≠ lo + 1 := by
            have hlo := h.1
            omega
          rw [push, if_neg hne]
  | succ count ih =>
      have hend : lo + (count + 1) + 1 = lo + 1 + count + 1 := by omega
      rw [List.range'_succ, List.foldr_cons, hend, ih (lo + 1) (hend ▸ h), push, if_pos rfl]

/-- Spans that lie apart are the maximal spans of their positions. -/
theorem cover_flatMap {start : Nat} {spans : List Span} (h : Apart start spans) :
    cover (spans.flatMap toList) = spans := by
  induction spans generalizing start with
  | nil => rfl
  | cons s rest ih =>
      unfold cover at ih ⊢
      rw [List.flatMap_cons, List.foldr_append, ih h.2.2, foldr_push_toList h.2.1 h.2.2]

end Span

namespace Runs

open MultisigTree.Span

/-- The spans of ones among runs, the first run starting at `start`. -/
def spansFrom (start : Nat) : Bool → List Nat → List Span
  | _, [] => []
  | true, n :: rest => ⟨start, start + n⟩ :: spansFrom (start + n) false rest
  | false, n :: rest => spansFrom (start + n) true rest

theorem positions_eq_flatMap (start : Nat) (value : Bool) (lengths : List Nat) :
    positions start value lengths = (spansFrom start value lengths).flatMap Span.toList := by
  induction lengths generalizing start value with
  | nil => cases value <;> rfl
  | cons n rest ih =>
      cases value with
      | false => exact ih (start + n) true
      | true =>
          have hsize : (⟨start, start + n⟩ : Span).size = n := Nat.add_sub_cancel_left start n
          rw [positions, spansFrom, List.flatMap_cons, ih, Span.toList, hsize]

theorem apart_spansFrom (start : Nat) (value : Bool) {lengths : List Nat}
    (hpos : ∀ n ∈ lengths, 0 < n) :
    Apart (if value then start else start + 1) (spansFrom start value lengths) := by
  induction lengths generalizing start value with
  | nil => cases value <;> trivial
  | cons n rest ih =>
      have hn := hpos n List.mem_cons_self
      have hrest : ∀ k ∈ rest, 0 < k := fun k hk => hpos k (List.mem_cons_of_mem _ hk)
      cases value with
      | false => exact (ih (start + n) true hrest).weaken (Nat.add_le_add_left hn start)
      | true =>
          have hlt : start < start + n := by omega
          exact ⟨Nat.le_refl start, hlt, ih (start + n) false hrest⟩

theorem alternate_spansFrom (start : Nat) {lengths : List Nat}
    (hclosed : nextValue false lengths = false) :
    alternate start (spansFrom start false lengths) = lengths := by
  match lengths, hclosed with
  | [], _ => rfl
  | [_], hclosed => cases hclosed
  | n :: k :: rest, hclosed =>
      have hgap : start + n - start = n := Nat.add_sub_cancel_left start n
      have hsize : (⟨start + n, start + n + k⟩ : Span).size = k :=
        Nat.add_sub_cancel_left (start + n) k
      have hrest : nextValue false rest = false := hclosed
      rw [spansFrom, spansFrom, alternate, hsize]
      dsimp only
      rw [hgap, alternate_spansFrom (start + n + k) hrest]

theorem ofSpans_spansFrom {r : Runs} (hproper : r.Proper) :
    ofSpans (spansFrom 0 r.first r.lengths) = r := by
  obtain ⟨first, lengths⟩ := r
  have hpos : ∀ n ∈ lengths, 0 < n := hproper.pos
  have hclosed : nextValue first lengths = false := hproper.closed
  match first, lengths, hclosed with
  | false, [], _ => rfl
  | true, [], hclosed => cases hclosed
  | true, n :: rest, hclosed =>
      have hsize : (⟨0, 0 + n⟩ : Span).size = n := Nat.add_sub_cancel_left 0 n
      rw [spansFrom, ofSpans, if_pos rfl, hsize, alternate_spansFrom (0 + n) hclosed]
  | false, [_], hclosed => cases hclosed
  | false, n :: k :: rest, hclosed =>
      have hlo : ¬ 0 + n = 0 := by
        have hn := hpos n List.mem_cons_self
        omega
      have hspans := alternate_spansFrom 0 hclosed
      simp only [spansFrom] at hspans ⊢
      rw [ofSpans, if_neg hlo, hspans]

end Runs

namespace Mask

/-- Proper runs are the runs of the mask they make. -/
theorem runs_ofRuns? {length : Nat} {r : Runs} {m : Mask} (hproper : r.Proper)
    (h : ofRuns? length r = some m) : m.runs = r ∧ m.length = length := by
  unfold ofRuns? at h
  split at h
  · cases h
    have hapart := Runs.apart_spansFrom 0 r.first hproper.pos
    constructor
    · unfold runs spans
      dsimp only
      rw [Runs.ones, Runs.positions_eq_flatMap, Span.cover_flatMap hapart,
        Runs.ofSpans_spansFrom hproper]
    · rfl
  · cases h

/-- A mask is read from its written form only. -/
theorem encode_of_decode {m : Mask} {bytes : List UInt8} (h : decode bytes = .ok m) :
    m.encode = .ok bytes := by
  unfold decode at h
  split at h
  · cases h
  · rename_i hlong
    dsimp only at h
    split at h
    · cases h
    · rename_i r hruns
      split at h
      · rename_i m' hmask
        cases h
        have hcode := RunLength.encode_of_decode hruns
        have hmake := runs_ofRuns? hcode.1 hmask
        have hlen : (bytes.take 2).length = 2 := List.length_take_of_le (by omega)
        have hstart := BigEndian.encode_decode (bytes.take 2)
        have hlt : BigEndian.decode (bytes.take 2) < 2 ^ 16 := by
          have hbound := BigEndian.decode_lt (bytes.take 2)
          rwa [hlen] at hbound
        rw [hlen] at hstart
        rw [encode, hmake.2, if_pos hlt, hmake.1, hcode.2, hstart, List.take_append_drop]
      · cases h

/-- A byte string is the written form of a mask exactly if the mask is read
from it, and the masks of fewer than `2 ^ 16` positions, and no others, have a
written form. -/
theorem encode_iff_decode (m : Mask) :
    (∀ bytes, m.encode = .ok bytes ↔ decode bytes = .ok m) ∧
      ((∃ bytes, m.encode = .ok bytes) ↔ m.length < 2 ^ 16) :=
  ⟨fun _ => ⟨decode_encode, encode_of_decode⟩, encode_isOk_iff⟩

/-- The first sixteen of twenty positions are written `[0, 20, 4, 2]`. A second
group of seven zeros behind the number 16 is refused. -/
example : decode [0, 20, 4, 18] = .error (.mask .badVarint) := by cbv

end Mask

end MultisigTree
