import Mathlib.Tactic.Ring
import MultisigTree.Proofs.MaskRuns

/-!
# Reading back the run-length coding

A bit string is read in the same way however many zeros stand behind it, so
nothing is lost when these are cut off and the last byte is filled up. Reading
what was written for proper runs therefore gives the runs again
(`RunLength.decode_encode`), and a written length takes at most three bits for
each position (`RunLength.length_encode_le`).
-/
namespace MultisigTree

namespace Bits

/-- `b` is `a` with zeros behind it. -/
def Pads (a b : List Bool) : Prop :=
  ∃ count, b = a ++ List.replicate count false

theorem Pads.refl (a : List Bool) : Pads a a := ⟨0, by simp⟩

theorem Pads.cons {a b : List Bool} (bit : Bool) (h : Pads a b) : Pads (bit :: a) (bit :: b) := by
  obtain ⟨count, rfl⟩ := h
  exact ⟨count, rfl⟩

theorem Pads.drop {a b : List Bool} (h : Pads a b) (n : Nat) : Pads (a.drop n) (b.drop n) := by
  obtain ⟨count, rfl⟩ := h
  rw [List.drop_append, List.drop_replicate]
  exact ⟨_, rfl⟩

theorem Pads.take {a b : List Bool} (h : Pads a b) (n : Nat) : Pads (a.take n) (b.take n) := by
  obtain ⟨count, rfl⟩ := h
  rw [List.take_append, List.take_replicate]
  exact ⟨_, rfl⟩

theorem Pads.headD {a b : List Bool} (h : Pads a b) : b.headD false = a.headD false := by
  obtain ⟨count, rfl⟩ := h
  cases a with
  | nil => cases count <;> rfl
  | cons bit a => rfl

theorem toNat_replicate (count : Nat) : toNat (List.replicate count false) = 0 := by
  induction count with
  | zero => rfl
  | succ count ih => simp [List.replicate_succ, toNat, ih]

theorem toNat_append_replicate (a : List Bool) (count : Nat) :
    toNat (a ++ List.replicate count false) = toNat a := by
  induction a with
  | nil => exact toNat_replicate count
  | cons bit a ih => simp [toNat, ih]

theorem toNat_append (a b : List Bool) : toNat (a ++ b) = toNat a + 2 ^ a.length * toNat b := by
  induction a with
  | nil => simp [toNat]
  | cons bit a ih =>
      rw [List.cons_append, toNat, toNat, ih, List.length_cons, Nat.pow_succ]
      ring

theorem Pads.toNat_take {a b : List Bool} (h : Pads a b) (n : Nat) :
    toNat (b.take n) = toNat (a.take n) := by
  obtain ⟨count, rfl⟩ := h
  rw [List.take_append, List.take_replicate, toNat_append_replicate]

theorem Pads.contains_true {a b : List Bool} (h : Pads a b) :
    b.contains true = a.contains true := by
  obtain ⟨count, rfl⟩ := h
  rw [Bool.eq_iff_iff]
  simp

theorem pads_trim (bits : List Bool) : Pads (trim bits) bits := by
  induction bits with
  | nil => exact .refl []
  | cons bit bits ih =>
      rw [trim]
      split
      · rename_i hnil
        obtain ⟨count, hbits⟩ := hnil ▸ ih
        cases bit
        · exact ⟨count + 1, by simp [hbits, List.replicate_succ]⟩
        · exact ⟨count, by simp [hbits]⟩
      · exact ih.cons bit

/-- A trimmed bit string is empty or ends in a one. -/
theorem getLast?_trim (bits : List Bool) : trim bits = [] ∨ (trim bits).getLast? = some true := by
  induction bits with
  | nil => exact .inl rfl
  | cons bit bits ih =>
      rw [trim]
      split
      · cases bit <;> simp
      · rename_i hne
        right
        rw [List.getLast?_cons_of_ne_nil hne]
        exact ih.resolve_left hne

theorem ofBytes_cons (byte : UInt8) (bytes : List UInt8) :
    ofBytes (byte :: bytes) = ofNat 8 byte.toNat ++ ofBytes bytes := rfl

theorem ofNat_append_zeros {bits : List Bool} {width : Nat} (h : bits.length ≤ width) :
    ofNat width (toNat bits) = bits ++ List.replicate (width - bits.length) false := by
  have hlen : (bits ++ List.replicate (width - bits.length) false).length = width := by
    simp
    omega
  have h := ofNat_toNat (bits ++ List.replicate (width - bits.length) false)
  rwa [hlen, toNat_append_replicate] at h

theorem toNat_byte {bits : List Bool} (h : bits.length ≤ 8) :
    (UInt8.ofNat (toNat bits)).toNat = toNat bits := by
  have hpow : 2 ^ bits.length ≤ 2 ^ 8 := Nat.pow_le_pow_right (by omega) h
  exact UInt8.toNat_ofNat_of_lt' (Nat.lt_of_lt_of_le (toNat_lt bits) hpow)

theorem length_le_of_short {bits : List Bool}
    (h : ∀ a b c d e f g k rest, bits = a :: b :: c :: d :: e :: f :: g :: k :: rest → False) :
    bits.length ≤ 8 := by
  match bits with
  | a :: b :: c :: d :: e :: f :: g :: k :: rest => exact (h a b c d e f g k rest rfl).elim
  | [] | [_] | [_, _] | [_, _, _] | [_, _, _, _] | [_, _, _, _, _] | [_, _, _, _, _, _]
  | [_, _, _, _, _, _, _] => simp

/-- A bit string written in bytes and read again has zeros behind it. -/
theorem pads_ofBytes_toBytes (bits : List Bool) : Pads bits (ofBytes (toBytes bits)) := by
  fun_induction toBytes bits with
  | case1 a b c d e f g h rest ih =>
      obtain ⟨count, hrest⟩ := ih
      rw [ofBytes_cons, hrest, toNat_byte (by simp), ofNat_append_zeros (by simp)]
      exact ⟨count, by simp⟩
  | case2 => exact .refl []
  | case3 bits hlong hne =>
      have hlen := length_le_of_short hlong
      rw [ofBytes_cons, toNat_byte hlen, ofNat_append_zeros hlen]
      exact ⟨8 - bits.length, by simp [ofBytes]⟩

theorem true_mem_of_toNat_pos {bits : List Bool} (h : 0 < toNat bits) : true ∈ bits := by
  induction bits with
  | nil => exact absurd h (Nat.lt_irrefl 0)
  | cons bit bits ih =>
      cases bit
      · refine List.mem_cons_of_mem _ (ih ?_)
        simp only [toNat, Bool.toNat_false] at h
        omega
      · exact List.mem_cons_self

theorem toNat_pos_of_mem {bits : List Bool} (h : true ∈ bits) : 0 < toNat bits := by
  induction bits with
  | nil => simp at h
  | cons bit bits ih =>
      rw [toNat]
      rcases List.mem_cons.1 h with rfl | h
      · simp
      · have := ih h
        omega

theorem ofNat_toNat_ne_zero {bits : List Bool} (hlen : bits.length ≤ 8)
    (h : bits.getLast? = some true) : UInt8.ofNat (toNat bits) ≠ 0 := by
  intro hzero
  have hpos := toNat_pos_of_mem (List.mem_of_getLast? h)
  rw [← toNat_byte hlen, hzero] at hpos
  exact Nat.lt_irrefl 0 hpos

theorem toBytes_eq_nil_iff {bits : List Bool} : toBytes bits = [] ↔ bits = [] := by
  fun_cases toBytes bits with
  | case1 => simp
  | case2 => simp
  | case3 _ _ hne => exact iff_of_false (by simp) hne

/-- The last byte of a bit string that ends in a one is not zero. -/
theorem getLast?_toBytes {bits : List Bool} (h : bits.getLast? = some true) :
    (toBytes bits).getLast? ≠ some 0 := by
  fun_induction toBytes bits with
  | case1 a b c d e f g h' rest ih =>
      cases rest with
      | nil =>
          have := ofNat_toNat_ne_zero (by simp) h
          simpa [toBytes] using this
      | cons bit rest =>
          have hne : toBytes (bit :: rest) ≠ [] := by simp [toBytes_eq_nil_iff]
          rw [List.getLast?_cons_of_ne_nil hne]
          exact ih (by simpa using h)
  | case2 => simp
  | case3 bits hlong hne =>
      have := ofNat_toNat_ne_zero (length_le_of_short hlong) h
      simpa using this

end Bits

namespace RunLength

open Bits

/-- The same number was read, or the same fault found, and what is left differs
by zeros behind it. -/
def Agree : Except MaskFault (Nat × List Bool) → Except MaskFault (Nat × List Bool) → Prop
  | .ok (n, rest), .ok (n', rest') => n = n' ∧ Pads rest rest'
  | .error fault, .error fault' => fault = fault'
  | _, _ => False

theorem Agree.map {x y : Except MaskFault (Nat × List Bool)} (h : Agree x y) (f : Nat → Nat) :
    Agree (x.map fun r => (f r.1, r.2)) (y.map fun r => (f r.1, r.2)) := by
  cases x <;> cases y
  · exact h
  · exact h
  · exact h
  · exact ⟨congrArg f h.1, h.2⟩

theorem readVarint_agree (groups : Nat) (first : Bool) {a b : List Bool} (h : Pads a b) :
    Agree (readVarint groups first a) (readVarint groups first b) := by
  induction groups generalizing first a b with
  | zero => exact rfl
  | succ groups ih =>
      simp only [readVarint, h.toNat_take 8]
      split
      · exact rfl
      · split
        · split
          · exact rfl
          · exact ⟨rfl, h.drop 8⟩
        · exact (ih false (h.drop 8)).map fun high => toNat (a.take 8) - 128 + 128 * high

theorem readLength_agree {a b : List Bool} (htrue : a.contains true) (h : Pads a b) :
    Agree (readLength a) (readLength b) := by
  obtain ⟨count, rfl⟩ := h
  match a, htrue with
  | true :: rest, _ => exact ⟨rfl, count, rfl⟩
  | false :: true :: rest, _ =>
      have hpads : Pads rest (rest ++ List.replicate count false) := ⟨count, rfl⟩
      simp only [List.cons_append, readLength, hpads.toNat_take 4]
      split
      · exact rfl
      · exact ⟨rfl, hpads.drop 4⟩
  | false :: false :: rest, _ =>
      have hpads : Pads rest (rest ++ List.replicate count false) := ⟨count, rfl⟩
      have hread := readVarint_agree 10 true hpads
      simp only [List.cons_append, readLength, List.tail_cons]
      revert hread
      cases readVarint 10 true rest with
      | error fault =>
          cases readVarint 10 true (rest ++ List.replicate count false) with
          | error fault' => exact id
          | ok r => exact False.elim
      | ok r =>
          cases readVarint 10 true (rest ++ List.replicate count false) with
          | error fault' => exact False.elim
          | ok r' =>
              rintro ⟨hn, hrest⟩
              simp only [bind, Except.bind, ← hn]
              split
              · exact rfl
              · exact ⟨rfl, hrest⟩
  | [false], htrue => simp at htrue

theorem readLengths_of_error {value : Bool} {sum : Nat} {bits : List Bool} {fault : MaskFault}
    (htrue : bits.contains true) (h : readLength bits = .error fault) :
    readLengths value sum bits = .error fault := by
  rw [readLengths, if_pos htrue]
  split
  · rename_i fault' h'
    rw [h] at h'
    rw [Except.error.inj h']
  · rename_i h'
    rw [h] at h'
    cases h'

theorem readLengths_of_ok {value : Bool} {sum n : Nat} {bits rest : List Bool}
    (htrue : bits.contains true) (h : readLength bits = .ok (n, rest)) :
    readLengths value sum bits =
      if sum + n < Word.limit then (readLengths (!value) (sum + n) rest).map (n :: ·)
      else .error .overflow := by
  rw [readLengths, if_pos htrue]
  split
  · rename_i h'
    rw [h] at h'
    cases h'
  · rename_i h'
    rw [h] at h'
    cases h'
    rfl

/-- Zeros behind a bit string do not change the lengths read from it. -/
theorem readLengths_pads {value : Bool} {sum : Nat} {a b : List Bool} (h : Pads a b) :
    readLengths value sum b = readLengths value sum a := by
  induction hlen : a.length using Nat.strongRecOn generalizing value sum a b with
  | ind n ih =>
      by_cases htrue : a.contains true
      · have htrue' : b.contains true := by rwa [h.contains_true]
        have hagree := readLength_agree htrue h
        cases ha : readLength a with
        | error fault =>
            cases hb : readLength b with
            | error fault' =>
                rw [ha, hb] at hagree
                rw [readLengths_of_error htrue ha, readLengths_of_error htrue' hb,
                  show fault = fault' from hagree]
            | ok r =>
                rw [ha, hb] at hagree
                exact hagree.elim
        | ok r =>
            cases hb : readLength b with
            | error fault' =>
                rw [ha, hb] at hagree
                exact hagree.elim
            | ok r' =>
                obtain ⟨m, rest⟩ := r
                obtain ⟨m', rest'⟩ := r'
                rw [ha, hb] at hagree
                obtain ⟨rfl, hrest⟩ := hagree
                have hlt := readLength_length_lt ha
                rw [readLengths_of_ok htrue ha, readLengths_of_ok htrue' hb,
                  ih rest.length (hlen ▸ hlt) hrest rfl]
      · have htrue' : ¬ b.contains true := by rwa [h.contains_true]
        rw [readLengths, readLengths, if_neg htrue, if_neg htrue']

theorem length_writeVarint_le (n : Nat) : (writeVarint n).length ≤ n + 8 := by
  induction n using Nat.strongRecOn with
  | ind n ih =>
      rw [writeVarint]
      split
      · rw [length_ofNat]
        omega
      · have := ih (n / 128) (by omega)
        rw [List.length_append, List.length_cons, length_ofNat]
        omega

/-- The writing of a length takes at most three bits for each position. -/
theorem length_writeLength_le {n : Nat} (h : 0 < n) : (writeLength n).length ≤ 3 * n := by
  unfold writeLength
  split
  · simp
    omega
  · split
    · simp only [List.length_cons, length_ofNat]
      omega
    · have := length_writeVarint_le n
      simp only [List.length_cons]
      omega

theorem toNat_take_ofNat (width n : Nat) (rest : List Bool) :
    toNat ((ofNat width n ++ rest).take width) = n % 2 ^ width := by
  have hlen := length_ofNat width n
  rw [List.take_append_of_le_length (Nat.le_of_eq hlen.symm), List.take_of_length_le
    (Nat.le_of_eq hlen), toNat_ofNat]

theorem drop_ofNat (width n : Nat) (rest : List Bool) :
    (ofNat width n ++ rest).drop width = rest := by
  exact List.drop_left' (length_ofNat width n)

theorem ofNat_append_true (width n : Nat) :
    ofNat width n ++ [true] = ofNat (width + 1) (n % 2 ^ width + 2 ^ width) := by
  have hlen : (ofNat width n ++ [true]).length = width + 1 := by
    rw [List.length_append, length_ofNat, List.length_singleton]
  have h := ofNat_toNat (ofNat width n ++ [true])
  rw [hlen, toNat_append, toNat_ofNat, length_ofNat] at h
  simpa [Bits.toNat] using h.symm

/-- A number that takes at most so many groups is read back. -/
theorem readVarint_writeVarint (groups : Nat) {n : Nat} (first : Bool) (rest : List Bool)
    (hlt : n < 2 ^ (7 * groups)) (hfew : groups ≤ 9) (hpos : first = false → 0 < n) :
    readVarint (groups + 1) first (writeVarint n ++ rest) = .ok (n, rest) := by
  induction groups generalizing n first with
  | zero =>
      obtain rfl : n = 0 := by simpa using hlt
      cases first
      · exact absurd (hpos rfl) (Nat.lt_irrefl 0)
      · rw [writeVarint, if_pos (by omega)]
        simp only [readVarint, toNat_take_ofNat, drop_ofNat]
        simp
  | succ groups ih =>
      rw [writeVarint]
      split
      · rename_i hsmall
        have hmod : n % 2 ^ 8 = n := Nat.mod_eq_of_lt (by omega)
        rw [readVarint]
        simp only [toNat_take_ofNat, drop_ofNat, hmod]
        rw [if_neg (by omega), if_pos hsmall]
        cases first
        · have := hpos rfl
          rw [if_neg (by omega)]
        · simp
      · rename_i hlarge
        have hhigh : n / 128 < 2 ^ (7 * groups) := by
          have : 2 ^ (7 * (groups + 1)) = 2 ^ (7 * groups) * 128 := by
            rw [Nat.mul_succ, Nat.pow_add]
          omega
        have hgroup : ofNat 7 n ++ true :: writeVarint (n / 128) ++ rest =
            ofNat 8 (n % 2 ^ 7 + 2 ^ 7) ++ (writeVarint (n / 128) ++ rest) := by
          rw [← ofNat_append_true]
          simp
        have hmod : (n % 2 ^ 7 + 2 ^ 7) % 2 ^ 8 = n % 128 + 128 := by omega
        rw [hgroup, readVarint]
        simp only [toNat_take_ofNat, drop_ofNat, hmod]
        rw [if_neg (by omega), if_neg (by omega),
          ih false hhigh (by omega) (fun _ => Nat.div_pos (by omega) (by omega))]
        simp only [Except.map]
        congr 2
        omega

/-- A length below two to the 63 is read back. -/
theorem readLength_writeLength {n : Nat} (rest : List Bool) (hpos : 0 < n) (hlt : n < 2 ^ 63) :
    readLength (writeLength n ++ rest) = .ok (n, rest) := by
  unfold writeLength
  split
  · rename_i h
    subst h
    rfl
  · split
    · rename_i hne hsmall
      have hmod : n % 2 ^ 4 = n := Nat.mod_eq_of_lt (by omega)
      simp only [List.cons_append, readLength, toNat_take_ofNat, drop_ofNat, hmod]
      rw [if_neg (by omega)]
    · rename_i hlarge
      have hread := readVarint_writeVarint 9 true rest hlt (by omega) (by simp)
      simp only [List.cons_append, readLength, List.tail_cons, hread]
      simp only [bind, Except.bind]
      rw [if_neg (by omega)]

theorem true_mem_writeVarint {n : Nat} (h : 0 < n) : true ∈ writeVarint n := by
  rw [writeVarint]
  split
  · refine true_mem_of_toNat_pos ?_
    rw [toNat_ofNat]
    omega
  · simp

theorem true_mem_writeLength {n : Nat} (h : 0 < n) : true ∈ writeLength n := by
  unfold writeLength
  split
  · simp
  · split
    · simp
    · simp [true_mem_writeVarint h]

/-- Written lengths are read back, with any zeros behind them. -/
theorem readLengths_writeLength (value : Bool) (sum : Nat) {lengths : List Nat}
    (hpos : ∀ n ∈ lengths, 0 < n) (hsum : sum + lengths.foldr (· + ·) 0 < 2 ^ 63)
    (hclosed : Runs.nextValue value lengths = false) (count : Nat) :
    readLengths value sum (lengths.flatMap writeLength ++ List.replicate count false) =
      .ok lengths := by
  induction lengths generalizing value sum with
  | nil =>
      have hvalue : value = false := hclosed
      rw [readLengths]
      simp [hvalue]
  | cons n lengths ih =>
      rw [List.foldr_cons] at hsum
      have hn := hpos n List.mem_cons_self
      rw [List.flatMap_cons, List.append_assoc]
      have hread := readLength_writeLength
        (lengths.flatMap writeLength ++ List.replicate count false) hn (by omega)
      have htrue : (writeLength n ++
          (lengths.flatMap writeLength ++ List.replicate count false)).contains true :=
        List.contains_iff_mem.2 (List.mem_append_left _ (true_mem_writeLength hn))
      have hlimit : sum + n < Word.limit := by
        unfold Word.limit
        omega
      rw [readLengths_of_ok htrue hread, if_pos hlimit,
        ih _ _ (fun k hk => hpos k (List.mem_cons_of_mem _ hk)) (by omega) hclosed]
      rfl

theorem read_pads {a b : List Bool} (h : Pads a b) : read b = read a := by
  simp only [read, (h.take 2).contains_true, (h.drop 2).headD, readLengths_pads (h.drop 3)]

theorem read_write {r : Runs} (hproper : r.Proper) (htotal : r.total < 2 ^ 63) :
    read (write r) = .ok r := by
  have hlengths := readLengths_writeLength r.first 0 hproper.pos
    (by simpa [Runs.total] using htotal) hproper.closed 0
  rw [List.replicate_zero, List.append_nil] at hlengths
  simp [read, write, hlengths, Except.map]

/-- Proper runs are read back. -/
theorem decode_encode {r : Runs} (hproper : r.Proper) (htotal : r.total < 2 ^ 63) :
    decode (encode r) = .ok r := by
  unfold encode
  split
  · rename_i hnil
    obtain ⟨first, lengths⟩ := r
    obtain rfl : lengths = [] := hnil
    obtain rfl : first = false := hproper.closed
    exact read_write ⟨hproper.pos, rfl⟩ htotal
  · have hlast : (toBytes (trim (write r))).getLast? ≠ some 0 := by
      rcases getLast?_trim (write r) with hnil | htrue
      · rw [hnil]
        simp [toBytes]
      · exact getLast?_toBytes htrue
    rw [decode, if_neg hlast, read_pads (pads_ofBytes_toBytes _), ← read_pads (pads_trim _),
      read_write hproper htotal]

theorem length_toBytes_le (bits : List Bool) : (toBytes bits).length ≤ bits.length / 8 + 1 := by
  fun_induction toBytes bits with
  | case1 a b c d e f g h rest ih =>
      simp only [List.length_cons]
      omega
  | case2 => simp
  | case3 => simp

theorem length_trim_le (bits : List Bool) : (trim bits).length ≤ bits.length := by
  obtain ⟨count, h⟩ := pads_trim bits
  conv_rhs => rw [h]
  simp

theorem length_writeLengths_le {lengths : List Nat} (hpos : ∀ n ∈ lengths, 0 < n) :
    (lengths.flatMap writeLength).length ≤ 3 * lengths.foldr (· + ·) 0 := by
  induction lengths with
  | nil => simp
  | cons n lengths ih =>
      have := length_writeLength_le (hpos n List.mem_cons_self)
      have := ih fun k hk => hpos k (List.mem_cons_of_mem _ hk)
      rw [List.flatMap_cons, List.length_append, List.foldr_cons]
      omega

/-- The coding of runs takes at most three bits for each position. -/
theorem length_encode_le {r : Runs} (hproper : r.Proper) :
    (encode r).length ≤ (3 * r.total + 3) / 8 + 1 := by
  unfold encode
  split
  · simp
  · have hbytes := length_toBytes_le (trim (write r))
    have htrim := length_trim_le (write r)
    have hlengths := length_writeLengths_le hproper.pos
    have hwrite : (write r).length = (r.lengths.flatMap writeLength).length + 3 := by
      simp [write]
    unfold Runs.total
    omega

end RunLength

end MultisigTree
