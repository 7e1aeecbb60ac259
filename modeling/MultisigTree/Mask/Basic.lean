import MultisigTree.Ascending
import MultisigTree.Span
import MultisigTree.Word

/-!
# Contribution masks

A `Mask` marks which of `length` positions contributed. It is the ascending
list of the marked positions, all of them below the length, so two masks of
one length are equal as soon as they mark the same positions (`Mask.ext_get`).
A position at or beyond the length is never marked and cannot be.
-/
namespace MultisigTree

structure Mask where
  length : Nat
  ones : List Nat
  ascending : Ascending ones
  bounded : ∀ i ∈ ones, i < length
  deriving DecidableEq

namespace Mask

def empty (length : Nat) : Mask :=
  ⟨length, [], .nil, by simp⟩

/-- The mask of the listed positions; those beyond the length are left out. -/
def ofList (length : Nat) (positions : List Nat) : Mask where
  length := length
  ones := AscendingList.ofList (positions.filter (· < length))
  ascending := .ofList _
  bounded i h := by simpa using (List.mem_filter.1 (AscendingList.mem_ofList.1 h)).2

instance : Inhabited Mask := ⟨empty 0⟩

def get (m : Mask) (i : Nat) : Bool :=
  i ∈ m.ones

def card (m : Mask) : Nat :=
  m.ones.length

def isEmpty (m : Mask) : Bool :=
  m.card = 0

def isFull (m : Mask) : Bool :=
  m.card = m.length

/-- Marks or clears one position; one beyond the length is left alone. -/
def set (m : Mask) (i : Nat) (value : Bool) : Mask :=
  if h : i < m.length then
    if value then
      { m with
        ones := AscendingList.insert i m.ones
        ascending := m.ascending.insert
        bounded := fun j hj => (AscendingList.mem_insert.1 hj).elim (· ▸ h) (m.bounded j) }
    else
      { m with
        ones := AscendingList.erase i m.ones
        ascending := m.ascending.erase
        bounded := fun j hj => m.bounded j (AscendingList.mem_erase.1 hj).2 }
  else m

/-- The positions of `m` followed by those of `n`. -/
def append (m n : Mask) : Mask where
  length := m.length + n.length
  ones := m.ones ++ n.ones.map (· + m.length)
  ascending := by
    refine List.pairwise_append.2 ⟨m.ascending, ?_, ?_⟩
    · exact List.pairwise_map.2 (n.ascending.imp fun h => Nat.add_lt_add_right h _)
    · intro i hi j hj
      obtain ⟨k, _, rfl⟩ := List.mem_map.1 hj
      have := m.bounded i hi
      omega
  bounded i h := by
    rcases List.mem_append.1 h with h | h
    · have := m.bounded i h
      omega
    · obtain ⟨k, hk, rfl⟩ := List.mem_map.1 h
      have := n.bounded k hk
      omega

instance : Append Mask := ⟨append⟩

/-- `append`, where the length of the result has to fit a word. -/
def concat (m n : Mask) : Except Crash Mask := do
  let _ ← Word.add m.length n.length
  return m ++ n

/-- The positions from `lo` on and below `hi`, or all of them if these are no
bounds within the mask. -/
def slice (m : Mask) (lo hi : Nat) : Mask :=
  if lo ≤ hi ∧ hi ≤ m.length then
    { length := hi - lo
      ones := (m.ones.filter fun i => lo ≤ i && i < hi).map (· - lo)
      ascending := by
        refine List.pairwise_map.2 ((m.ascending.filter _).imp_of_mem fun {i j} hi hj h => ?_)
        simp at hi hj
        omega
      bounded := fun i h => by
        obtain ⟨k, hk, rfl⟩ := List.mem_map.1 h
        simp at hk
        omega }
  else m

/-- What either mask marks, within the length of the first. -/
def union (m n : Mask) : Mask where
  length := m.length
  ones := AscendingList.union m.ones (n.ones.filter (· < m.length))
  ascending := m.ascending.union (n.ascending.filter _)
  bounded i h := by
    rcases AscendingList.mem_union.1 h with h | h
    · exact m.bounded i h
    · simpa using (List.mem_filter.1 h).2

def inter (m n : Mask) : Mask where
  length := m.length
  ones := AscendingList.inter m.ones n.ones
  ascending := m.ascending.inter n.ascending
  bounded i h := m.bounded i ((mem_inter m.ascending n.ascending).1 h).1

/-- Some position is marked in both. -/
def meets (m n : Mask) : Bool :=
  !(m.inter n).isEmpty

/-- The maximal spans of marked positions, in increasing order. -/
def spans (m : Mask) : List Span :=
  Span.cover m.ones

/-- The digits of the `count` positions from `lo` on. The list holds the marked
ones among them in increasing order, so it is passed once. -/
def digitsFrom : (lo count : Nat) → List Nat → List Char
  | _, 0, _ => []
  | lo, count + 1, [] => '0' :: digitsFrom (lo + 1) count []
  | lo, count + 1, i :: rest =>
      if i = lo then '1' :: digitsFrom (lo + 1) count rest
      else '0' :: digitsFrom (lo + 1) count (i :: rest)

def digits (m : Mask) : String :=
  String.ofList (digitsFrom 0 m.length m.ones)

def render (m : Mask) : String :=
  s!"BitSet({m.card}/{m.length}: {m.digits})"

theorem get_eq_true_iff {m : Mask} {i : Nat} : m.get i = true ↔ i ∈ m.ones := by
  simp [get]

/-- Masks are told apart by their length and by what they mark. -/
theorem ext_get {m n : Mask} (hlen : m.length = n.length) (h : ∀ i, m.get i = n.get i) : m = n := by
  have : m.ones = n.ones :=
    m.ascending.ext n.ascending fun i => by
      rw [← get_eq_true_iff, ← get_eq_true_iff, h]
  cases m
  cases n
  simp_all

theorem digitsFrom_eq {lo count : Nat} {ones : List Nat} (h : Ascending ones)
    (hlo : ∀ i ∈ ones, lo ≤ i) :
    digitsFrom lo count ones =
      (List.range' lo count).map fun i => if i ∈ ones then '1' else '0' := by
  fun_induction digitsFrom lo count ones with
  | case1 => rfl
  | case2 lo count ih => simp [List.range'_succ, ih h (by simp)]
  | case3 count lo rest ih =>
      have ⟨hlt, hrest⟩ := ascending_cons.1 h
      rw [ih hrest hlt, List.range'_succ, List.map_cons, if_pos List.mem_cons_self]
      refine congrArg _ (List.map_congr_left fun i hi => ?_)
      have : i ≠ lo := by have := (List.mem_range'_1.1 hi).1; omega
      simp [this]
  | case4 lo count i rest hne ih =>
      have ⟨hlt, _⟩ := ascending_cons.1 h
      have hi : lo < i := by have := hlo i List.mem_cons_self; omega
      have hnot : lo ∉ i :: rest := fun m => by
        rcases List.mem_cons.1 m with e | m
        · omega
        · have := hlt lo m
          omega
      rw [List.range'_succ, List.map_cons, if_neg hnot,
        ih h fun j hj => (List.mem_cons.1 hj).elim (fun e => e ▸ hi) fun m => by
          have := hlt j m
          omega]

/-- A position's digit is 1 if it is marked and 0 if not. -/
theorem digits_eq (m : Mask) :
    m.digits = String.ofList ((List.range m.length).map fun i => if m.get i then '1' else '0') := by
  rw [digits, digitsFrom_eq m.ascending fun _ _ => Nat.zero_le _, List.range_eq_range']
  simp [get]

theorem isEmpty_iff {m : Mask} : m.isEmpty = true ↔ m.ones = [] := by
  simp [isEmpty, card]

end Mask

end MultisigTree
