import MultisigTree.Proofs.MaskRuns
import MultisigTree.Proofs.Markings
import MultisigTree.Proofs.Preliminaries

/-!
# Masks that do not know their bounds

A mask carries the proof that it marks nothing beyond its length. A bare mask is
only a length and a list of marked positions, and its contributions are counted
off the runs of that list without a look at the length. Its operations put one
position after the other into an empty bare mask, where a position out of range
is passed over in silence. A mask and a bare mask that are made in the same way
nevertheless show the same (`Making.bare_eq`), so whatever is done to a bare
mask, and whatever bytes it is to read, it never marks a position beyond its
length (`Making.stays_in_bounds`).
-/
namespace MultisigTree

/-- A length, and a list of marked positions that need not respect it. -/
structure BareMask where
  length : Nat
  ones : List Nat
  deriving DecidableEq

namespace BareMask

def empty (length : Nat) : BareMask := ⟨length, []⟩

def get (m : BareMask) (i : Nat) : Bool :=
  i < m.length && i ∈ m.ones

/-- The sizes of the runs of marked positions, added up. -/
def card (m : BareMask) : Nat :=
  ((Span.cover m.ones).map Span.size).foldr (· + ·) 0

def isEmpty (m : BareMask) : Bool :=
  m.card = 0

def isFull (m : BareMask) : Bool :=
  m.card = m.length

def set (m : BareMask) (i : Nat) (value : Bool) : BareMask :=
  if i < m.length then
    { m with
      ones := if value then AscendingList.insert i m.ones else AscendingList.erase i m.ones }
  else m

/-- Marks the listed positions one after the other. -/
def ofList (length : Nat) (positions : List Nat) : BareMask :=
  positions.foldl (·.set · true) (empty length)

def concat (m n : BareMask) : Except Crash BareMask := do
  let length ← Word.add m.length n.length
  let moved ← n.ones.mapM (Word.add · m.length)
  return ofList length (m.ones ++ moved)

def slice (m : BareMask) (lo hi : Nat) : BareMask :=
  if lo ≤ hi ∧ hi ≤ m.length then
    ofList (hi - lo) ((m.ones.filter fun i => lo ≤ i && i < hi).map (· - lo))
  else m

def union (m n : BareMask) : BareMask :=
  ofList m.length (m.ones ++ n.ones)

def inter (m n : BareMask) : BareMask :=
  ofList m.length (m.ones.filter n.get)

/-- Reads another mask over this one, which stays as it is if the bytes are
refused. The runs are taken as they are read, once the last one is known to end
within the length. -/
def load (m : BareMask) (bytes : List UInt8) : Except Fault Unit × BareMask :=
  if bytes.length < 2 then (.error (.shortBuffer 2 bytes.length), m)
  else
    let length := BigEndian.decode (bytes.take 2)
    match RunLength.decode (bytes.drop 2) with
    | .error cause => (.error (.mask cause), m)
    | .ok r =>
        if length < r.total then (.error (.mask (.beyondLength (r.total - 1) length)), m)
        else (.ok (), ⟨length, r.ones⟩)

/-- What keeps a bare mask from showing more than its length allows. -/
structure InBounds (m : BareMask) : Prop where
  ascending : Ascending m.ones
  bounded : ∀ i ∈ m.ones, i < m.length
  card_eq : m.card = m.ones.length
  get_iff : ∀ i, m.get i = true ↔ i ∈ m.ones
  get_beyond : ∀ i, m.length ≤ i → m.get i = false
  isEmpty_iff : m.isEmpty = true ↔ ∀ i, m.get i = false
  isFull_iff : m.isFull = true ↔ ∀ i < m.length, m.get i = true

end BareMask

namespace Mask

/-- Forgets the bounds of a mask. -/
def bare (m : Mask) : BareMask := ⟨m.length, m.ones⟩

/-- Reads another mask over this one, which stays as it is if the bytes are
refused. -/
def load (m : Mask) (bytes : List UInt8) : Except Fault Unit × Mask :=
  match decode bytes with
  | .ok m' => (.ok (), m')
  | .error fault => (.error fault, m)

end Mask

/-- A way to make a mask. Copies need no way of their own: a mask may be used any
number of times. -/
inductive Making where
  | empty (length : Nat)
  | set (w : Making) (i : Nat) (value : Bool)
  | concat (w x : Making)
  | slice (w : Making) (lo hi : Nat)
  | union (w x : Making)
  | inter (w x : Making)
  | load (w : Making) (bytes : List UInt8)

namespace Making

def mask : Making → Except Crash Mask
  | empty length => .ok (.empty length)
  | set w i value => return (← w.mask).set i value
  | concat w x => do (← w.mask).concat (← x.mask)
  | slice w lo hi => return (← w.mask).slice lo hi
  | union w x => return (← w.mask).union (← x.mask)
  | inter w x => return (← w.mask).inter (← x.mask)
  | load w bytes => return ((← w.mask).load bytes).2

def bare : Making → Except Crash BareMask
  | empty length => .ok (.empty length)
  | set w i value => return (← w.bare).set i value
  | concat w x => do (← w.bare).concat (← x.bare)
  | slice w lo hi => return (← w.bare).slice lo hi
  | union w x => return (← w.bare).union (← x.bare)
  | inter w x => return (← w.bare).inter (← x.bare)
  | load w bytes => return ((← w.bare).load bytes).2

end Making

/-! ## Both do the same -/

namespace Mask

@[simp] theorem length_bare (m : Mask) : m.bare.length = m.length := rfl

theorem get_bare (m : Mask) (i : Nat) : m.bare.get i = m.get i :=
  m.decide_and_get i

theorem bare_set (m : Mask) (i : Nat) (value : Bool) :
    (m.set i value).bare = m.bare.set i value := by
  unfold set BareMask.set bare
  by_cases hi : i < m.length
  · cases value <;> simp [hi]
  · simp [hi]

theorem append_eq_ofList (m n : Mask) :
    m ++ n = ofList (m.length + n.length) (m.ones ++ n.ones.map (· + m.length)) :=
  (ofList_ones (m ++ n)).symm

theorem slice_eq_ofList {m : Mask} {lo hi : Nat} (hle : lo ≤ hi) (hhi : hi ≤ m.length) :
    m.slice lo hi =
      ofList (hi - lo) ((m.ones.filter fun i => lo ≤ i && i < hi).map (· - lo)) := by
  have hones : (m.slice lo hi).ones = (m.ones.filter fun i => lo ≤ i && i < hi).map (· - lo) := by
    unfold slice
    rw [if_pos ⟨hle, hhi⟩]
  rw [← hones, ← length_slice hle hhi, ofList_ones]

theorem union_eq_ofList (m n : Mask) : m.union n = ofList m.length (m.ones ++ n.ones) := by
  apply ext_get
  · rfl
  · intro i
    rw [get_union, get_ofList]
    simp [get]

theorem inter_eq_ofList (m n : Mask) : m.inter n = ofList m.length (m.ones.filter n.get) := by
  apply ext_get
  · rfl
  · intro i
    have hbound := m.bounded i
    rw [get_inter, get_ofList, Bool.eq_iff_iff]
    simp only [Bool.and_eq_true, get_eq_true_iff, decide_eq_true_eq, List.mem_filter]
    tauto

end Mask

namespace BareMask

theorem ofList_eq_bare (length : Nat) (positions : List Nat) :
    ofList length positions = (Mask.ofList length positions).bare := by
  have hfold : ∀ m : Mask, positions.foldl (·.set · true) m.bare =
      (positions.foldl (·.set · true) m).bare := by
    induction positions with
    | nil => simp
    | cons i positions ih =>
        intro m
        rw [List.foldl_cons, List.foldl_cons, ← Mask.bare_set, ih]
  rw [Mask.ofList_eq_foldl]
  exact hfold (.empty length)

end BareMask

namespace Mask

/-- Positions moved behind a mask fit a word if the lengths do. -/
theorem bare_concat (m n : Mask) : m.bare.concat n.bare = (m.concat n).map bare := by
  by_cases hfits : m.length + n.length < Word.limit
  · have hword : Word.add m.length n.length = .ok (m.length + n.length) :=
      Word.add_eq_ok_iff.2 ⟨hfits, rfl⟩
    have hmoved : n.ones.mapM (Word.add · m.length) = .ok (n.ones.map (· + m.length)) :=
      List.mapM_eq_ok fun i hi => by
        have := n.bounded i hi
        exact Word.add_eq_ok_iff.2 ⟨by omega, rfl⟩
    rw [concat_eq_ok hfits, append_eq_ofList]
    unfold BareMask.concat bare
    simp only [hword, hmoved, bind, Except.bind, BareMask.ofList_eq_bare]
    rfl
  · have hword : Word.add m.length n.length = .error .addOverflow := if_neg hfits
    unfold BareMask.concat concat bare
    simp only [hword]
    rfl

theorem bare_slice (m : Mask) (lo hi : Nat) : (m.slice lo hi).bare = m.bare.slice lo hi := by
  unfold BareMask.slice
  split
  · rename_i h
    rw [slice_eq_ofList h.1 h.2, ← BareMask.ofList_eq_bare]
    rfl
  · rename_i h
    rw [slice_of_invalid h]

theorem bare_union (m n : Mask) : (m.union n).bare = m.bare.union n.bare := by
  rw [union_eq_ofList, ← BareMask.ofList_eq_bare]
  rfl

theorem bare_inter (m n : Mask) : (m.inter n).bare = m.bare.inter n.bare := by
  have hget : n.bare.get = n.get := funext n.get_bare
  rw [inter_eq_ofList, ← BareMask.ofList_eq_bare, ← hget]
  rfl

/-- What a bare mask reads is within its length, as the runs are. -/
theorem bare_load (m : Mask) (bytes : List UInt8) :
    m.bare.load bytes = ((m.load bytes).1, (m.load bytes).2.bare) := by
  unfold BareMask.load load decode ofRuns?
  split
  · rfl
  · cases RunLength.decode (bytes.drop 2) with
    | error cause => rfl
    | ok r =>
        by_cases h : r.total ≤ BigEndian.decode (bytes.take 2)
        · simp [h, Nat.not_lt.2 h, bare]
        · simp [h, Nat.not_le.1 h]

theorem card_bare (m : Mask) : m.bare.card = m.card := by
  have hsizes : ∀ spans : List Span,
      (spans.map Span.size).foldr (· + ·) 0 = (spans.flatMap Span.toList).length := by
    intro spans
    induction spans with
    | nil => rfl
    | cons s spans ih => simp [ih, Span.length_toList]
  unfold BareMask.card bare card
  rw [hsizes, Span.flatMap_cover m.ascending]

theorem inBounds_bare (m : Mask) : m.bare.InBounds where
  ascending := m.ascending
  bounded := m.bounded
  card_eq := m.card_bare
  get_iff i := by
    rw [get_bare]
    exact get_eq_true_iff
  get_beyond i hi := by
    rw [get_bare]
    exact get_of_length_le hi
  isEmpty_iff := by
    have hempty : m.bare.isEmpty = m.isEmpty := by simp only [BareMask.isEmpty, isEmpty, card_bare]
    simp only [hempty, get_bare, isEmpty_iff, List.eq_nil_iff_forall_not_mem, get,
      decide_eq_false_iff_not]
  isFull_iff := by
    have hfull : m.bare.isFull = m.isFull := by
      simp only [BareMask.isFull, isFull, card_bare, length_bare]
    simp only [hfull, get_bare, isFull_iff, length_bare]

end Mask

namespace Making

/-- However it is made, a bare mask is a mask whose bounds are forgotten. -/
theorem bare_eq (w : Making) : w.bare = w.mask.map Mask.bare := by
  symm
  induction w with
  | empty length => rfl
  | set w i value ih =>
      exact Crash.map_bind ih fun m => congrArg Except.ok (m.bare_set i value)
  | concat w x ihw ihx =>
      exact Crash.map_bind ihw fun m => Crash.map_bind ihx fun n => (m.bare_concat n).symm
  | slice w lo hi ih =>
      exact Crash.map_bind ih fun m => congrArg Except.ok (m.bare_slice lo hi)
  | union w x ihw ihx =>
      exact Crash.map_bind ihw fun m => Crash.map_bind ihx fun n =>
        congrArg Except.ok (m.bare_union n)
  | inter w x ihw ihx =>
      exact Crash.map_bind ihw fun m => Crash.map_bind ihx fun n =>
        congrArg Except.ok (m.bare_inter n)
  | load w bytes ih =>
      refine Crash.map_bind ih fun m => ?_
      rw [m.bare_load bytes]
      rfl

theorem exists_mask {w : Making} {b : BareMask} (h : w.bare = .ok b) :
    ∃ m, w.mask = .ok m ∧ m.bare = b := by
  rw [bare_eq] at h
  cases hm : w.mask with
  | error crash => simp [hm, Except.map] at h
  | ok m =>
      rw [hm] at h
      exact ⟨m, rfl, Except.ok.inj h⟩

/-- A bare mask, whatever was done to make it, is the mask made in the same way
and shows nothing beyond its length. Setting a position changes that position
alone, if it has it, and bytes that are refused change nothing. -/
theorem stays_in_bounds {w : Making} {b : BareMask} (h : w.bare = .ok b) :
    (∃ m, w.mask = .ok m ∧ m.bare = b) ∧ b.InBounds ∧
      (∀ i value, (b.set i value).length = b.length ∧
        ∀ j, (b.set i value).get j = if j = i ∧ i < b.length then value else b.get j) ∧
      ∀ bytes fault, (b.load bytes).1 = .error fault → (b.load bytes).2 = b := by
  obtain ⟨m, hm, rfl⟩ := exists_mask h
  refine ⟨⟨m, hm, rfl⟩, m.inBounds_bare, fun i value => ?_, fun bytes fault hfault => ?_⟩
  · rw [← Mask.bare_set]
    refine ⟨m.length_set i value, fun j => ?_⟩
    rw [Mask.get_bare, Mask.get_set, Mask.get_bare]
    rfl
  · rw [Mask.bare_load] at hfault ⊢
    unfold Mask.load at hfault ⊢
    cases hread : Mask.decode bytes with
    | error cause => rfl
    | ok m' => simp [hread] at hfault

/-- Two of four positions are marked, and one that the mask does not have. Then
bytes are refused that describe four positions and mark the thirteenth. -/
theorem stays_in_bounds_of_four :
    ∃ (w : Making) (b : BareMask),
      w = .load (.union (.set (.empty 4) 2 true) (.set (.set (.empty 6) 5 true) 1 true))
        [0, 4, 144, 3] ∧
      w.bare = .ok b ∧ b = ⟨4, [1, 2]⟩ ∧ (∃ m, w.mask = .ok m ∧ m.bare = b) ∧ b.InBounds ∧
      (b.set 12 true).get 12 = false ∧ (b.set 3 true).get 3 = true ∧
      (b.load [0, 4, 144, 3]).1 = .error (.mask (.beyondLength 12 4)) ∧
      (b.load [0, 4, 144, 3]).2 = b := by
  have hmade : bare (.load (.union (.set (.empty 4) 2 true)
      (.set (.set (.empty 6) 5 true) 1 true)) [0, 4, 144, 3]) = .ok ⟨4, [1, 2]⟩ := by
    decide +kernel
  have hrefused : (BareMask.load ⟨4, [1, 2]⟩ [0, 4, 144, 3]).1 =
      .error (.mask (.beyondLength 12 4)) := by
    decide +kernel
  obtain ⟨hmask, hbounds, hset, hload⟩ := stays_in_bounds hmade
  refine ⟨_, _, rfl, hmade, rfl, hmask, hbounds, ?_, ?_, hrefused, hload _ _ hrefused⟩
  · rw [(hset 12 true).2]
    decide
  · rw [(hset 3 true).2]
    decide

end Making

end MultisigTree
