import MultisigTree.Mask.Wire

/-!
# Masks and their runs

The maximal spans of a mask lie apart from each other, and the lengths of its
alternating runs, up to the last marked position, tell the mask: they are
positive, the last one is a run of marked positions, and they list the marked
positions again (`Mask.ofRuns?_runs`).
-/
namespace MultisigTree

namespace Span

/-- Non-empty spans from `start` on, each with a gap before the next one. -/
def Apart : (start : Nat) → List Span → Prop
  | _, [] => True
  | start, s :: rest => start ≤ s.lo ∧ s.lo < s.hi ∧ Apart (s.hi + 1) rest

theorem Apart.weaken {start lower : Nat} {spans : List Span} (h : Apart start spans)
    (hle : lower ≤ start) : Apart lower spans := by
  cases spans with
  | nil => trivial
  | cons s rest => exact ⟨Nat.le_trans hle h.1, h.2⟩

theorem Apart.lo_lt_hi {start : Nat} {spans : List Span} {s : Span} (h : Apart start spans)
    (hs : s ∈ spans) : s.lo < s.hi := by
  induction spans generalizing start with
  | nil => simp at hs
  | cons t rest ih =>
      rcases List.mem_cons.1 hs with rfl | hs
      · exact h.2.1
      · exact ih h.2.2 hs

theorem apart_push {i : Nat} {spans : List Span} (h : Apart (i + 1) spans) :
    Apart i (push i spans) := by
  cases spans with
  | nil => exact ⟨Nat.le_refl i, Nat.lt_succ_self i, trivial⟩
  | cons s rest =>
      obtain ⟨hlo, hlt, hrest⟩ := h
      rw [push]
      split
      · exact ⟨Nat.le_refl i, Nat.lt_of_succ_lt (Nat.lt_of_le_of_lt hlo hlt), hrest⟩
      · rename_i hne
        have hgap : i + 1 + 1 ≤ s.lo := by omega
        exact ⟨Nat.le_refl i, Nat.lt_succ_self i, hgap, hlt, hrest⟩

theorem flatMap_push {i : Nat} {spans : List Span} (h : Apart (i + 1) spans) :
    (push i spans).flatMap toList = i :: spans.flatMap toList := by
  cases spans with
  | nil => simp [push, toList, size]
  | cons s rest =>
      rw [push]
      split
      · rename_i hlo
        have hsize : s.hi - i = s.hi - (i + 1) + 1 := by
          have := h.2.1
          omega
        simp [toList, size, hlo, hsize, List.range'_succ]
      · simp [toList, size]

theorem apart_cover {start : Nat} {is : List Nat} (h : Ascending is) (hlo : ∀ i ∈ is, start ≤ i) :
    Apart start (cover is) := by
  induction is generalizing start with
  | nil => trivial
  | cons i is ih =>
      obtain ⟨hlt, his⟩ := ascending_cons.1 h
      exact (apart_push (ih his hlt)).weaken (hlo i List.mem_cons_self)

theorem flatMap_cover {is : List Nat} (h : Ascending is) : (cover is).flatMap toList = is := by
  induction is with
  | nil => rfl
  | cons i is ih =>
      obtain ⟨hlt, his⟩ := ascending_cons.1 h
      have hpush : cover (i :: is) = push i (cover is) := rfl
      rw [hpush, flatMap_push (apart_cover his hlt), ih his]

end Span

namespace Runs

open MultisigTree.Span

theorem positions_alternate {start : Nat} {spans : List Span} (h : Apart start spans) :
    positions start false (alternate start spans) = spans.flatMap Span.toList := by
  induction spans generalizing start with
  | nil => rfl
  | cons s rest ih =>
      obtain ⟨hlo, hlt, hrest⟩ := h
      have hstart : start + (s.lo - start) = s.lo := by omega
      have hend : s.lo + s.size = s.hi := by
        unfold Span.size
        omega
      simp only [alternate, positions, hstart, hend, List.flatMap_cons]
      rw [ih (hrest.weaken (Nat.le_succ _))]
      rfl

theorem sum_alternate_le {start bound : Nat} {spans : List Span} (h : Apart start spans)
    (hstart : start ≤ bound) (hhi : ∀ s ∈ spans, s.hi ≤ bound) :
    start + (alternate start spans).foldr (· + ·) 0 ≤ bound := by
  induction spans generalizing start with
  | nil => simpa [alternate] using hstart
  | cons s rest ih =>
      obtain ⟨hlo, hlt, hrest⟩ := h
      have hs := hhi s List.mem_cons_self
      have := ih (hrest.weaken (Nat.le_succ _)) hs fun t ht => hhi t (List.mem_cons_of_mem _ ht)
      simp only [alternate, List.foldr_cons, Span.size]
      omega

theorem alternate_pos {start : Nat} {spans : List Span} (h : Apart (start + 1) spans) :
    ∀ n ∈ alternate start spans, 0 < n := by
  induction spans generalizing start with
  | nil => simp [alternate]
  | cons s rest ih =>
      obtain ⟨hlo, hlt, hrest⟩ := h
      intro n hn
      simp only [alternate, List.mem_cons] at hn
      rcases hn with rfl | rfl | hn
      · omega
      · unfold Span.size
        omega
      · exact ih hrest n hn

/-- The value that a run after all the runs would have. -/
def nextValue (first : Bool) (lengths : List Nat) : Bool :=
  lengths.foldl (fun value _ => !value) first

theorem nextValue_alternate (start : Nat) (spans : List Span) :
    nextValue false (alternate start spans) = false := by
  induction spans generalizing start with
  | nil => rfl
  | cons s rest ih => exact ih s.hi

/-- Runs as masks have them: none is empty, and the last one is of ones. -/
structure Proper (r : Runs) : Prop where
  pos : ∀ n ∈ r.lengths, 0 < n
  closed : nextValue r.first r.lengths = false

theorem proper_ofSpans {spans : List Span} (h : Apart 0 spans) : (ofSpans spans).Proper := by
  cases spans with
  | nil => exact ⟨by simp [ofSpans], rfl⟩
  | cons s rest =>
      obtain ⟨-, hlt, hrest⟩ := h
      rw [ofSpans]
      split
      · refine ⟨?_, nextValue_alternate s.hi rest⟩
        intro n hn
        rcases List.mem_cons.1 hn with rfl | hn
        · unfold Span.size
          omega
        · exact alternate_pos hrest n hn
      · refine ⟨alternate_pos ⟨?_, hlt, hrest⟩, nextValue_alternate 0 (s :: rest)⟩
        omega

theorem ones_ofSpans {spans : List Span} (h : Apart 0 spans) :
    (ofSpans spans).ones = spans.flatMap Span.toList := by
  cases spans with
  | nil => rfl
  | cons s rest =>
      rw [ofSpans]
      split
      · rename_i hlo
        have hsize : s.size = s.hi := by simp [Span.size, hlo]
        simp only [ones, positions, List.flatMap_cons, Nat.zero_add, hsize]
        rw [positions_alternate (h.2.2.weaken (Nat.le_succ _)), Span.toList, hlo, hsize]
      · exact positions_alternate h

theorem total_ofSpans_le {spans : List Span} {bound : Nat} (h : Apart 0 spans)
    (hhi : ∀ s ∈ spans, s.hi ≤ bound) : (ofSpans spans).total ≤ bound := by
  cases spans with
  | nil => exact Nat.zero_le _
  | cons s rest =>
      rw [ofSpans]
      split
      · have := sum_alternate_le (h.2.2.weaken (Nat.le_succ _)) (hhi s List.mem_cons_self)
          fun t ht => hhi t (List.mem_cons_of_mem _ ht)
        simp only [total, List.foldr_cons, Span.size]
        omega
      · have := sum_alternate_le h (Nat.zero_le _) hhi
        simpa [total] using this

end Runs

namespace Mask

open MultisigTree.Span Runs

variable (m : Mask)

theorem apart_spans : Apart 0 m.spans :=
  apart_cover m.ascending fun _ _ => Nat.zero_le _

theorem proper_runs : m.runs.Proper :=
  proper_ofSpans m.apart_spans

theorem ones_runs : m.runs.ones = m.ones := by
  rw [runs, ones_ofSpans m.apart_spans, spans, flatMap_cover m.ascending]

theorem total_runs_le : m.runs.total ≤ m.length := by
  refine total_ofSpans_le m.apart_spans fun s hs => ?_
  have hlt := m.apart_spans.lo_lt_hi hs
  have hmem : s.hi - 1 ∈ m.ones := by
    rw [← flatMap_cover m.ascending]
    refine List.mem_flatMap.2 ⟨s, hs, mem_toList.2 ?_⟩
    exact ⟨by omega, by omega⟩
  have := m.bounded _ hmem
  omega

/-- The runs of a mask tell the mask. -/
theorem ofRuns?_runs : ofRuns? m.length m.runs = some m := by
  unfold ofRuns?
  rw [dif_pos m.total_runs_le]
  have := m.ones_runs
  cases m
  simp_all

end Mask

end MultisigTree
