import Mathlib.Data.List.Basic
import Mathlib.Data.List.Nodup
import Mathlib.Data.List.Perm.Subperm
import MultisigTree.Proofs.Markings
import MultisigTree.Proofs.Vouching
import MultisigTree.Tree.Combine

/-!
# Levels laid side by side

Parts of different levels, each with one position for every member of its
level, mark different members. Laying them into a window that has room for all
of them marks exactly the members they mark, each once, and vouches for them if
the parts do (`Place.combine_eq`, `Place.combineAll_eq`).
-/
namespace MultisigTree

namespace Mask

theorem mem_shift {m : Mask} {length offset i : Nat} :
    i ∈ (m.shift length offset).ones ↔ (∃ k ∈ m.ones, offset + k = i) ∧ i < length := by
  simp [shift]

end Mask

namespace Part

variable {κ σ : Type} {scheme : Scheme κ σ} {offset : Nat → Except Crash (Option Nat)}

theorem layAll_cons {mask : Mask} {signature : Option σ} {part : Part σ} {rest : List (Part σ)}
    {start : Nat} (hoffset : offset part.level = .ok (some start))
    (hword : ∀ i ∈ part.multisig.mask.ones, start + i < Word.limit) :
    layAll scheme offset mask signature (part :: rest) =
      layAll scheme offset (mask.union (part.multisig.mask.shift mask.length start))
        (some (match signature with
          | some s => scheme.merge s part.multisig.signature
          | none => part.multisig.signature)) rest := by
  have hall : part.multisig.mask.ones.all (start + · < Word.limit) = true := by
    simpa only [List.all_eq_true, decide_eq_true_eq] using hword
  have hshift : part.multisig.mask.shiftWord mask.length start =
      .ok (part.multisig.mask.shift mask.length start) := if_pos hall
  rw [layAll.eq_def]
  cases signature with
  | none => simp only [hoffset, bind, Except.bind, hshift]
  | some s => simp only [hoffset, bind, Except.bind, hshift]

/-- The marks of a part, moved to the offset of its level, fit a word. -/
def Movable (offset : Nat → Except Crash (Option Nat)) (part : Part σ) : Prop :=
  ∃ start, offset part.level = .ok (some start) ∧
    ∀ i ∈ part.multisig.mask.ones, start + i < Word.limit

theorem exists_layAll (scheme : Scheme κ σ) {parts : List (Part σ)}
    (hmovable : ∀ part ∈ parts, part.Movable offset) (mask : Mask) (signature : Option σ) :
    ∃ result : Mask, layAll scheme offset mask signature parts =
      .ok ((scheme.aggregate? (signature.toList ++ parts.map (·.multisig.signature))).map
        (⟨result, ·⟩)) := by
  induction parts generalizing mask signature with
  | nil =>
      refine ⟨mask, ?_⟩
      cases signature with
      | none => rfl
      | some s => rfl
  | cons part rest ih =>
      obtain ⟨start, hoffset, hword⟩ := hmovable part List.mem_cons_self
      obtain ⟨result, hlay⟩ := ih (fun q hq => hmovable q (List.mem_cons_of_mem _ hq)) _ _
      refine ⟨result, (layAll_cons hoffset hword).trans (hlay.trans ?_)⟩
      cases signature with
      | none => rfl
      | some s => rfl

theorem layAll_cons_cases {mask : Mask} {signature : Option σ} {part : Part σ}
    {rest : List (Part σ)} {m : Multisig σ}
    (h : layAll scheme offset mask signature (part :: rest) = .ok (some m)) :
    (offset part.level = .ok none ∧ layAll scheme offset mask signature rest = .ok (some m)) ∨
      ∃ start merged, offset part.level = .ok (some start) ∧
        layAll scheme offset (mask.union (part.multisig.mask.shift mask.length start))
          (some merged) rest = .ok (some m) := by
  rw [layAll.eq_def] at h
  cases hoffset : offset part.level with
  | error crash =>
      simp only [hoffset, bind, Except.bind] at h
      cases h
  | ok start? =>
      simp only [hoffset, bind, Except.bind] at h
      cases start? with
      | none => exact .inl ⟨rfl, h⟩
      | some start =>
          dsimp only [Mask.shiftWord] at h
          by_cases hfits : part.multisig.mask.ones.all (start + · < Word.limit) = true
          · rw [if_pos hfits] at h
            exact .inr ⟨start, _, rfl, h⟩
          · rw [if_neg hfits] at h
            cases h

/-- Whatever parts are laid into a mask, it marks what they mark, each part
from its offset on, as far as its length reaches. -/
theorem mem_layAll {mask : Mask} {signature : Option σ} {parts : List (Part σ)} {m : Multisig σ}
    (h : layAll scheme offset mask signature parts = .ok (some m)) :
    m.length = mask.length ∧ (∀ part ∈ parts, ∃ start?, offset part.level = .ok start?) ∧
      ∀ k, k ∈ m.mask.ones ↔ k ∈ mask.ones ∨ k < mask.length ∧
        ∃ part ∈ parts, ∃ start, offset part.level = .ok (some start) ∧
          k ∈ part.multisig.marks start := by
  induction parts generalizing mask signature with
  | nil =>
      cases signature with
      | none => cases h
      | some s =>
          cases h
          exact ⟨rfl, nofun, by simp⟩
  | cons part rest ih =>
      rcases layAll_cons_cases h with ⟨hoffset, hrest⟩ | ⟨start, merged, hoffset, hrest⟩
      · obtain ⟨hlen, hoffsets, hmem⟩ := ih hrest
        refine ⟨hlen, List.forall_mem_cons.2 ⟨⟨none, hoffset⟩, hoffsets⟩, fun k => ?_⟩
        simp [hmem, hoffset]
      · obtain ⟨hlen, hoffsets, hmem⟩ := ih hrest
        refine ⟨hlen, List.forall_mem_cons.2 ⟨⟨some start, hoffset⟩, hoffsets⟩, fun k => ?_⟩
        have hlength : (mask.union (part.multisig.mask.shift mask.length start)).length =
          mask.length := rfl
        rw [hmem, hlength, Mask.mem_union, Mask.mem_shift, ← Multisig.mem_marks]
        simp only [List.exists_mem_cons_iff, hoffset, Except.ok.injEq, Option.some.injEq,
          exists_eq_left']
        tauto

end Part

namespace Place

variable {κ σ : Type} (p : Place)

def startOf (level : Nat) : Nat :=
  (p.offset? level).getD 0

theorem offset?_eq {level : Nat} {s : Span} (h : p.peers level = .ok s) :
    p.offset? level = some s.lo := by
  simp [offset?, h, Except.toOption]

theorem startOf_eq {level : Nat} {s : Span} (h : p.peers level = .ok s) :
    p.startOf level = s.lo := by
  rw [startOf, offset?_eq p h, Option.getD_some]

/-- Where the mask of a level starts in a window, which has to be before it. -/
def offsetIn (w : Span) (level : Nat) : Except Crash (Option Nat) :=
  match p.offset? level with
  | some lo => some <$> Word.sub lo w.lo
  | none => .ok none

theorem offsetIn_eq {level : Nat} {s w : Span} (h : p.peers level = .ok s) (hlo : w.lo ≤ s.lo) :
    p.offsetIn w level = .ok (some (s.lo - w.lo)) := by
  simp only [offsetIn, p.offset?_eq h, Word.sub, if_pos hlo]
  rfl

theorem offsetIn_before {level : Nat} {s w : Span} (h : p.peers level = .ok s)
    (hlo : s.lo < w.lo) : p.offsetIn w level = .error .subOverflow := by
  simp only [offsetIn, p.offset?_eq h, Word.sub, if_neg (Nat.not_le.2 hlo)]
  rfl

/-- Combining lays the parts into the subtree below the level. -/
theorem combine_eq_layAll (scheme : Scheme κ σ) {parts : List (Part σ)} (hne : parts ≠ [])
    {level : Nat} (hlevels : ∀ part ∈ parts, part.level ≤ level) {w : Span}
    (hw : p.below level = .ok w) :
    p.combine scheme parts level =
      Part.layAll scheme (p.offsetIn w) (.empty w.size) none parts := by
  have hguard : (parts.isEmpty || parts.any (level < ·.level)) = false := by
    rw [Bool.or_eq_false_iff, List.any_eq_false]
    refine ⟨by simpa using hne, fun part hpart => ?_⟩
    simpa using hlevels part hpart
  rw [combine, hguard, hw]
  rfl

theorem combineAll_eq_layAll (scheme : Scheme κ σ) (parts : List (Part σ)) :
    p.combineAll scheme parts =
      Part.layAll scheme (p.offsetIn ⟨0, p.size⟩) (.empty p.size) none parts := by
  have hoffset : (fun level => Except.ok (p.offset? level)) = p.offsetIn ⟨0, p.size⟩ := by
    funext level
    unfold offsetIn
    cases p.offset? level with
    | none => rfl
    | some lo => rfl
  rw [combineAll, hoffset]

/-- A part with one position for each member of its level. -/
def Spans (part : Part σ) : Prop :=
  ∃ s, p.peers part.level = .ok s ∧ part.multisig.length = s.size

def Suits (level : Nat) (m : Multisig σ) : Prop :=
  level ≤ p.maxLevel ∧ ∃ s, p.peers level = .ok s ∧ m.length = s.size

theorem Suits.mem_marks {p : Place} {level i : Nat} {m : Multisig σ} (h : p.Suits level m)
    (hi : i ∈ m.marks (p.startOf level)) : i < p.size ∧ p.levelOf i = level := by
  obtain ⟨hle, s, hs, hlen⟩ := h
  obtain ⟨k, hk, rfl⟩ := Multisig.mem_marks.1 hi
  have hlt : k < m.length := m.mask.bounded k hk
  rw [hlen, Span.size] at hlt
  rw [p.startOf_eq hs]
  refine ((p.peers_spec hle hs).2.2 _).1 ⟨Nat.le_add_right _ _, ?_⟩
  omega

def marksOf (parts : List (Part σ)) : List Nat :=
  parts.flatMap fun part => part.multisig.marks (p.startOf part.level)

/-- Parts of different levels, each suiting its level. -/
structure Spread (parts : List (Part σ)) : Prop where
  ascending : parts.Pairwise (·.level < ·.level)
  suits : ∀ part ∈ parts, p.Suits part.level part.multisig

variable {p} {parts : List (Part σ)}

theorem mem_marksOf {i : Nat} :
    i ∈ p.marksOf parts ↔ ∃ part ∈ parts, i ∈ part.multisig.marks (p.startOf part.level) :=
  List.mem_flatMap

theorem Spread.nodup_marksOf (h : p.Spread parts) : (p.marksOf parts).Nodup := by
  refine List.nodup_flatMap.2 ⟨fun part _ => Multisig.nodup_marks _ _, ?_⟩
  refine h.ascending.imp_of_mem fun {a b} ha hb hlt i hia hib => ?_
  have ha := ((h.suits a ha).mem_marks hia).2
  have hb := ((h.suits b hb).mem_marks hib).2
  omega

theorem length_marksOf : (p.marksOf parts).length = (parts.map (·.multisig.card)).sum := by
  simp [marksOf, List.length_flatMap, Multisig.length_marks]

/-- `m` shows in the window `w` exactly what the parts show. -/
structure Gathers (p : Place) (scheme : Scheme κ σ) (parts : List (Part σ)) (w : Span)
    (m : Multisig σ) : Prop where
  length_eq : m.length = w.size
  marks_perm : (m.marks w.lo).Perm (p.marksOf parts)
  signature_eq : scheme.aggregate? (parts.map (·.multisig.signature)) = some m.signature

/-- What is laid into a window has one position for each member in it, and marks
those of them that the parts mark. -/
theorem mem_laid {scheme : Scheme κ σ} {w : Span} {m : Multisig σ}
    (h : Part.layAll scheme (p.offsetIn w) (.empty w.size) none parts = .ok (some m)) :
    m.length = w.size ∧ ∀ k, k ∈ m.mask.ones ↔ k < w.size ∧ ∃ part ∈ parts, ∃ s,
      p.peers part.level = .ok s ∧ w.lo + k ∈ part.multisig.marks s.lo := by
  obtain ⟨hlen, hoffsets, hmem⟩ := Part.mem_layAll h
  refine ⟨hlen, fun k => ?_⟩
  rw [hmem]
  have hempty : k ∉ (Mask.empty w.size).ones := List.not_mem_nil
  have hlength : (Mask.empty w.size).length = w.size := rfl
  simp only [hempty, false_or, hlength]
  refine and_congr_right fun _ => exists_congr fun part => and_congr_right fun hpart => ?_
  obtain ⟨start?, hstart⟩ := hoffsets part hpart
  cases hs : p.peers part.level with
  | error fault => simp [offsetIn, offset?, hs, Except.toOption]
  | ok s =>
      rcases Nat.lt_or_ge s.lo w.lo with hlo | hlo
      · rw [p.offsetIn_before hs hlo] at hstart
        cases hstart
      · simp only [p.offsetIn_eq hs hlo, Except.ok.injEq, Option.some.injEq, exists_eq_left',
          Multisig.mem_marks]
        refine exists_congr fun i => and_congr_right fun _ => ?_
        omega

theorem mem_combine {scheme : Scheme κ σ} {level : Nat} {w : Span} (hw : p.below level = .ok w)
    {m : Multisig σ} (h : p.combine scheme parts level = .ok (some m)) :
    m.length = w.size ∧ ∀ k, k ∈ m.mask.ones ↔ k < w.size ∧ ∃ part ∈ parts, ∃ s,
      p.peers part.level = .ok s ∧ w.lo + k ∈ part.multisig.marks s.lo := by
  unfold combine at h
  split at h
  · cases h
  · rw [hw] at h
    exact mem_laid h

/-- A part with one position for each member of its level marks only these. -/
theorem Spans.contains {part : Part σ} (h : p.Spans part) {s : Span}
    (hs : p.peers part.level = .ok s) {i : Nat} (hi : i ∈ part.multisig.marks s.lo) :
    s.Contains i := by
  obtain ⟨s', hs', hlen⟩ := h
  obtain rfl : s = s' := Except.ok.inj (hs.symm.trans hs')
  obtain ⟨k, hk, rfl⟩ := Multisig.mem_marks.1 hi
  have hlt : k < part.multisig.length := part.multisig.mask.bounded k hk
  rw [hlen] at hlt
  exact Span.contains_lo_add.2 hlt

/-- The marks of a part of a level that does not start before a window can be moved
into the window. -/
theorem Spans.movable {part : Part σ} (h : p.Spans part) (hlimit : p.size ≤ Word.limit) {w : Span}
    (hlo : w.lo ≤ p.startOf part.level) : part.Movable (p.offsetIn w) := by
  have ⟨s, hs, _⟩ := h
  rw [p.startOf_eq hs] at hlo
  refine ⟨s.lo - w.lo, p.offsetIn_eq hs hlo, fun i hi => ?_⟩
  have hmember := p.lt_size_of_peers hs (h.contains hs ((Multisig.add_mem_marks _).2 hi))
  omega

/-- What is laid into a window marks the members that the parts mark there, and
bears the signatures of all the parts. -/
theorem exists_laid (scheme : Scheme κ σ) (hlimit : p.size ≤ Word.limit) (hne : parts ≠ [])
    (hspans : ∀ part ∈ parts, p.Spans part) {w : Span}
    (hstart : ∀ part ∈ parts, w.lo ≤ p.startOf part.level) :
    ∃ m, Part.layAll scheme (p.offsetIn w) (.empty w.size) none parts = .ok (some m) ∧
      m.length = w.size ∧
      scheme.aggregate? (parts.map (·.multisig.signature)) = some m.signature ∧
      ∀ i, i ∈ m.marks w.lo ↔ i ∈ p.marksOf parts ∧ w.Contains i := by
  obtain ⟨result, hlay⟩ := Part.exists_layAll scheme
    (fun part hpart => (hspans part hpart).movable hlimit (hstart part hpart)) (.empty w.size) none
  obtain ⟨s, hs⟩ : ∃ s, scheme.aggregate? (parts.map (·.multisig.signature)) = some s := by
    cases parts with
    | nil => exact absurd rfl hne
    | cons part rest => exact ⟨_, rfl⟩
  rw [Option.toList_none, List.nil_append, hs, Option.map_some] at hlay
  obtain ⟨hlen, hmem⟩ := mem_laid hlay
  refine ⟨_, hlay, hlen, hs, fun i => ?_⟩
  have hparts : (∃ part ∈ parts, ∃ s, p.peers part.level = .ok s ∧
      i ∈ part.multisig.marks s.lo) ↔ i ∈ p.marksOf parts := by
    rw [mem_marksOf]
    refine exists_congr fun part => and_congr_right fun hpart => ?_
    obtain ⟨s, hs, -⟩ := hspans part hpart
    rw [hs, p.startOf_eq hs]
    simp only [Except.ok.injEq, exists_eq_left']
  rw [← hparts]
  constructor
  · intro hi
    obtain ⟨k, hk, rfl⟩ := Multisig.mem_marks.1 hi
    obtain ⟨hlt, hmarked⟩ := (hmem k).1 hk
    exact ⟨hmarked, Span.contains_lo_add.2 hlt⟩
  · rintro ⟨hmarked, hi⟩
    obtain ⟨k, rfl⟩ := Nat.exists_eq_add_of_le hi.1
    exact (Multisig.add_mem_marks _).2 ((hmem k).2 ⟨Span.contains_lo_add.1 hi, hmarked⟩)

theorem Spread.exists_laid (h : p.Spread parts) (scheme : Scheme κ σ)
    (hlimit : p.size ≤ Word.limit) (hne : parts ≠ []) {w : Span}
    (hwithin : ∀ part ∈ parts, ∀ s, p.peers part.level = .ok s → ∀ i, s.Contains i → w.Contains i) :
    ∃ m, Part.layAll scheme (p.offsetIn w) (.empty w.size) none parts = .ok (some m) ∧
      p.Gathers scheme parts w m := by
  have hspans : ∀ part ∈ parts, p.Spans part := fun part hpart => (h.suits part hpart).2
  have hstart : ∀ part ∈ parts, w.lo ≤ p.startOf part.level := by
    intro part hpart
    obtain ⟨s, hs, -⟩ := hspans part hpart
    rw [p.startOf_eq hs]
    exact (hwithin part hpart s hs s.lo (p.contains_lo_of_peers hs)).1
  obtain ⟨m, hm, hlen, hsig, hmarks⟩ := Place.exists_laid scheme hlimit hne hspans hstart
  refine ⟨m, hm, hlen, ?_, hsig⟩
  refine (List.perm_ext_iff_of_nodup (Multisig.nodup_marks _ _) h.nodup_marksOf).2 fun i => ?_
  rw [hmarks]
  refine and_iff_left_of_imp fun hi => ?_
  obtain ⟨part, hpart, hmem⟩ := mem_marksOf.1 hi
  obtain ⟨s, hs, -⟩ := hspans part hpart
  rw [p.startOf_eq hs] at hmem
  exact hwithin part hpart s hs i ((hspans part hpart).contains hs hmem)

theorem combine_eq (scheme : Scheme κ σ) (h : p.Spread parts) (hne : parts ≠ []) {level : Nat}
    (hbelow : ∀ part ∈ parts, part.level < level) (hle : level ≤ p.maxLevel + 1)
    (hlimit : p.size ≤ Word.limit) :
    ∃ w m, p.below level = .ok w ∧ p.combine scheme parts level = .ok (some m) ∧
      p.Gathers scheme parts w m := by
  have hw := p.below_eq hle
  obtain ⟨m, hm, hgathers⟩ := h.exists_laid scheme hlimit hne fun part hpart _ hs _ hi =>
    p.contains_below_of_lower (hbelow part hpart) hle hs hw hi
  have hcombine := p.combine_eq_layAll scheme hne
    (fun part hpart => Nat.le_of_lt (hbelow part hpart)) hw
  exact ⟨_, m, hw, hcombine.trans hm, hgathers⟩

theorem combineAll_eq (scheme : Scheme κ σ) (h : p.Spread parts) (hne : parts ≠ [])
    (hlimit : p.size ≤ Word.limit) :
    ∃ m, p.combineAll scheme parts = .ok (some m) ∧ p.Gathers scheme parts ⟨0, p.size⟩ m := by
  obtain ⟨m, hm, hgathers⟩ := h.exists_laid (w := ⟨0, p.size⟩) scheme hlimit hne
    fun _ _ _ hs i hi => ⟨Nat.zero_le i, p.lt_size_of_peers hs hi⟩
  exact ⟨m, (p.combineAll_eq_layAll scheme parts).trans hm, hgathers⟩

namespace Gathers

variable {scheme : Scheme κ σ} {w : Span} {m : Multisig σ}

theorem card_eq (h : p.Gathers scheme parts w m) : m.card = (parts.map (·.multisig.card)).sum := by
  rw [← length_marksOf (p := p), ← h.marks_perm.length_eq, Multisig.length_marks]

theorem mem_marks_iff (h : p.Gathers scheme parts w m) {i : Nat} :
    i ∈ m.marks w.lo ↔ ∃ part ∈ parts, i ∈ part.multisig.marks (p.startOf part.level) := by
  rw [h.marks_perm.mem_iff, mem_marksOf]

end Gathers

end Place

namespace Verifier

variable {κ σ : Type} {v : Verifier κ σ}

theorem verifies_foldl (lawful : v.scheme.Lawful) {start : Nat → Nat} {parts : List (Part σ)}
    (h : ∀ part ∈ parts, v.Vouches (start part.level) part.multisig) {ids : List Nat} {s : σ}
    (hs : v.scheme.verifies (v.keyOf ids) v.message s = true) :
    v.scheme.verifies
      (v.keyOf (ids ++ parts.flatMap fun part => part.multisig.marks (start part.level)))
      v.message ((parts.map (·.multisig.signature)).foldl v.scheme.merge s) = true := by
  induction parts generalizing ids s with
  | nil => simpa using hs
  | cons part rest ih =>
      rw [List.flatMap_cons, ← List.append_assoc]
      refine ih (fun q hq => h q (List.mem_cons_of_mem _ hq)) ?_
      rw [keyOf_append v lawful]
      exact lawful.verifies_merge _ _ _ _ _ hs (h part List.mem_cons_self)

/-- What is gathered vouches for the members it marks if every part does. -/
theorem vouches_of_gathers (lawful : v.scheme.Lawful) {p : Place} {parts : List (Part σ)}
    {w : Span} {m : Multisig σ} (hm : p.Gathers v.scheme parts w m)
    (h : ∀ part ∈ parts, v.Vouches (p.startOf part.level) part.multisig) :
    v.Vouches w.lo m := by
  unfold Vouches
  rw [v.keyOf_perm lawful hm.marks_perm]
  have hsig := hm.signature_eq
  cases parts with
  | nil => simp [Scheme.aggregate?] at hsig
  | cons part rest =>
      simp only [List.map_cons, Scheme.aggregate?, Option.some.injEq] at hsig
      rw [← hsig, Place.marksOf, List.flatMap_cons]
      exact verifies_foldl lawful (fun q hq => h q (List.mem_cons_of_mem _ hq))
        (h part List.mem_cons_self)

end Verifier

end MultisigTree
