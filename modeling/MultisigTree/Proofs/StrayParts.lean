import MultisigTree.Proofs.Windows

/-!
# Parts outside their window

For a level parts of all levels up to it are combined, but into the subtree
below it, which has no room for the members of the level itself. A part of the
level is moved to where they stand: in front of the subtree this crashes, behind
it the marks of the part are lost while its signature is merged
(`Place.combine_shows_all_iff`). Only level 0, the place itself, and the level
after the last one, the whole roster, are their own subtree.
-/
namespace MultisigTree

namespace Part

variable {κ σ : Type} (scheme : Scheme κ σ) {offset : Nat → Except Crash (Option Nat)}

theorem layAll_crash {crash : Crash} {parts : List (Part σ)}
    (hparts : ∀ part ∈ parts, offset part.level = .error crash ∨ part.Movable offset)
    (hcrash : ∃ part ∈ parts, offset part.level = .error crash) (mask : Mask)
    (signature : Option σ) : layAll scheme offset mask signature parts = .error crash := by
  induction parts generalizing mask signature with
  | nil =>
      obtain ⟨part, hpart, -⟩ := hcrash
      cases hpart
  | cons part rest ih =>
      rcases hparts part List.mem_cons_self with herror | ⟨start, hoffset, hword⟩
      · rw [layAll.eq_def]
        simp only [herror, bind, Except.bind]
      · obtain ⟨q, hq, hqcrash⟩ := hcrash
        rw [layAll_cons hoffset hword]
        refine ih (fun q hq => hparts q (List.mem_cons_of_mem _ hq)) ⟨q, ?_, hqcrash⟩ _ _
        refine (List.mem_cons.1 hq).resolve_left fun heq => ?_
        rw [heq, hoffset] at hqcrash
        cases hqcrash

end Part

namespace Place

variable {κ σ : Type} {p : Place} {level : Nat} {parts : List (Part σ)}

/-- Parts of levels up to `level`, each with one position for every member of its
level, and at least one of them. -/
structure Admits (p : Place) (level : Nat) (parts : List (Part σ)) : Prop where
  ne_nil : parts ≠ []
  level_le : ∀ part ∈ parts, part.level ≤ level
  sizeAt_pos : ∀ part ∈ parts, 0 < p.sizeAt part.level
  length_eq : ∀ part ∈ parts, part.multisig.length = p.sizeAt part.level

/-- The level of a part starts in the window `w`, or behind it, and all the
members that the part marks are in it. -/
def Encloses (p : Place) (w : Span) (part : Part σ) : Prop :=
  w.lo ≤ p.startOf part.level ∧ ∀ i ∈ part.multisig.marks (p.startOf part.level), w.Contains i

theorem Admits.spans (h : p.Admits level parts) {part : Part σ} (hpart : part ∈ parts) :
    p.Spans part := by
  obtain ⟨s, hs, hsize⟩ := p.exists_peers_of_sizeAt_pos (h.sizeAt_pos part hpart)
  exact ⟨s, hs, (h.length_eq part hpart).trans hsize.symm⟩

theorem Admits.combine_eq_error (h : p.Admits level parts) (scheme : Scheme κ σ)
    (hlimit : p.size ≤ Word.limit) {w : Span} (hw : p.below level = .ok w)
    (hbefore : ∃ part ∈ parts, p.startOf part.level < w.lo) :
    p.combine scheme parts level = .error .subOverflow := by
  have hcrash : ∀ part ∈ parts, p.startOf part.level < w.lo →
      p.offsetIn w part.level = .error .subOverflow := by
    intro part hpart hlt
    obtain ⟨s, hs, -⟩ := h.spans hpart
    exact p.offsetIn_before hs (p.startOf_eq hs ▸ hlt)
  rw [p.combine_eq_layAll scheme h.ne_nil h.level_le hw]
  refine Part.layAll_crash scheme (fun part hpart => ?_) ?_ _ _
  · exact (Nat.lt_or_ge (p.startOf part.level) w.lo).imp (hcrash part hpart)
      ((h.spans hpart).movable hlimit)
  · obtain ⟨part, hpart, hlt⟩ := hbefore
    exact ⟨part, hpart, hcrash part hpart hlt⟩

/-- What is combined marks the members that the parts mark in the window, and
bears the signatures of all the parts. -/
theorem Admits.exists_combine (h : p.Admits level parts) (scheme : Scheme κ σ)
    (hlimit : p.size ≤ Word.limit) {w : Span} (hw : p.below level = .ok w)
    (hstart : ∀ part ∈ parts, w.lo ≤ p.startOf part.level) :
    ∃ m, p.combine scheme parts level = .ok (some m) ∧ m.length = w.size ∧
      scheme.aggregate? (parts.map (·.multisig.signature)) = some m.signature ∧
      ∀ i, i ∈ m.marks w.lo ↔ i ∈ p.marksOf parts ∧ w.Contains i := by
  rw [p.combine_eq_layAll scheme h.ne_nil h.level_le hw]
  exact exists_laid scheme hlimit h.ne_nil (fun _ => h.spans) hstart

theorem Admits.shows_all_iff_encloses (h : p.Admits level parts) (scheme : Scheme κ σ)
    (hlimit : p.size ≤ Word.limit) {w : Span} (hw : p.below level = .ok w) :
    (∃ m, p.combine scheme parts level = .ok (some m) ∧
      ∀ i ∈ p.marksOf parts, i ∈ m.marks w.lo) ↔ ∀ part ∈ parts, p.Encloses w part := by
  constructor
  · rintro ⟨m, hm, hall⟩
    have hstart : ∀ part ∈ parts, w.lo ≤ p.startOf part.level := by
      intro part hpart
      refine Nat.le_of_not_lt fun hlt => ?_
      cases hm.symm.trans (h.combine_eq_error scheme hlimit hw ⟨part, hpart, hlt⟩)
    obtain ⟨m', hm', -, -, hmarks⟩ := h.exists_combine scheme hlimit hw hstart
    cases hm.symm.trans hm'
    refine fun part hpart => ⟨hstart part hpart, fun i hi => ?_⟩
    exact ((hmarks i).1 (hall i (mem_marksOf.2 ⟨part, hpart, hi⟩))).2
  · intro hencloses
    obtain ⟨m, hm, -, -, hmarks⟩ := h.exists_combine scheme hlimit hw
      fun part hpart => (hencloses part hpart).1
    refine ⟨m, hm, fun i hi => (hmarks i).2 ⟨hi, ?_⟩⟩
    obtain ⟨part, hpart, hmem⟩ := mem_marksOf.1 hi
    exact (hencloses part hpart).2 i hmem

theorem below_of_ends (hends : level = 0 ∨ level = p.maxLevel + 1) :
    p.below level = p.peers level := by
  rcases hends with rfl | rfl
  · rw [p.below_eq (Nat.zero_le _), p.peers_zero, Walk.block_zero, Span.clip,
      Nat.min_eq_left p.leaf_lt]
  · rw [p.below_root, p.peers_root]

theorem beside_below (hpos : 0 < level) (hle : level ≤ p.maxLevel) {s w : Span}
    (hs : p.peers level = .ok s) (hw : p.below level = .ok w) :
    (∀ i, s.Contains i → ¬ w.Contains i) ∧ (w.lo ≤ s.lo ↔ p.leaf < s.lo) := by
  have hcontains := fun i => p.contains_below (i := i) hpos (Nat.le_succ_of_le hle) hw
  have hbeside : ∀ i, s.Contains i → ¬ w.Contains i := by
    intro i hi hmem
    have hlevel := (((p.peers_spec hle hs).2.2 i).1 hi).2
    exact absurd ((hcontains i).1 hmem).2 (Nat.not_lt.2 (Nat.le_of_eq hlevel.symm))
  refine ⟨hbeside, ?_⟩
  have hleaf : w.Contains p.leaf :=
    (hcontains p.leaf).2 ⟨p.leaf_lt, (p.levelOf_eq_zero_iff.2 rfl).symm ▸ hpos⟩
  have hstart := hbeside s.lo (p.contains_lo_of_peers hs)
  unfold Span.Contains at hleaf hstart
  omega

/-- The window below `level` encloses the parts of lower levels. It does not enclose
one of `level` itself, unless this marks nobody and its members are behind the
place. -/
theorem Admits.encloses_iff (h : p.Admits level parts) (hle : level ≤ p.maxLevel + 1) {w : Span}
    (hw : p.below level = .ok w) {part : Part σ} (hpart : part ∈ parts) :
    p.Encloses w part ↔ level = 0 ∨ level = p.maxLevel + 1 ∨
      (part.level = level → part.multisig.card = 0 ∧ p.leaf < p.startOf level) := by
  have hspans := h.spans hpart
  have ⟨s, hs, _⟩ := hspans
  have hstart := p.startOf_eq hs
  have hmarks : ∀ i ∈ part.multisig.marks s.lo, s.Contains i := fun _ => hspans.contains hs
  unfold Encloses
  rw [hstart]
  rcases Nat.lt_or_eq_of_le (h.level_le part hpart) with hlower | heq
  · have hin : ∀ i, s.Contains i → w.Contains i := fun _ =>
      p.contains_below_of_lower hlower hle hs hw
    have hlo := (hin s.lo (p.contains_lo_of_peers hs)).1
    exact iff_of_true ⟨hlo, fun i hi => hin i (hmarks i hi)⟩
      (.inr (.inr fun heq => absurd heq (Nat.ne_of_lt hlower)))
  · rw [heq] at hs hstart
    simp only [heq, true_implies]
    by_cases hends : level = 0 ∨ level = p.maxLevel + 1
    · rw [below_of_ends hends, hs, Except.ok.injEq] at hw
      subst hw
      exact iff_of_true ⟨Nat.le_refl _, hmarks⟩ (hends.imp_right .inl)
    · obtain ⟨hzero, hroot⟩ := not_or.1 hends
      obtain ⟨hout, hside⟩ := beside_below (by omega) (by omega) hs hw
      have hnobody : (∀ i ∈ part.multisig.marks s.lo, w.Contains i) ↔ part.multisig.card = 0 := by
        rw [← part.multisig.length_marks s.lo, List.length_eq_zero_iff,
          List.eq_nil_iff_forall_not_mem]
        refine forall_congr' fun i => forall_congr' fun hi => ?_
        exact iff_of_false (hout i (hmarks i hi)) not_false
      simp only [hzero, hroot, false_or, hstart]
      rw [hside, hnobody, and_comm]

/-- Parts that may be combined for a level, whatever their levels up to it and
their order. If the level of one of them starts before the subtree below
`level`, combining them crashes. Else they become one multi-signature over the
subtree that bears the signatures of all of them, but marks only those members
they mark that are in the subtree. So it shows every contribution it bears
exactly if `level` is the place itself or the whole roster, or all the parts of
`level` mark nobody and its members are behind the place. -/
theorem combine_shows_all_iff (scheme : Scheme κ σ) {p : Place} (hlimit : p.size ≤ Word.limit)
    {level : Nat} (hle : level ≤ p.maxLevel + 1) {parts : List (Part σ)}
    (hadmits : p.Admits level parts) :
    ∃ w, p.below level = .ok w ∧
      ((∃ part ∈ parts, p.startOf part.level < w.lo) →
        p.combine scheme parts level = .error .subOverflow) ∧
      ((∀ part ∈ parts, w.lo ≤ p.startOf part.level) →
        ∃ m, p.combine scheme parts level = .ok (some m) ∧ m.length = w.size ∧
          scheme.aggregate? (parts.map (·.multisig.signature)) = some m.signature ∧
          ∀ i, i ∈ m.marks w.lo ↔ i ∈ p.marksOf parts ∧ w.Contains i) ∧
      ((∃ m, p.combine scheme parts level = .ok (some m) ∧
          ∀ i ∈ p.marksOf parts, i ∈ m.marks w.lo) ↔
        level = 0 ∨ level = p.maxLevel + 1 ∨ ∀ part ∈ parts, part.level = level →
          part.multisig.card = 0 ∧ p.leaf < p.startOf level) := by
  have hw := p.below_eq hle
  generalize (Walk.block p.leaf level).clip p.size = w at hw
  refine ⟨w, hw, hadmits.combine_eq_error scheme hlimit hw,
    hadmits.exists_combine scheme hlimit hw, ?_⟩
  calc _ ↔ ∀ part ∈ parts, p.Encloses w part := hadmits.shows_all_iff_encloses scheme hlimit hw
    _ ↔ ∀ part ∈ parts, level = 0 ∨ level = p.maxLevel + 1 ∨
          (part.level = level → part.multisig.card = 0 ∧ p.leaf < p.startOf level) :=
        forall₂_congr fun part hpart => hadmits.encloses_iff hle hw hpart
    _ ↔ _ := by simp only [forall_or_left]

/-- The second of four members combines its own contribution with that of the
last one for level 2, which starts behind the first two: the last one has
signed, but is not marked. Its neighbour, on level 1, is the first member, which
is in front of it. -/
theorem combine_shows_all_iff_of_four :
    ∃ (p : Place) (parts neighbours : List (Part Plain.Signature)), (p.size = 4 ∧ p.leaf = 1) ∧
      (p.size ≤ Word.limit ∧ 2 ≤ p.maxLevel + 1 ∧ p.Admits 2 parts ∧ p.Admits 1 neighbours) ∧
      p.below 2 = .ok ⟨0, 2⟩ ∧ p.marksOf parts = [1, 3] ∧
      (∃ m, p.combine Plain.scheme parts 2 = .ok (some m) ∧ m.signature.signers = .ofList [1, 3] ∧
        1 ∈ m.marks 0 ∧ 3 ∉ m.marks 0) ∧
      p.combine Plain.scheme neighbours 1 = .error .subOverflow := by
  obtain ⟨p, hp⟩ : ∃ p : Place, p = ⟨4, 1, by decide⟩ := ⟨_, rfl⟩
  obtain ⟨parts, hparts⟩ : ∃ parts : List (Part Plain.Signature),
      parts = [⟨0, .ofList 1 [0], ⟨.ofList [1], true⟩⟩, ⟨2, .ofList 2 [1], ⟨.ofList [3], true⟩⟩] :=
    ⟨_, rfl⟩
  obtain ⟨neighbours, hneighbours⟩ : ∃ neighbours : List (Part Plain.Signature),
      neighbours = [⟨1, .ofList 1 [0], ⟨.ofList [0], true⟩⟩] := ⟨_, rfl⟩
  have hplace : p.size = 4 ∧ p.leaf = 1 := by
    rw [hp]
    exact ⟨rfl, rfl⟩
  have hlimit : p.size ≤ Word.limit := by
    rw [hp]
    decide
  have hle : 2 ≤ p.maxLevel + 1 := by
    rw [hp]
    decide
  have hadmits : p.Admits 2 parts := by
    rw [hp, hparts]
    exact ⟨by simp, by decide, by decide, by decide⟩
  have hadmits' : p.Admits 1 neighbours := by
    rw [hp, hneighbours]
    exact ⟨by simp, by decide, by decide, by decide⟩
  have hmarks : p.marksOf parts = [1, 3] := by
    rw [hp, hparts]
    decide
  have hstarts : ∀ part ∈ parts, 0 ≤ p.startOf part.level := fun _ _ => Nat.zero_le _
  have hbelow : p.below 2 = .ok ⟨0, 2⟩ := by
    rw [hp]
    rfl
  have hbelow' : p.below 1 = .ok ⟨1, 2⟩ := by
    rw [hp]
    rfl
  have hbefore : ∃ part ∈ neighbours, p.startOf part.level < 1 := by
    rw [hp, hneighbours]
    decide
  have hsigned : Plain.scheme.aggregate? (parts.map (·.multisig.signature)) =
      some ⟨.ofList [1, 3], true⟩ := by
    rw [hparts]
    decide
  obtain ⟨w, hw, -, hlost, -⟩ := combine_shows_all_iff Plain.scheme hlimit hle hadmits
  cases hbelow.symm.trans hw
  obtain ⟨m, hm, -, hsignature, hshown⟩ := hlost hstarts
  obtain ⟨w', hw', hcrash, -, -⟩ :=
    combine_shows_all_iff Plain.scheme hlimit (Nat.le_of_succ_le hle) hadmits'
  cases hbelow'.symm.trans hw'
  rw [hmarks] at hshown
  refine ⟨p, parts, neighbours, hplace, ⟨hlimit, hle, hadmits, hadmits'⟩, hbelow, hmarks,
    ⟨m, hm, ?_, (hshown 1).2 (by decide), fun hshows => ?_⟩, hcrash hbefore⟩
  · rw [← Option.some.inj (hsigned.symm.trans hsignature)]
  · exact absurd ((hshown 3).1 hshows).2 (by decide)

/-- Not all that may be combined is combined and shown: for level 1 the second of
four members may combine what the first one sent, and crashes. -/
theorem combine_crashes : ¬ ∀ (p : Place) (level : Nat) (parts : List (Part Plain.Signature)),
    p.size ≤ Word.limit → level ≤ p.maxLevel + 1 → p.Admits level parts →
      ∃ w m, p.below level = .ok w ∧ p.combine Plain.scheme parts level = .ok (some m) ∧
        ∀ i ∈ p.marksOf parts, i ∈ m.marks w.lo := by
  intro hsafe
  obtain ⟨parts, hparts⟩ : ∃ parts : List (Part Plain.Signature),
      parts = [⟨1, .ofList 1 [0], ⟨.ofList [0], true⟩⟩] := ⟨_, rfl⟩
  have hadmits : (⟨4, 1, by decide⟩ : Place).Admits 1 parts := by
    rw [hparts]
    exact ⟨by simp, by decide, by decide, by decide⟩
  have hcrash : (⟨4, 1, by decide⟩ : Place).combine Plain.scheme parts 1 =
      .error .subOverflow := by
    rw [hparts]
    decide
  obtain ⟨-, m, -, hm, -⟩ := hsafe _ 1 parts (by decide) (by decide) hadmits
  cases hcrash.symm.trans hm

end Place

end MultisigTree
