import MultisigTree.Proofs.Aggregates
import MultisigTree.Proofs.Coverage

/-!
# Aggregates are excerpts of one picture

All that is held, over all members, shows each member once: as the entry of the
member's level shows it (`Holdings.Pictures`). What is held for the levels up to
some level is the part of this picture over the subtree of the place below the
next level, and is signed by the entries of these levels, from the lowest on
(`Holdings.aggregates_are_excerpts`).
-/
namespace MultisigTree

namespace LevelMap

variable {α : Type}

theorem filter_entries (t : LevelMap α) (bound : Nat) :
    t.entries.filter (·.1 < bound) =
      (List.range bound).filterMap fun level => (t.get? level).map (level, ·) := by
  refine entries_ext ((List.pairwise_map.1 t.ascending).filter _) ?_ fun e => ?_
  · refine List.pairwise_filterMap.2 (List.pairwise_lt_range.imp fun hlt e he e' he' => ?_)
    obtain ⟨a, -, rfl⟩ := Option.map_eq_some_iff.1 he
    obtain ⟨a', -, rfl⟩ := Option.map_eq_some_iff.1 he'
    exact hlt
  · rw [List.mem_filter, List.mem_filterMap, decide_eq_true_eq]
    constructor
    · rintro ⟨hmem, hlt⟩
      have hentry : t.get? e.1 = some e.2 := get?_eq_some_iff.2 hmem
      exact ⟨e.1, List.mem_range.2 hlt, Option.map_eq_some_iff.2 ⟨e.2, hentry, rfl⟩⟩
    · rintro ⟨level, hlevel, he⟩
      obtain ⟨a, ha, rfl⟩ := Option.map_eq_some_iff.1 he
      exact ⟨get?_eq_some_iff.1 ha, List.mem_range.1 hlevel⟩

end LevelMap

namespace Holdings

variable {κ σ : Type} {scheme : Scheme κ σ} {p : Place} {h : Holdings σ} {full m : Multisig σ}

/-- What is held for the levels up to `level`, from the lowest on. -/
def upTo (h : Holdings σ) (level : Nat) : List (Multisig σ) :=
  (List.range (level + 1)).filterMap h.best?

theorem map_multisig_parts (h : Holdings σ) (level : Nat) :
    (h.parts.filter (·.level < level + 1)).map (·.multisig) = h.upTo level := by
  have hentries := congrArg (List.map (·.2)) (h.table.filter_entries (level + 1))
  rw [List.map_filterMap] at hentries
  unfold parts upTo
  rw [List.filter_map, List.map_map]
  refine Eq.trans hentries (List.filterMap_congr fun k _ => ?_)
  rw [Option.map_map]
  exact Option.map_id'

/-- `full` shows every member as the entry of the member's level does. -/
structure Pictures (h : Holdings σ) (p : Place) (full : Multisig σ) : Prop where
  length_eq : full.length = p.size
  get_iff : ∀ level s g, level ≤ p.maxLevel → p.peers level = .ok s → s.Contains g →
    (full.mask.get g = true ↔ ∃ m, h.best? level = some m ∧ m.mask.get (g - s.lo) = true)
  card_eq : full.card = ∑ level ∈ Finset.range (p.maxLevel + 1), h.count level

theorem mem_full_iff (hsuits : h.Each p.Suits)
    (hfull : p.Gathers scheme (h.parts.filter (·.level < p.maxLevel + 1)) ⟨0, p.size⟩ full)
    {g : Nat} : g ∈ full.mask.ones ↔ h.Shows p g := by
  have hmarks := hsuits.mem_marks_iff hfull (i := 0 + g)
  rw [Multisig.add_mem_marks, Nat.zero_add] at hmarks
  rw [hmarks]
  refine and_iff_left_of_imp fun hshows => ?_
  exact Nat.lt_succ_of_le (p.levelOf_le_maxLevel (hsuits.shows_lt hshows))

theorem pictures_of_gathers (hsuits : h.Each p.Suits)
    (hfull : p.Gathers scheme (h.parts.filter (·.level < p.maxLevel + 1)) ⟨0, p.size⟩ full) :
    h.Pictures p full where
  length_eq := hfull.length_eq
  get_iff level s g hle hs hg := by
    have hlevel := ((p.peers_spec hle hs).2.2 g).1 hg
    rw [Mask.get_eq_true_iff, mem_full_iff hsuits hfull, Shows, hlevel.2, p.startOf_eq hs]
    refine exists_congr fun m => and_congr_right fun _ => ?_
    rw [Mask.get_eq_true_iff, ← Multisig.add_mem_marks s.lo, Nat.add_sub_cancel' hg.1]
  card_eq := by rw [hfull.card_eq, sum_card_parts, below]

/-- What is combined for a level is what all that is held shows below it. -/
theorem mask_eq_slice (hsuits : h.Each p.Suits)
    (hfull : p.Gathers scheme (h.parts.filter (·.level < p.maxLevel + 1)) ⟨0, p.size⟩ full)
    {level : Nat} (hpos : 0 < level) (hle : level ≤ p.maxLevel + 1) {w : Span}
    (hw : p.below level = .ok w)
    (hm : p.Gathers scheme (h.parts.filter (·.level < level)) w m) :
    m.mask = full.mask.slice w.lo w.hi := by
  have hlen : full.mask.length = p.size := hfull.length_eq
  have hhi : w.hi ≤ full.mask.length := hlen ▸ p.below_hi_le hle hw
  have hlo : w.lo ≤ w.hi := by
    have hleaf := (p.contains_below hpos hle hw).2
      ⟨p.leaf_lt, (p.levelOf_eq_zero_iff.2 rfl).symm ▸ hpos⟩
    exact Nat.le_of_lt (Nat.lt_of_le_of_lt hleaf.1 hleaf.2)
  refine Mask.ext_get (hm.length_eq.trans (Mask.length_slice hlo hhi).symm) fun i => ?_
  rw [Bool.eq_iff_iff, Mask.get_eq_true_iff, Mask.get_eq_true_iff, Mask.mem_slice hlo hhi,
    mem_full_iff hsuits hfull, ← Multisig.add_mem_marks w.lo, hsuits.mem_marks_iff hm]
  constructor
  · rintro ⟨hshows, hlevel⟩
    have hmem := (p.contains_below hpos hle hw).2 ⟨hsuits.shows_lt hshows, hlevel⟩
    exact ⟨Span.contains_lo_add.1 hmem, hshows⟩
  · rintro ⟨hi, hshows⟩
    exact ⟨hshows, ((p.contains_below hpos hle hw).1 (Span.contains_lo_add.2 hi)).2⟩

theorem combined_of_nothing (scheme : Scheme κ σ) {level : Nat}
    (hnothing : ∀ lower ≤ min level p.maxLevel, h.best? lower = none) :
    h.combined scheme p level = .ok none := by
  have hempty : h.parts.filter (·.level ≤ min level p.maxLevel) = [] := by
    refine List.filter_eq_nil_iff.2 fun part hpart hle => ?_
    have hnone := hnothing part.level (of_decide_eq_true hle)
    rw [mem_parts.1 hpart] at hnone
    cases hnone
  simp only [combined, hempty]
  rfl

theorem whole_of_nothing (scheme : Scheme κ σ) (p : Place)
    (hnothing : ∀ level, h.best? level = none) : h.whole scheme p = .ok none := by
  have hempty : h.parts = [] := by
    refine List.eq_nil_iff_forall_not_mem.2 fun part hpart => ?_
    have hnone := hnothing part.level
    rw [mem_parts.1 hpart] at hnone
    cases hnone
  rw [whole, hempty]
  rfl

theorem aggregate?_upTo (hsuits : h.Each p.Suits) {level : Nat} {w : Span}
    (hm : p.Gathers scheme (h.parts.filter (·.level < min level p.maxLevel + 1)) w m) :
    scheme.aggregate? ((h.upTo level).map (·.signature)) = some m.signature := by
  have hsame : h.parts.filter (·.level < level + 1) =
      h.parts.filter (·.level < min level p.maxLevel + 1) := by
    refine List.filter_congr fun part hpart => ?_
    have hle := (hsuits _ _ (mem_parts.1 hpart)).1
    rw [decide_eq_decide]
    omega
  rw [← map_multisig_parts, hsame, List.map_map]
  exact hm.signature_eq

theorem combined_eq_whole (hsuits : h.Each p.Suits) (scheme : Scheme κ σ)
    (hlimit : p.size ≤ Word.limit) {level : Nat} (hle : p.maxLevel ≤ level) :
    h.combined scheme p level = h.whole scheme p := by
  have hmin : min level p.maxLevel = p.maxLevel := Nat.min_eq_right hle
  by_cases hheld : ∃ lower held, h.best? lower = some held
  · obtain ⟨lower, held, hheld⟩ := hheld
    have hlower : lower ≤ min level p.maxLevel := hmin.symm ▸ (hsuits lower held hheld).1
    obtain ⟨full, hwhole, hfull⟩ := hsuits.exists_whole scheme hlimit hheld
    obtain ⟨w, m, hw, hcombined, hm⟩ := hsuits.exists_combined scheme hlimit hlower hheld
    rw [hmin] at hw hm
    rw [p.below_root, Except.ok.injEq] at hw
    subst hw
    have hmask : m.mask = full.mask := by
      have hslice := mask_eq_slice hsuits hfull (Nat.succ_pos _) (Nat.le_refl _) p.below_root hm
      have hlen : full.mask.length = p.size := hfull.length_eq
      rwa [← hlen, Mask.slice_all] at hslice
    have hsignature : m.signature = full.signature :=
      Option.some.inj (hm.signature_eq.symm.trans hfull.signature_eq)
    have hsame : m = full := by
      cases m
      cases full
      cases hmask
      cases hsignature
      rfl
    rw [hwhole, hcombined, hsame]
  · have hnothing : ∀ lower, h.best? lower = none := fun lower =>
      Option.eq_none_iff_forall_ne_some.2 fun held hsome => hheld ⟨lower, held, hsome⟩
    rw [whole_of_nothing scheme p hnothing,
      combined_of_nothing scheme fun lower _ => hnothing lower]

/-- Holdings of levels that a place has, each entry with one position for every
member of its level. Every member is on exactly one level. If anything is held,
all of it is one multi-signature over the roster that shows each member as the
entry of the member's level does and has as many contributions as the entries
together. What is combined for the levels up to some level, be there such a level
or not, is cut out of this one over the subtree below the next level, and its
signature is that of the entries up to the level, merged from the lowest on; it
is nothing if there is no such entry. From the last level on it is all that is
held. -/
theorem aggregates_are_excerpts (scheme : Scheme κ σ) {p : Place} (hlimit : p.size ≤ Word.limit)
    {h : Holdings σ} (hfits : ∀ level m, h.best? level = some m →
      level ≤ p.maxLevel ∧ 0 < p.sizeAt level ∧ m.length = p.sizeAt level) :
    (∀ g < p.size, ∃! level, level ≤ p.maxLevel ∧ p.HasAt level g) ∧
      ((∀ level, h.best? level = none) → h.whole scheme p = .ok none) ∧
      ((∃ level m, h.best? level = some m) →
        ∃ full, h.whole scheme p = .ok (some full) ∧ h.Pictures p full) ∧
      ∀ level,
        ((∀ lower ≤ min level p.maxLevel, h.best? lower = none) →
          h.combined scheme p level = .ok none) ∧
        ((∃ lower ≤ min level p.maxLevel, ∃ m, h.best? lower = some m) →
          ∃ full w m, h.whole scheme p = .ok (some full) ∧
            p.below (min level p.maxLevel + 1) = .ok w ∧
            h.combined scheme p level = .ok (some m) ∧
            m.mask = full.mask.slice w.lo w.hi ∧
            scheme.aggregate? ((h.upTo level).map (·.signature)) = some m.signature) ∧
        (p.maxLevel ≤ level → h.combined scheme p level = h.whole scheme p) := by
  have hsuits : h.Each p.Suits := fun level m hbest => by
    obtain ⟨hle, hpos, hlen⟩ := hfits level m hbest
    obtain ⟨s, hs, hsize⟩ := p.exists_peers_of_sizeAt_pos hpos
    exact ⟨hle, s, hs, hlen.trans hsize.symm⟩
  refine ⟨fun g hg => Place.existsUnique_hasAt hg, whole_of_nothing scheme p, ?_, fun level =>
    ⟨combined_of_nothing scheme, ?_, combined_eq_whole hsuits scheme hlimit⟩⟩
  · rintro ⟨level, held, hheld⟩
    obtain ⟨full, hwhole, hfull⟩ := hsuits.exists_whole scheme hlimit hheld
    exact ⟨full, hwhole, pictures_of_gathers hsuits hfull⟩
  · rintro ⟨lower, hlower, held, hheld⟩
    obtain ⟨full, hwhole, hfull⟩ := hsuits.exists_whole scheme hlimit hheld
    obtain ⟨w, m, hw, hcombined, hm⟩ := hsuits.exists_combined scheme hlimit hlower hheld
    have hslice := mask_eq_slice hsuits hfull (Nat.succ_pos _)
      (Nat.succ_le_succ (Nat.min_le_right level p.maxLevel)) hw hm
    exact ⟨full, w, m, hwhole, hw, hcombined, hslice, aggregate?_upTo hsuits hm⟩

/-- The fifth of six members has its own contribution and two of the first four
members, and there is nobody on its level 2. What it combines for that level is
its own contribution, cut out of all it holds over itself and its neighbour. -/
theorem aggregates_are_excerpts_of_six :
    ∃ (p : Place) (h : Holdings Plain.Signature) (full : _), (p.size = 6 ∧ p.leaf = 4) ∧
      (p.size ≤ Word.limit ∧ ∀ level m, h.best? level = some m →
        level ≤ p.maxLevel ∧ 0 < p.sizeAt level ∧ m.length = p.sizeAt level) ∧
      h.upTo 3 = [⟨.ofList 1 [0], ⟨.ofList [4], true⟩⟩,
        ⟨.ofList 4 [1, 3], ⟨.ofList [1, 3], true⟩⟩] ∧
      full = (⟨.ofList 6 [1, 3, 4], ⟨.ofList [1, 3, 4], true⟩⟩ : Multisig Plain.Signature) ∧
      h.whole Plain.scheme p = .ok (some full) ∧ h.Pictures p full ∧
      p.below 3 = .ok ⟨4, 6⟩ ∧ full.mask.slice 4 6 = .ofList 2 [0] ∧
      (∃ m, h.combined Plain.scheme p 2 = .ok (some m) ∧ m.mask = full.mask.slice 4 6 ∧
        Plain.scheme.aggregate? ((h.upTo 2).map (·.signature)) = some m.signature) ∧
      h.combined Plain.scheme p 200 = h.whole Plain.scheme p := by
  obtain ⟨p, hp⟩ : ∃ p : Place, p = ⟨6, 4, by decide⟩ := ⟨_, rfl⟩
  obtain ⟨h, hh⟩ : ∃ h : Holdings Plain.Signature,
      h = ⟨(LevelMap.empty.insert 3 ⟨.ofList 4 [1, 3], ⟨.ofList [1, 3], true⟩⟩).insert 0
        ⟨.ofList 1 [0], ⟨.ofList [4], true⟩⟩⟩ := ⟨_, rfl⟩
  have hlimit : p.size ≤ Word.limit := by
    rw [hp]
    decide
  have hfits : ∀ level m, h.best? level = some m →
      level ≤ p.maxLevel ∧ 0 < p.sizeAt level ∧ m.length = p.sizeAt level := by
    intro level m hbest
    have hentry := LevelMap.get?_eq_some_iff.1 hbest
    rw [hh] at hentry
    rw [hp]
    rcases List.mem_cons.1 hentry with heq | hrest
    · cases heq
      decide
    · cases List.mem_singleton.1 hrest
      decide
  have hwhole : h.whole Plain.scheme p =
      .ok (some ⟨.ofList 6 [1, 3, 4], ⟨.ofList [1, 3, 4], true⟩⟩) := by
    rw [hh, hp]
    decide
  have hown : h.best? 0 = some ⟨.ofList 1 [0], ⟨.ofList [4], true⟩⟩ := by
    rw [hh]
    decide
  have hbelow : p.below 3 = .ok ⟨4, 6⟩ := by
    rw [hp]
    rfl
  have hlast : p.maxLevel = 3 := by
    rw [hp]
    decide
  have hupTo : h.upTo 3 = [⟨.ofList 1 [0], ⟨.ofList [4], true⟩⟩,
      ⟨.ofList 4 [1, 3], ⟨.ofList [1, 3], true⟩⟩] := by
    rw [hh]
    decide
  have hsize : p.size = 6 ∧ p.leaf = 4 := by
    rw [hp]
    exact ⟨rfl, rfl⟩
  obtain ⟨-, -, hpicture, hexcerpts⟩ := aggregates_are_excerpts Plain.scheme hlimit hfits
  obtain ⟨full, hfull, hshows⟩ := hpicture ⟨0, _, hown⟩
  obtain ⟨-, hcut, -⟩ := hexcerpts 2
  obtain ⟨full', w, m, hfull', hw, hcombined, hmask, hsigned⟩ := hcut ⟨0, Nat.zero_le _, _, hown⟩
  cases hwhole.symm.trans hfull
  cases hwhole.symm.trans hfull'
  rw [hlast] at hw
  cases hw.symm.trans hbelow
  exact ⟨p, h, _, hsize, ⟨hlimit, hfits⟩, hupTo, rfl, hwhole, hshows, hbelow, by decide,
    ⟨m, hcombined, hmask, hsigned⟩, (hexcerpts 200).2.2 (by omega)⟩

end Holdings

end MultisigTree
