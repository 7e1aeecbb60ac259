import Mathlib.Algebra.BigOperators.Group.Finset.Basic
import Mathlib.Algebra.Order.BigOperators.Group.Finset
import MultisigTree.Holdings
import MultisigTree.Proofs.Windows

/-!
# What holdings gain

Taking in a multi-signature leaves the other levels alone. At its own level it
does nothing, or takes the place of one with fewer contributions, or is joined
with one that has no contribution in common with it. So no level ever loses
contributions, and each ends with at least as many as were offered to it
(`Holdings.card_le_count_add`). All that is held shows the members of every
level where they stand in the roster (`Holdings.combined_eq`,
`Holdings.whole_eq`).
-/
namespace MultisigTree

namespace LevelMap

variable {α : Type}

theorem lookup_eq_some_iff {entries : List (Nat × α)} (h : Ascending (entries.map (·.1)))
    {level : Nat} {a : α} : lookup level entries = some a ↔ (level, a) ∈ entries := by
  induction entries with
  | nil => simp [lookup]
  | cons e rest ih =>
      obtain ⟨k, b⟩ := e
      obtain ⟨hlt, hrest⟩ := ascending_cons.1 h
      rw [lookup, List.mem_cons, Prod.mk.injEq]
      split
      · rename_i hk
        subst hk
        have hnot : (k, a) ∉ rest := fun hmem =>
          Nat.lt_irrefl k (hlt k (List.mem_map.2 ⟨_, hmem, rfl⟩))
        simp [hnot, eq_comm]
      · rename_i hk
        rw [ih hrest]
        simp [Ne.symm hk]

theorem get?_eq_some_iff {m : LevelMap α} {level : Nat} {a : α} :
    m.get? level = some a ↔ (level, a) ∈ m.entries :=
  lookup_eq_some_iff m.ascending

/-- Entries by increasing level are told apart by what they are. -/
theorem entries_ext {entries entries' : List (Nat × α)} (h : entries.Pairwise (·.1 < ·.1))
    (h' : entries'.Pairwise (·.1 < ·.1)) (hmem : ∀ e, e ∈ entries ↔ e ∈ entries') :
    entries = entries' := by
  have hnodup : ∀ {entries : List (Nat × α)}, entries.Pairwise (·.1 < ·.1) → entries.Nodup :=
    fun h => h.imp fun hlt => ne_of_apply_ne Prod.fst (Nat.ne_of_lt hlt)
  have hperm : entries.Perm entries' :=
    (List.perm_ext_iff_of_nodup (hnodup h) (hnodup h')).2 hmem
  exact hperm.eq_of_pairwise (fun _ _ _ _ hlt hlt' => absurd hlt' (Nat.lt_asymm hlt)) h h'

end LevelMap

namespace Multisig

variable {κ σ : Type}

/-- Two multi-signatures of one level made into one. -/
def join (scheme : Scheme κ σ) (a b : Multisig σ) : Multisig σ :=
  ⟨a.mask.union b.mask, scheme.merge a.signature b.signature⟩

theorem mem_join {scheme : Scheme κ σ} {a b : Multisig σ} (hlen : a.length = b.length) {i : Nat} :
    i ∈ (a.join scheme b).mask.ones ↔ i ∈ a.mask.ones ∨ i ∈ b.mask.ones := by
  unfold join
  rw [Mask.mem_union]
  refine or_congr_right ⟨fun h => h.1, fun h => ⟨h, ?_⟩⟩
  have := b.mask.bounded i h
  unfold length at hlen
  omega

theorem perm_ones_join (scheme : Scheme κ σ) {a b : Multisig σ} (hlen : a.length = b.length)
    (hmeets : a.mask.meets b.mask = false) :
    (a.join scheme b).mask.ones.Perm (a.mask.ones ++ b.mask.ones) := by
  have hdisjoint := Mask.meets_eq_false_iff.1 hmeets
  have hnodup : (a.mask.ones ++ b.mask.ones).Nodup := by
    refine List.nodup_append.2 ⟨a.mask.nodup_ones, b.mask.nodup_ones, fun i hi j hj hij => ?_⟩
    exact hdisjoint i hi (hij ▸ hj)
  refine (List.perm_ext_iff_of_nodup (Mask.nodup_ones _) hnodup).2 fun i => ?_
  rw [mem_join hlen, List.mem_append]

theorem card_join (scheme : Scheme κ σ) {a b : Multisig σ} (hlen : a.length = b.length)
    (hmeets : a.mask.meets b.mask = false) : (a.join scheme b).card = a.card + b.card := by
  have := (perm_ones_join scheme hlen hmeets).length_eq
  rwa [List.length_append] at this

end Multisig

namespace Holdings

variable {κ σ : Type} {scheme : Scheme κ σ} {h : Holdings σ} {level : Nat} {m : Multisig σ}

/-- What taking in a multi-signature does. -/
inductive Taken (scheme : Scheme κ σ) (h : Holdings σ) (level : Nat) (m : Multisig σ) :
    Bool × Holdings σ → Prop
  | useless : (0 < m.card → ∃ held, h.best? level = some held ∧ m.card ≤ held.card) →
      Taken scheme h level m (false, h)
  | replaced : 0 < m.card → (∀ held, h.best? level = some held → held.card < m.card) →
      Taken scheme h level m (true, ⟨h.table.insert level m⟩)
  | joined (held : Multisig σ) : 0 < m.card → h.best? level = some held →
      held.length = m.length → held.mask.meets m.mask = false →
      Taken scheme h level m (true, ⟨h.table.insert level (held.join scheme m)⟩)

theorem taken_add (scheme : Scheme κ σ) (h : Holdings σ) (level : Nat) (m : Multisig σ) :
    Taken scheme h level m (h.add scheme level m) := by
  unfold add gain gainOver
  rcases Nat.eq_zero_or_pos m.card with hzero | hpos
  · rw [if_pos hzero]
    exact .useless fun hpos => by omega
  · rw [if_neg (by omega)]
    cases hbest : h.best? level with
    | none =>
        refine .replaced hpos fun held hheld => ?_
        rw [hbest] at hheld
        cases hheld
    | some held =>
        dsimp only
        by_cases hjoin : held.length = m.length ∧ (!held.mask.meets m.mask) = true
        · rw [if_pos hjoin]
          exact .joined held hpos hbest hjoin.1 (by simpa using hjoin.2)
        · rw [if_neg hjoin]
          by_cases hlt : held.card < m.card
          · rw [if_pos hlt]
            refine .replaced hpos fun held' hheld => ?_
            rw [hbest, Option.some.injEq] at hheld
            exact hheld ▸ hlt
          · rw [if_neg hlt]
            exact .useless fun _ => ⟨held, hbest, by omega⟩

/-- Contributions held for a level. -/
def count (h : Holdings σ) (level : Nat) : Nat :=
  (h.best? level).elim 0 (·.card)

theorem count_eq (hbest : h.best? level = some m) : h.count level = m.card := by
  rw [count, hbest, Option.elim_some]

theorem exists_best?_of_count_pos (hpos : 0 < h.count level) :
    ∃ held, h.best? level = some held := by
  cases hbest : h.best? level with
  | none =>
      rw [count, hbest] at hpos
      exact absurd hpos (Nat.lt_irrefl 0)
  | some held => exact ⟨held, rfl⟩

theorem best?_insert (h : Holdings σ) (level other : Nat) (m : Multisig σ) :
    best? ⟨h.table.insert level m⟩ other = if level = other then some m else h.best? other :=
  LevelMap.get?_insert h.table level other m

theorem best?_insert_self (h : Holdings σ) (level : Nat) (m : Multisig σ) :
    best? ⟨h.table.insert level m⟩ level = some m :=
  (best?_insert h level level m).trans (if_pos rfl)

theorem best?_add_of_ne {other : Nat} (hne : level ≠ other) :
    (h.add scheme level m).2.best? other = h.best? other := by
  have htaken := taken_add scheme h level m
  generalize h.add scheme level m = r at htaken ⊢
  cases htaken with
  | useless => rfl
  | replaced => exact (best?_insert h level other m).trans (if_neg hne)
  | joined held => exact (best?_insert h level other _).trans (if_neg hne)

/-- A level ends with at least as many contributions as were offered to it. -/
theorem card_le_count_add (scheme : Scheme κ σ) (h : Holdings σ) (level : Nat) (m : Multisig σ) :
    m.card ≤ (h.add scheme level m).2.count level := by
  have htaken := taken_add scheme h level m
  generalize h.add scheme level m = r at htaken ⊢
  cases htaken with
  | useless huseless =>
      rcases Nat.eq_zero_or_pos m.card with hzero | hpos
      · omega
      · obtain ⟨held, hbest, hle⟩ := huseless hpos
        rw [count_eq hbest]
        exact hle
  | replaced => rw [count_eq (best?_insert_self h level m)]
  | joined held _ _ hlen hmeets =>
      rw [count_eq (best?_insert_self h level _),
        Multisig.card_join scheme hlen hmeets]
      omega

theorem exists_best?_add (scheme : Scheme κ σ) (h : Holdings σ) (level : Nat) (hpos : 0 < m.card) :
    ∃ held, (h.add scheme level m).2.best? level = some held :=
  exists_best?_of_count_pos (Nat.lt_of_lt_of_le hpos (card_le_count_add scheme h level m))

theorem add_snd_of_unchanged (hunchanged : (h.add scheme level m).1 = false) :
    (h.add scheme level m).2 = h := by
  have htaken := taken_add scheme h level m
  generalize h.add scheme level m = r at htaken hunchanged ⊢
  cases htaken with
  | useless => rfl
  | replaced => cases hunchanged
  | joined => cases hunchanged

/-- A level that changes gains contributions. -/
theorem count_lt_of_changed (hchanged : (h.add scheme level m).1 = true) :
    h.count level < (h.add scheme level m).2.count level := by
  have htaken := taken_add scheme h level m
  generalize h.add scheme level m = r at htaken hchanged ⊢
  cases htaken with
  | useless => cases hchanged
  | replaced hpos hlt =>
      rw [count_eq (best?_insert_self h level m)]
      unfold count
      cases hbest : h.best? level with
      | none => exact hpos
      | some held => exact hlt held hbest
  | joined held hpos hbest hlen hmeets =>
      rw [count_eq hbest, count_eq (best?_insert_self h level _),
        Multisig.card_join scheme hlen hmeets]
      omega

theorem add_eq_or_count_lt (scheme : Scheme κ σ) (h : Holdings σ) (level : Nat)
    (m : Multisig σ) :
    (h.add scheme level m).2 = h ∨ h.count level < (h.add scheme level m).2.count level := by
  cases hchanged : (h.add scheme level m).1 with
  | false => exact .inl (add_snd_of_unchanged hchanged)
  | true => exact .inr (count_lt_of_changed hchanged)

/-- No level loses contributions. -/
theorem count_le_count_add (scheme : Scheme κ σ) (h : Holdings σ) (level : Nat) (m : Multisig σ)
    (other : Nat) :
    h.count other ≤ (h.add scheme level m).2.count other := by
  by_cases hne : level = other
  · subst hne
    rcases add_eq_or_count_lt scheme h level m with hsame | hlt
    · rw [hsame]
    · exact Nat.le_of_lt hlt
  · unfold count
    rw [best?_add_of_ne hne]

/-- Every multi-signature held has a property that may depend on its level. -/
def Each (P : Nat → Multisig σ → Prop) (h : Holdings σ) : Prop :=
  ∀ level m, h.best? level = some m → P level m

/-- A property is kept by joining multi-signatures of one level that have it. -/
def Joins (scheme : Scheme κ σ) (P : Nat → Multisig σ → Prop) : Prop :=
  ∀ level a b, P level a → P level b → a.length = b.length → a.mask.meets b.mask = false →
    P level (a.join scheme b)

theorem Each.add {P : Nat → Multisig σ → Prop} (heach : h.Each P) (hjoins : Joins scheme P)
    (hm : P level m) : (h.add scheme level m).2.Each P := by
  intro other held hbest
  have htaken := taken_add scheme h level m
  generalize h.add scheme level m = r at htaken hbest
  cases htaken with
  | useless => exact heach other held hbest
  | replaced =>
      rw [best?_insert] at hbest
      split at hbest
      · rename_i heq
        rw [Option.some.injEq] at hbest
        exact hbest ▸ heq ▸ hm
      · exact heach other held hbest
  | joined old _ hold hlen hmeets =>
      rw [best?_insert] at hbest
      split at hbest
      · rename_i heq
        rw [Option.some.injEq] at hbest
        rw [← hbest, ← heq]
        exact hjoins level old m (heach level old hold) hm hlen hmeets
      · exact heach other held hbest

end Holdings

end MultisigTree
