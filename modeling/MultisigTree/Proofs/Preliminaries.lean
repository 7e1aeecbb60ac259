import Mathlib.Data.List.Sort

/-!
# Preliminaries

Facts about computations that may fail, about lists, and about positions that go
round, none of which knows what a node is.
-/
theorem Except.bind_eq_ok_iff {ε α β : Type} {x : Except ε α} {f : α → Except ε β} {b : β} :
    x >>= f = .ok b ↔ ∃ a, x = .ok a ∧ f a = .ok b := by
  cases x with
  | error e => simp [bind, Except.bind]
  | ok a => simp [bind, Except.bind]

namespace List

theorem mapM_eq_ok {ε α β : Type} {f : α → Except ε β} {g : α → β} {xs : List α}
    (h : ∀ x ∈ xs, f x = .ok (g x)) : xs.mapM f = .ok (xs.map g) := by
  induction xs with
  | nil => rfl
  | cons x xs ih =>
      rw [mapM_cons, h x mem_cons_self, ih fun y hy => h y (mem_cons_of_mem _ hy)]
      rfl

section
variable {α β : Type} {f : α → Option β} {xs : List α}

theorem filterMap_take (h : ∀ x ∈ xs, (f x).isSome) (n : Nat) :
    (xs.take n).filterMap f = (xs.filterMap f).take n := by
  induction xs generalizing n with
  | nil => simp
  | cons x xs ih =>
      obtain ⟨y, hy⟩ := Option.isSome_iff_exists.1 (h x mem_cons_self)
      cases n with
      | zero => simp
      | succ n => simp [hy, ih fun z hz => h z (mem_cons_of_mem _ hz)]

theorem filterMap_drop (h : ∀ x ∈ xs, (f x).isSome) (n : Nat) :
    (xs.drop n).filterMap f = (xs.filterMap f).drop n := by
  induction xs generalizing n with
  | nil => simp
  | cons x xs ih =>
      obtain ⟨y, hy⟩ := Option.isSome_iff_exists.1 (h x mem_cons_self)
      cases n with
      | zero => simp
      | succ n => simp [hy, ih fun z hz => h z (mem_cons_of_mem _ hz)]

/-- Looking up every position of an array in turn lists it. -/
theorem filterMap_getElem?_range (xs : Array α) :
    (range xs.size).filterMap (xs[·]?) = xs.toList := by
  have hmap : (range xs.size).map (xs[·]?) = xs.toList.map some := by
    apply ext_getElem?
    intro i
    by_cases hi : i < xs.size <;> simp [hi]
  calc (range xs.size).filterMap (xs[·]?)
      = ((range xs.size).map (xs[·]?)).filterMap id := by rw [filterMap_map]; rfl
    _ = xs.toList := by rw [hmap, filterMap_map]; exact filterMap_some

end

section
variable {α : Type} {r : α → α → Prop} [DecidableRel r]

theorem orderedInsert_of_forall {a : α} {l : List α} (h : ∀ b ∈ l, r a b) :
    l.orderedInsert r a = a :: l := by
  cases l with
  | nil => rfl
  | cons b l => exact if_pos (h b mem_cons_self)

theorem filter_orderedInsert [IsTrans α r] (p : α → Bool) (a : α) {l : List α}
    (h : l.Pairwise r) :
    (l.orderedInsert r a).filter p =
      if p a then (l.filter p).orderedInsert r a else l.filter p := by
  induction l with
  | nil => cases hp : p a <;> simp [hp]
  | cons b l ih =>
      obtain ⟨hb, hl⟩ := pairwise_cons.1 h
      rw [orderedInsert_cons]
      by_cases hab : r a b
      · rw [if_pos hab, filter_cons, orderedInsert_of_forall]
        intro c hc
        rcases mem_cons.1 (mem_of_mem_filter hc) with rfl | hc
        · exact hab
        · exact IsTrans.trans a b c hab (hb c hc)
      · rw [if_neg hab, filter_cons, ih hl, filter_cons]
        cases hpa : p a <;> cases hpb : p b <;> simp [hab]

/-- Leaving out entries before a stable sort or after it is the same. -/
theorem filter_insertionSort [Std.Total r] [IsTrans α r] (p : α → Bool) (l : List α) :
    (l.insertionSort r).filter p = (l.filter p).insertionSort r := by
  induction l with
  | nil => rfl
  | cons a l ih =>
      rw [insertionSort_cons, filter_orderedInsert p a (pairwise_insertionSort r l), ih,
        filter_cons]
      split
      · rfl
      · rfl

end

theorem lookup_filter_of_ne {α β : Type} [BEq α] [LawfulBEq α] {key other : α} (h : other ≠ key)
    (entries : List (α × β)) :
    (entries.filter (·.1 != key)).lookup other = entries.lookup other := by
  induction entries with
  | nil => rfl
  | cons entry entries ih =>
      obtain ⟨k, a⟩ := entry
      by_cases hkey : k = key
      · have hother : (other == k) = false := by simpa [hkey] using h
        rw [filter_cons_of_neg (by simpa using hkey), lookup_cons, hother, ih]
      · rw [filter_cons_of_pos (by simpa using hkey), lookup_cons, lookup_cons, ih]

/-- Where keys are distinct, taking out one entry leaves room for one more, so
nothing that has dropped out before would have come back. -/
theorem take_filter_take {α β : Type} [BEq α] [LawfulBEq α] {entries : List (α × β)}
    (h : (entries.map (·.1)).Nodup) (key : α) (room : Nat) :
    ((entries.take (room + 1)).filter (·.1 != key)).take room =
      (entries.filter (·.1 != key)).take room := by
  induction entries generalizing room with
  | nil => rfl
  | cons entry entries ih =>
      rw [map_cons, nodup_cons] at h
      by_cases hkey : entry.1 = key
      · have hrest : ∀ e ∈ entries, (e.1 != key) = true := by
          intro e he
          have hne : e.1 ≠ entry.1 := fun heq => h.1 (heq ▸ mem_map_of_mem he)
          simpa [hkey] using hne
        have hfront : (entries.take room).filter (·.1 != key) = entries.take room :=
          filter_eq_self.2 fun e he => hrest e (mem_of_mem_take he)
        simp [hkey, hfront, filter_eq_self.2 hrest, take_take]
      · cases room with
        | zero => rfl
        | succ room => simp [hkey, ih h.2 room]

end List

namespace Nat

/-- Going back from behind the `count` positions passed since `next`. -/
theorem back_mod {next count size k : Nat} (hk : k < size) :
    ((next + count) % size + size - 1 - k) % size =
      if k < count then (next + (count - 1 - k)) % size
      else (next + size - 1 - (k - count)) % size := by
  have hsplit : (next + count) % size + size - 1 - k = (next + count) % size + (size - 1 - k) := by
    omega
  rw [hsplit, mod_add_mod]
  split
  · have : next + count + (size - 1 - k) = next + (count - 1 - k) + size := by omega
    rw [this, add_mod_right]
  · have : next + count + (size - 1 - k) = next + size - 1 - (k - count) := by omega
    rw [this]

/-- Going back a whole round meets every position. -/
theorem exists_back {next size j : Nat} (hnext : next < size) (hj : j < size) :
    ∃ k < size, (next + size - 1 - k) % size = j := by
  by_cases hle : j < next
  · refine ⟨next - 1 - j, by omega, ?_⟩
    have : next + size - 1 - (next - 1 - j) = j + size := by omega
    rw [this, add_mod_right]
    exact mod_eq_of_lt hj
  · refine ⟨next + size - 1 - j, by omega, ?_⟩
    have : next + size - 1 - (next + size - 1 - j) = j := by omega
    rw [this]
    exact mod_eq_of_lt hj

end Nat
