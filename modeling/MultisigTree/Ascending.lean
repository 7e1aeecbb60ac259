/-!
# Strictly ascending lists

A finite set of ordered values is kept as the list of its members in strictly
ascending order, so that equal sets are equal lists and a listing needs no
sorting. `insert`, `erase` and `union` keep the order (`Ascending.insert`,
`Ascending.erase`, `Ascending.union`), and their members are the expected
ones (`mem_insert`, `mem_erase`, `mem_union`).
-/
namespace MultisigTree

variable {α : Type} [LT α]

/-- Every entry is below all the later ones. -/
def Ascending (xs : List α) : Prop :=
  xs.Pairwise (· < ·)

theorem Ascending.nil : Ascending ([] : List α) := List.Pairwise.nil

theorem ascending_cons {x : α} {xs : List α} :
    Ascending (x :: xs) ↔ (∀ y ∈ xs, x < y) ∧ Ascending xs :=
  List.pairwise_cons

theorem Ascending.filter {xs : List α} (p : α → Bool) (h : Ascending xs) :
    Ascending (xs.filter p) :=
  List.Pairwise.filter p h

theorem Ascending.sublist {xs ys : List α} (h : Ascending xs) (s : ys.Sublist xs) : Ascending ys :=
  List.Pairwise.sublist s h

theorem eq_of_not_lt [LE α] [Std.IsLinearOrder α] [Std.LawfulOrderLT α] {x y : α}
    (h : ¬ x < y) (k : ¬ y < x) : x = y :=
  Std.le_antisymm (Std.not_lt.1 k) (Std.not_lt.1 h)

/-- Ascending lists with the same members are equal. -/
theorem Ascending.ext [LE α] [Std.IsLinearOrder α] [Std.LawfulOrderLT α] {xs ys : List α}
    (hx : Ascending xs) (hy : Ascending ys) (h : ∀ z, z ∈ xs ↔ z ∈ ys) : xs = ys := by
  induction xs generalizing ys with
  | nil => exact (List.eq_nil_iff_forall_not_mem.2 fun z hz => by simpa using (h z).2 hz).symm
  | cons x xs ih =>
      have ⟨hlt, hxs⟩ := ascending_cons.1 hx
      cases ys with
      | nil => simpa using h x
      | cons y ys =>
          have ⟨hlt', hys⟩ := ascending_cons.1 hy
          have hxy : x = y := by
            rcases List.mem_cons.1 ((h x).1 List.mem_cons_self) with e | m
            · exact e
            · rcases List.mem_cons.1 ((h y).2 List.mem_cons_self) with e | m'
              · exact e.symm
              · exact absurd (Std.lt_trans (hlt y m') (hlt' x m)) Std.lt_irrefl
          subst hxy
          refine congrArg (x :: ·) (ih hxs hys fun z => ?_)
          constructor
          · intro hz
            rcases List.mem_cons.1 ((h z).1 (List.mem_cons_of_mem _ hz)) with rfl | m
            · exact absurd (hlt z hz) Std.lt_irrefl
            · exact m
          · intro hz
            rcases List.mem_cons.1 ((h z).2 (List.mem_cons_of_mem _ hz)) with rfl | m
            · exact absurd (hlt' z hz) Std.lt_irrefl
            · exact m

variable [DecidableLT α]

instance (xs : List α) : Decidable (Ascending xs) :=
  inferInstanceAs (Decidable (xs.Pairwise (· < ·)))

namespace AscendingList

/-- Puts `x` at its place, unless it is there already. -/
def insert (x : α) : List α → List α
  | [] => [x]
  | y :: ys => if x < y then x :: y :: ys else if y < x then y :: insert x ys else y :: ys

/-- Takes `x` out. -/
def erase (x : α) (xs : List α) : List α :=
  xs.filter fun y => x < y || y < x

/-- Copies `ys` up to the place of `x`, writes `x` once, and hands what is
left of `ys` to `rest`. -/
def weave (x : α) (rest : List α → List α) : List α → List α
  | [] => x :: rest []
  | y :: ys =>
      if y < x then y :: weave x rest ys
      else if x < y then x :: rest (y :: ys)
      else x :: rest ys

/-- The members of both lists, in one pass over them. -/
def union : List α → List α → List α
  | [], ys => ys
  | x :: xs, ys => weave x (union xs) ys

/-- The members of `xs` that are in `ys`; what lies below the member looked for
is left behind, so that both lists are passed once. -/
def inter : List α → List α → List α
  | [], _ => []
  | x :: xs, ys =>
      match ys.dropWhile (· < x) with
      | [] => []
      | y :: rest => if x < y then inter xs (y :: rest) else x :: inter xs rest

/-- The set of the listed values. The last is put in first, so that a list that
ascends already is passed once. -/
def ofList (xs : List α) : List α :=
  xs.foldr insert []

variable [LE α] [Std.IsLinearOrder α] [Std.LawfulOrderLT α]

theorem mem_insert {x z : α} {xs : List α} : z ∈ insert x xs ↔ z = x ∨ z ∈ xs := by
  induction xs with
  | nil => simp [insert]
  | cons y ys ih =>
      rw [insert]
      split
      · simp
      · split
        · simp [ih, or_left_comm]
        · rename_i h k
          simp [eq_of_not_lt h k]

theorem mem_erase {x z : α} {xs : List α} : z ∈ erase x xs ↔ z ≠ x ∧ z ∈ xs := by
  have h : (x < z ∨ z < x) ↔ z ≠ x := by
    constructor
    · rintro (h | h) rfl <;> exact Std.lt_irrefl h
    · intro h
      by_cases k : x < z
      · exact .inl k
      · refine .inr (Decidable.byContradiction fun l => h (eq_of_not_lt l k))
  simp [erase, h, and_comm]

theorem mem_weave {x z : α} {rest : List α → List α} {zs : List α}
    (h : ∀ ys, z ∈ rest ys ↔ z ∈ zs ∨ z ∈ ys) (ys : List α) :
    z ∈ weave x rest ys ↔ z = x ∨ z ∈ zs ∨ z ∈ ys := by
  induction ys with
  | nil => simp [weave, h]
  | cons y ys ih =>
      rw [weave]
      split
      · simp only [List.mem_cons, ih]
        grind
      · split
        · simp [h]
        · rename_i k l
          simp only [List.mem_cons, h, eq_of_not_lt k l]
          grind

theorem mem_union {z : α} {xs ys : List α} : z ∈ union xs ys ↔ z ∈ xs ∨ z ∈ ys := by
  induction xs generalizing ys with
  | nil => simp [union]
  | cons x xs ih => rw [union, mem_weave fun ys => ih]; simp [or_assoc]

theorem mem_ofList {z : α} {xs : List α} : z ∈ ofList xs ↔ z ∈ xs := by
  induction xs with
  | nil => simp [ofList]
  | cons x xs ih => rw [ofList, List.foldr_cons, mem_insert, ← ofList, ih, List.mem_cons]

end AscendingList

open AscendingList

theorem Ascending.erase {x : α} {xs : List α} (h : Ascending xs) :
    Ascending (AscendingList.erase x xs) :=
  h.filter _

theorem mem_dropWhile_lt {x z : α} {ys : List α} (hy : Ascending ys) (hz : ¬ z < x) :
    z ∈ ys.dropWhile (· < x) ↔ z ∈ ys := by
  induction ys with
  | nil => simp
  | cons y ys ih =>
      have ⟨_, hys⟩ := ascending_cons.1 hy
      rw [List.dropWhile_cons]
      split
      · rename_i h
        rw [ih hys, List.mem_cons, or_iff_right]
        rintro rfl
        exact hz (by simpa using h)
      · rfl

variable [LE α] [Std.IsLinearOrder α] [Std.LawfulOrderLT α]

theorem Ascending.insert {x : α} {xs : List α} (h : Ascending xs) :
    Ascending (AscendingList.insert x xs) := by
  induction xs with
  | nil => simp [AscendingList.insert, Ascending]
  | cons y ys ih =>
      have ⟨hy, hys⟩ := ascending_cons.1 h
      rw [AscendingList.insert]
      split
      · rename_i hx
        refine ascending_cons.2 ⟨fun z hz => ?_, h⟩
        rcases List.mem_cons.1 hz with rfl | hz
        · exact hx
        · exact Std.lt_trans hx (hy z hz)
      · split
        · rename_i hx
          refine ascending_cons.2 ⟨fun z hz => ?_, ih hys⟩
          rcases mem_insert.1 hz with rfl | hz
          · exact hx
          · exact hy z hz
        · exact h

theorem Ascending.weave {x : α} {rest : List α → List α} {zs ys : List α}
    (hmem : ∀ ys z, z ∈ rest ys ↔ z ∈ zs ∨ z ∈ ys) (hx : ∀ z ∈ zs, x < z)
    (hrest : ∀ ys, Ascending ys → Ascending (rest ys)) (h : Ascending ys) :
    Ascending (AscendingList.weave x rest ys) := by
  induction ys with
  | nil =>
      exact ascending_cons.2 ⟨fun z hz => hx z (by simpa [hmem] using hz), hrest [] h⟩
  | cons y ys ih =>
      have ⟨hy, hys⟩ := ascending_cons.1 h
      rw [AscendingList.weave]
      split
      · rename_i hlt
        refine ascending_cons.2 ⟨fun z hz => ?_, ih hys⟩
        rcases (mem_weave (fun ys => hmem ys z) ys).1 hz with rfl | hz | hz
        · exact hlt
        · exact Std.lt_trans hlt (hx z hz)
        · exact hy z hz
      · split
        · rename_i hlt
          refine ascending_cons.2 ⟨fun z hz => ?_, hrest _ h⟩
          rcases (hmem _ z).1 hz with hz | hz
          · exact hx z hz
          · rcases List.mem_cons.1 hz with rfl | hz
            · exact hlt
            · exact Std.lt_trans hlt (hy z hz)
        · rename_i h1 h2
          obtain rfl := eq_of_not_lt h1 h2
          refine ascending_cons.2 ⟨fun z hz => ?_, hrest _ hys⟩
          rcases (hmem _ z).1 hz with hz | hz
          · exact hx z hz
          · exact hy z hz

theorem Ascending.union {xs ys : List α} (hx : Ascending xs) (hy : Ascending ys) :
    Ascending (AscendingList.union xs ys) := by
  induction xs generalizing ys with
  | nil => exact hy
  | cons x xs ih =>
      have ⟨h, hxs⟩ := ascending_cons.1 hx
      exact Ascending.weave (fun _ _ => mem_union) h (fun _ h => ih hxs h) hy

theorem mem_inter {z : α} {xs ys : List α} (hx : Ascending xs) (hy : Ascending ys) :
    z ∈ inter xs ys ↔ z ∈ xs ∧ z ∈ ys := by
  induction xs generalizing ys with
  | nil => simp [inter]
  | cons x xs ih =>
      have ⟨hlt, hxs⟩ := ascending_cons.1 hx
      have hdrop := hy.sublist (List.dropWhile_sublist (· < x))
      have hmem : ∀ w, w = x ∨ w ∈ xs → (w ∈ ys.dropWhile (· < x) ↔ w ∈ ys) := fun w hw =>
        mem_dropWhile_lt hy fun h => hw.elim (fun e => Std.lt_irrefl (e ▸ h))
          fun m => Std.lt_irrefl (Std.lt_trans h (hlt w m))
      have hhead := List.head?_dropWhile_not (· < x) ys
      rw [inter, List.mem_cons]
      split
      · rename_i h
        rw [h] at hmem
        grind
      · rename_i y rest h
        rw [h] at hmem hdrop hhead
        have ⟨hy', hrest⟩ := ascending_cons.1 hdrop
        split
        · rename_i hxy
          rw [ih hxs hdrop]
          have : x ∉ y :: rest := fun m => by
            rcases List.mem_cons.1 m with e | m
            · exact Std.lt_irrefl (e ▸ hxy)
            · exact Std.lt_irrefl (Std.lt_trans hxy (hy' x m))
          grind
        · rename_i hxy
          obtain rfl : x = y := eq_of_not_lt hxy (by simpa using hhead)
          rw [List.mem_cons, ih hxs hrest]
          have : ∀ w ∈ xs, w ≠ x := fun w hw e => Std.lt_irrefl (e ▸ hlt w hw)
          grind

theorem Ascending.inter {xs ys : List α} (hx : Ascending xs) (hy : Ascending ys) :
    Ascending (AscendingList.inter xs ys) := by
  induction xs generalizing ys with
  | nil => exact .nil
  | cons x xs ih =>
      have ⟨hlt, hxs⟩ := ascending_cons.1 hx
      have hdrop := hy.sublist (List.dropWhile_sublist (· < x))
      rw [AscendingList.inter]
      split
      · exact .nil
      · rename_i y rest h
        rw [h] at hdrop
        have ⟨_, hrest⟩ := ascending_cons.1 hdrop
        split
        · exact ih hxs hdrop
        · exact ascending_cons.2 ⟨fun z hz => hlt z ((mem_inter hxs hrest).1 hz).1, ih hxs hrest⟩

theorem Ascending.ofList (xs : List α) : Ascending (AscendingList.ofList xs) := by
  induction xs with
  | nil => exact .nil
  | cons x xs ih => exact ih.insert

end MultisigTree
