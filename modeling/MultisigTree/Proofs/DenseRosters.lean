import MultisigTree.Proofs.Partition
import MultisigTree.Scheme.Plain
import MultisigTree.Tree.Contact

/-!
# Dense rosters

A roster is dense if it has a member for every number below its size and lists
any span of them. Over a dense roster every level with a span has its members
listed, each at its own position.
-/
namespace MultisigTree

namespace Roster

variable {κ : Type}

structure Dense (r : Roster κ) : Prop where
  numbered : ∀ i < r.size, ∃ m, r.member? i = some m ∧ m.id.toInt = i
  listed : ∀ lo hi, lo ≤ hi → hi ≤ r.size → ∃ ms : Array (Member κ), r.members? lo hi = some ms ∧
    ms.size = hi - lo ∧ ∀ k < hi - lo, ms[k]? = r.member? (lo + k)

theorem dense_ofArray {members : Array (Member κ)}
    (h : ∀ i (hi : i < members.size), members[i].id.toInt = i) : (ofArray members).Dense where
  numbered i hi := ⟨members[i], Array.getElem?_eq_getElem hi, h i hi⟩
  listed lo hi hle hsize := by
    refine ⟨members.extract lo hi, if_pos ⟨hle, hsize⟩, ?_, fun k hk => ?_⟩
    · have hsize' : hi ≤ members.size := hsize
      simp only [Array.size_extract]
      omega
    · rw [Array.getElem?_extract]
      have hsize' : hi ≤ members.size := hsize
      rw [if_pos (by omega)]
      rfl

/-- A roster whose member numbers are signed 32-bit numbers has no more than
`2 ^ 31` members. -/
theorem Dense.size_le {r : Roster κ} (h : r.Dense) : r.size ≤ 2 ^ 31 := by
  rcases Nat.eq_zero_or_pos r.size with hzero | hpos
  · omega
  · obtain ⟨m, -, hid⟩ := h.numbered (r.size - 1) (by omega)
    have := m.id.toInt_lt
    omega

theorem Dense.toInt_id {r : Roster κ} (h : r.Dense) {i : Nat} {m : Member κ} (hi : i < r.size)
    (hm : r.member? i = some m) : m.id.toInt = i := by
  obtain ⟨m', hm', hid⟩ := h.numbered i hi
  obtain rfl : m' = m := Option.some.inj (hm'.symm.trans hm)
  exact hid

end Roster

theorem Place.membersAt_eq {κ : Type} {p : Place} {r : Roster κ} (hdense : r.Dense)
    (hsize : p.size = r.size) {level : Nat} {s : Span} (h : p.peers level = .ok s) :
    ∃ ms : Array (Member κ), p.membersAt r level = .ok ms ∧ ms.size = s.size ∧
      ∀ k < s.size, ms[k]? = r.member? (s.lo + k) := by
  obtain ⟨hlt, hhi⟩ := p.bounds_of_peers h
  obtain ⟨ms, hms, hcount, hget⟩ := hdense.listed s.lo s.hi (Nat.le_of_lt hlt) (hsize ▸ hhi)
  refine ⟨ms, ?_, hcount, hget⟩
  simp only [membersAt, h, bind, Except.bind, hms]
  rfl

theorem Member.select_eq {κ : Type} {members : Array (Member κ)} {positions : List Nat}
    (h : ∀ i ∈ positions, i < members.size) :
    Member.select members positions = .ok (positions.filterMap (members[·]?)) := by
  unfold select
  induction positions with
  | nil => rfl
  | cons i positions ih =>
      have hi := h i List.mem_cons_self
      have hget : members[i]? = some members[i] := Array.getElem?_eq_getElem hi
      rw [List.mapM_cons, ih fun j hj => h j (List.mem_cons_of_mem _ hj),
        List.filterMap_cons_some hget, hget]
      rfl

namespace Plain

/-- Every member owns the key made for it. -/
def Keyed (r : Roster IdSet) : Prop :=
  ∀ i m, r.member? i = some m → m.key = .singleton m.id

theorem size_roster (n : Nat) : (roster n).size = Roster.memberCount n :=
  Roster.size_build n _ _

theorem dense_roster (n : Nat) : (roster n).Dense := by
  refine Roster.dense_ofArray fun i hi => ?_
  have hlt : i < 2 ^ 31 := Nat.lt_trans (by simpa using hi) (Roster.memberCount_lt n)
  simp only [Array.getElem_map, Array.getElem_range]
  exact Int32.toInt_ofNat_of_lt hlt

theorem keyed_roster (n : Nat) : Keyed (roster n) := by
  intro i m h
  obtain ⟨hi, hm⟩ := Array.getElem?_eq_some_iff.1 h
  rw [← hm]
  simp

/-- Whoever has a number below the size is a member, and owns its key. -/
theorem exists_member {r : Roster IdSet} (hdense : r.Dense) (hkeyed : Keyed r) {id : Int32}
    (hid : 0 ≤ id.toInt ∧ id.toInt.toNat < r.size) :
    ∃ m, r.member? id.toInt.toNat = some m ∧ m.key = .singleton id := by
  obtain ⟨m, hm, hnumber⟩ := hdense.numbered _ hid.2
  have hmid : m.id = id := Int32.toInt_inj.1 (by omega)
  exact ⟨m, hm, hmid ▸ hkeyed _ m hm⟩

/-- Two members, each the owner of its key. -/
def pair : Roster IdSet :=
  .ofArray #[⟨0, "first", .singleton 0⟩, ⟨1, "second", .singleton 1⟩]

theorem dense_pair : pair.Dense :=
  Roster.dense_ofArray (by decide)

theorem keyed_pair : Keyed pair := by
  intro i m h
  obtain ⟨hi, hm⟩ := Array.getElem?_eq_some_iff.1 h
  have hcases : i = 0 ∨ i = 1 := by
    change i < 2 at hi
    omega
  rcases hcases with rfl | rfl <;> exact hm ▸ rfl

end Plain

end MultisigTree
