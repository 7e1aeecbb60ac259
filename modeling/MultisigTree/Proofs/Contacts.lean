import MultisigTree.Node.Renewal
import MultisigTree.Proofs.Preliminaries
import MultisigTree.Proofs.Setups

/-!
# Who is contacted

Members of a level are contacted in two ways, each at most once in the order
fixed for the level, or going round for the periodic updates. Either way no
position is out of range, no sum leaves a word, and all who are contacted are
members of the level. A cursor never starts a step that the number of
candidates would carry out of a word: a number that large exhausts the level in
its first step.
-/
namespace MultisigTree

/-- The member is on the level. -/
def Place.Peer {κ : Type} (p : Place) (roster : Roster κ) (level : Nat) (m : Member κ) : Prop :=
  ∃ i < p.size, p.levelOf i = level ∧ roster.member? i = some m

/-- A cursor over all positions of a level with `size` members, from which
`count` more of them can be asked for. -/
structure Cursor.Sound (size count : Nat) (c : Cursor) : Prop where
  perm : c.positions.toList.Perm (List.range size)
  fits : c.next < size → c.next + count < Word.limit

namespace Cursor.Sound

variable {size count : Nat} {c : Cursor}

theorem size_eq (sound : c.Sound size count) : c.positions.size = size := by
  have := sound.perm.length_eq
  rwa [Array.length_toList, List.length_range] at this

theorem lt_of_mem (sound : c.Sound size count) {i : Nat} (hi : i ∈ c.positions) : i < size :=
  List.mem_range.1 (sound.perm.mem_iff.1 (Array.mem_toList_iff.2 hi))

theorem moved (sound : c.Sound size count) (hsize : size ≤ 2 ^ 31) :
    Cursor.Sound size count { c with next := min (c.next + count) c.positions.size } where
  perm := sound.perm
  fits h := by
    have := sound.size_eq
    unfold Word.limit
    dsimp only at h ⊢
    omega

end Cursor.Sound

theorem ContactOrder.positions_perm (order : ContactOrder) (level count : Nat) :
    (order.positions level count).toList.Perm (List.range count) := by
  cases order with
  | ascending =>
      rw [positions, Array.toList_range]
  | shuffled seed =>
      have := (Shuffle.shuffle_perm (Array.range count)
        (ChaCha.Generator.start seed (UInt64.ofNat level))).toList
      rwa [Array.toList_range] at this

def Contacts.Sound (p : Place) (count : Nat) (contacts : Contacts) : Prop :=
  ∀ level c, contacts.get? level = some c → c.Sound (p.sizeAt level) count

namespace Contacts.Sound

variable {p : Place} {count : Nat} {contacts : Contacts}

theorem empty : Contacts.Sound p count LevelMap.empty := by
  intro level c h
  rw [LevelMap.get?_empty] at h
  cases h

theorem insert (sound : contacts.Sound p count) {level : Nat} {c : Cursor}
    (hc : c.Sound (p.sizeAt level) count) : Contacts.Sound p count (contacts.insert level c) := by
  intro other c' h
  rw [LevelMap.get?_insert] at h
  split at h
  · rename_i heq
    rw [Option.some.injEq] at h
    exact h ▸ heq ▸ hc
  · exact sound other c' h

theorem cursorAt (sound : contacts.Sound p count) (order : ContactOrder) (level : Nat)
    (hcount : count < Word.limit) :
    (contacts.cursorAt order level (p.sizeAt level)).Sound (p.sizeAt level) count := by
  unfold Contacts.cursorAt
  cases h : contacts.get? level with
  | none =>
      refine ⟨order.positions_perm level _, fun _ => ?_⟩
      rw [Option.getD_none, Nat.zero_add]
      exact hcount
  | some c => exact sound level c h

end Contacts.Sound

namespace Place

variable {κ : Type} {p : Place} {roster : Roster κ}

/-- The members listed for a level are its peers. -/
theorem peer_of_membersAt (hdense : roster.Dense) (hsize : p.size = roster.size) {level : Nat}
    (hle : level ≤ p.maxLevel) {s : Span} (hs : p.peers level = .ok s) :
    ∃ members, p.membersAt roster level = .ok members ∧ members.size = p.sizeAt level ∧
      (∀ k < members.size, members[k]? = roster.member? (s.lo + k)) ∧
      ∀ m ∈ members, p.Peer roster level m := by
  obtain ⟨members, hmembers, hcount, hget⟩ := p.membersAt_eq hdense hsize hs
  refine ⟨members, hmembers, by rw [hcount, p.sizeAt_eq hs], hcount ▸ hget, fun m hm => ?_⟩
  obtain ⟨k, hk, rfl⟩ := Array.mem_iff_getElem.1 hm
  have hmem : s.Contains (s.lo + k) := by
    refine ⟨Nat.le_add_right _ _, ?_⟩
    rw [hcount, Span.size] at hk
    omega
  obtain ⟨hlt, hlevel⟩ := ((p.peers_spec hle hs).2.2 _).1 hmem
  refine ⟨s.lo + k, hlt, hlevel, ?_⟩
  rw [← hget k (hcount ▸ hk), Array.getElem?_eq_getElem hk]

theorem contact_eq (hdense : roster.Dense) (hsize : p.size = roster.size) (order : ContactOrder)
    {count : Nat} (hcount : count < Word.limit) {contacts : Contacts}
    (sound : contacts.Sound p count) {level : Nat} (hle : level ≤ p.maxLevel) :
    ∃ receivers? contacts', p.contact roster order level count contacts =
        .ok (receivers?, contacts') ∧ Contacts.Sound p count contacts' ∧
      ∀ receivers, receivers? = some receivers → ∀ m ∈ receivers, p.Peer roster level m := by
  rcases Nat.eq_zero_or_pos (p.sizeAt level) with hempty | hpos
  · have herror : ∃ fault, p.membersAt roster level = .error fault := by
      cases hpeers : p.peers level with
      | error fault => exact ⟨fault, by simp only [membersAt, hpeers]; rfl⟩
      | ok s => exact absurd (p.sizeAt_pos hle hpeers) (by omega)
    obtain ⟨fault, herror⟩ := herror
    refine ⟨none, contacts, ?_, sound, fun receivers h => by cases h⟩
    simp only [contact, herror]
  · obtain ⟨s, hs, -⟩ := p.exists_peers_of_sizeAt_pos hpos
    obtain ⟨members, hmembers, hmsize, -, hpeer⟩ := peer_of_membersAt hdense hsize hle hs
    have hbound : p.sizeAt level ≤ 2 ^ 31 :=
      Nat.le_trans (p.sizeAt_le_size hle) (hsize ▸ hdense.size_le)
    have hc := sound.cursorAt order level hcount
    generalize hcursor : contacts.cursorAt order level (p.sizeAt level) = c at hc
    have hcsize := hc.size_eq
    by_cases hdone : count = 0 ∨ c.positions.size ≤ c.next
    · refine ⟨none, contacts.insert level c, ?_, sound.insert hc, fun receivers h => by cases h⟩
      simp only [contact, hmembers, hmsize, hcursor, if_pos hdone]
      rfl
    · have hfits := hc.fits (by omega)
      have hpicked : ∀ i ∈ (c.positions.extract c.next
          (min (c.next + count) c.positions.size)).toList, i < members.size := by
        intro i hi
        rw [hmsize]
        obtain ⟨k, hk, rfl⟩ := Array.mem_iff_getElem.1 (Array.mem_toList_iff.1 hi)
        rw [Array.getElem_extract]
        exact hc.lt_of_mem (Array.getElem_mem _)
      have hselect := Member.select_eq hpicked
      generalize hpick : (c.positions.extract c.next
        (min (c.next + count) c.positions.size)).toList = picked at hselect
      refine ⟨some (picked.filterMap (members[·]?)), _, ?_, sound.insert (hc.moved hbound), ?_⟩
      · simp only [contact, hmembers, hmsize, hcursor, if_neg hdone, Word.add, if_pos hfits, bind,
          Except.bind, hpick, hselect]
        rfl
      · intro receivers hreceivers m hm
        cases hreceivers
        obtain ⟨i, -, hi⟩ := List.mem_filterMap.1 hm
        exact hpeer m (Array.mem_of_getElem? hi)

end Place

/-- Going round from a position of the level. -/
theorem Member.cycle_eq {κ : Type} {members : Array (Member κ)} {start count : Nat}
    (hpos : 0 < members.size) (hfits : start + count < Word.limit) :
    Member.cycle members start count = .ok
      ((List.range count).filterMap fun k => members[(start + k) % members.size]?) := by
  have hpositions :
      ((List.range count).mapM fun k => do Word.mod (← Word.add start k) members.size) =
        Except.ok ((List.range count).map fun k => (start + k) % members.size) := by
    refine List.mapM_eq_ok fun k hk => ?_
    have hword : Word.add start k = .ok (start + k) := by
      have := List.mem_range.1 hk
      exact Word.add_eq_ok_iff.2 ⟨by omega, rfl⟩
    rw [hword]
    exact if_neg (Nat.ne_of_gt hpos)
  unfold cycle
  rw [hpositions]
  simp only [bind, Except.bind]
  rw [select_eq, List.filterMap_map]
  · rfl
  · intro i hi
    obtain ⟨k, -, rfl⟩ := List.mem_map.1 hi
    exact Nat.mod_lt _ hpos

end MultisigTree
