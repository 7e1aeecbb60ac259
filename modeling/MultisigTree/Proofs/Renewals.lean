import MultisigTree.Proofs.Speaking

/-!
# Updates of the levels

The periodic updates of a level go round its members. An update looks what the
node shows below the level, and if the counter of the level has not been round
with it yet, sends it to the next members and moves the counter on
(`Node.renewLevel_eq`). No update crashes, and none changes what a node holds
(`Node.renew_spec`).
-/
namespace MultisigTree

namespace Renewal

/-- The counter once the aggregate has `card` contributions: with more of them
than before a new round starts. -/
def seeing (r : Renewal) (card : Nat) : Renewal :=
  if r.card < card then { r with card := card, sent := 0 } else r

/-- The counter after `count` of `size` members have been contacted. -/
def moved (r : Renewal) (count size : Nat) : Renewal :=
  { r with next := (r.next + count) % size, sent := r.sent + count }

theorem next_seeing (r : Renewal) (card : Nat) : (r.seeing card).next = r.next := by
  unfold seeing
  split <;> rfl

theorem sent_seeing_le (r : Renewal) (card : Nat) : (r.seeing card).sent ≤ r.sent := by
  unfold seeing
  split
  · exact Nat.zero_le _
  · exact Nat.le_refl _

/-- Only a counter that has seen the aggregate can be past a round. -/
theorem seeing_eq_of_sent_pos {r : Renewal} {card : Nat} (h : 0 < (r.seeing card).sent) :
    r.seeing card = r ∧ card ≤ r.card := by
  unfold seeing at h ⊢
  split
  · rename_i hlt
    rw [if_pos hlt] at h
    exact absurd h (Nat.lt_irrefl 0)
  · rename_i hlt
    exact ⟨rfl, Nat.not_lt.1 hlt⟩

end Renewal

namespace Node

variable {κ σ : Type} {s : Setup κ σ} {n : Node κ σ} {level : Nat}

def renewalAt (n : Node κ σ) (level : Nat) : Renewal :=
  (n.renewals.get? level).getD {}

theorem Standing.renewalAt (standing : Standing s n) (hpos : 0 < s.place.sizeAt level) :
    (n.renewalAt level).next < s.place.sizeAt level ∧
      (n.renewalAt level).sent < 2 * s.place.sizeAt level := by
  unfold Node.renewalAt
  cases h : n.renewals.get? level with
  | none =>
      simp only [Option.getD_none]
      omega
  | some r => exact standing.renewals level r h hpos

def noting (n : Node κ σ) (level : Nat) (r : Renewal) : Node κ σ :=
  { n with renewals := n.renewals.insert level r }

theorem Standing.noting (standing : Standing s n) {r : Renewal}
    (hr : r.next < s.place.sizeAt level ∧ r.sent < 2 * s.place.sizeAt level) :
    Standing s (n.noting level r) := by
  refine ⟨standing.level_le, standing.mem_started, standing.contacts, fun other r' h hpos => ?_⟩
  rw [Node.noting, LevelMap.get?_insert] at h
  split at h
  · rename_i heq
    rw [Option.some.injEq] at h
    exact h ▸ heq ▸ hr
  · exact standing.renewals other r' h hpos

section
variable (sound : s.Sound) (tidy : n.holdings.Tidy s.place) (standing : Standing s n)
include sound tidy standing

theorem renewLevel_eq (hpos : 0 < level) (hle : level ≤ s.maxLevel) {span : Span}
    (hspan : s.place.peers level = .ok span) :
    ∃ m members, n.holdings.combined s.scheme s.place (level - 1) = .ok (some m) ∧
      s.place.membersAt s.roster level = .ok members ∧
      members.size = s.place.sizeAt level ∧
      (∀ k < members.size, members[k]? = s.roster.member? (span.lo + k)) ∧
      (∀ r ∈ members, s.place.Peer s.roster level r) ∧
      n.renewLevel s level = .ok (
        let now := (n.renewalAt level).seeing m.card
        let count := min s.settings.updates members.size
        if members.size ≤ now.sent then n.noting level now
        else (n.noting level (now.moved count members.size)).sendTo s level m
          ((List.range count).filterMap fun k => members[(now.next + k) % members.size]?)) := by
  obtain ⟨w, m, -, hm, -⟩ :=
    Holdings.combined_eq tidy s.scheme sound.size_le_limit hpos (Nat.le_succ_of_le hle)
  obtain ⟨members, hmembers, hsize, hget, hpeers⟩ :=
    Place.peer_of_membersAt sound.dense sound.size_eq hle hspan
  refine ⟨m, members, hm, hmembers, hsize, hget, hpeers, ?_⟩
  have hsizepos : 0 < s.place.sizeAt level := s.place.sizeAt_pos hle hspan
  have hbound : s.place.sizeAt level ≤ 2 ^ 31 :=
    Nat.le_trans (s.place.sizeAt_le_size hle) sound.size_le
  obtain ⟨hnext, -⟩ := standing.renewalAt hsizepos
  have hseeing : (if (n.renewalAt level).card < m.card then
      { n.renewalAt level with card := m.card, sent := 0 } else n.renewalAt level) =
      (n.renewalAt level).seeing m.card := rfl
  have hnext' := (n.renewalAt level).next_seeing m.card
  unfold renewLevel
  simp only [hmembers, aggregateBelow_eq hpos, hm, bind, Except.bind]
  rw [show (n.renewals.get? level).getD {} = n.renewalAt level from rfl, hseeing]
  generalize (n.renewalAt level).seeing m.card = now at hnext' ⊢
  by_cases hdone : members.size ≤ now.sent
  · rw [if_pos hdone, if_pos hdone]
    rfl
  · have hfits : now.next + min s.settings.updates members.size < Word.limit := by
      unfold Word.limit
      omega
    have hfits' : now.sent + min s.settings.updates members.size < Word.limit := by
      unfold Word.limit
      omega
    rw [if_neg hdone, if_neg hdone, Member.cycle_eq (by omega) hfits]
    simp only [Word.add, if_pos hfits, if_pos hfits', Word.mod,
      if_neg (by omega : ¬ members.size = 0)]
    rfl

/-- The update of a level changes its counter only. -/
theorem renewLevel_spec (hstarted : level ∈ n.started) :
    ∃ n', n.renewLevel s level = .ok n' ∧ Spoken s n n' ∧ Standing s n' ∧
      n'.level = n.level ∧ n'.started = n.started ∧ n'.completed = n.completed ∧
      n'.contacts = n.contacts := by
  obtain ⟨hpos, hlevel, hsize⟩ := (standing.mem_started level).1 hstarted
  have hle := Nat.le_trans hlevel standing.level_le
  obtain ⟨span, hspan, -⟩ := s.place.exists_peers_of_sizeAt_pos hsize
  obtain ⟨m, members, hm, -, hmsize, -, hpeers, hrenew⟩ :=
    renewLevel_eq sound tidy standing hpos hle hspan
  obtain ⟨hnext, hsent⟩ := standing.renewalAt hsize
  have hnext' := (n.renewalAt level).next_seeing m.card
  have hsent' := (n.renewalAt level).sent_seeing_le m.card
  generalize (n.renewalAt level).seeing m.card = now at hrenew hnext' hsent'
  dsimp only at hrenew
  by_cases hdone : members.size ≤ now.sent
  · rw [if_pos hdone] at hrenew
    refine ⟨_, hrenew, ⟨rfl, rfl, rfl, rfl, rfl, rfl, [], rfl, nofun⟩, ?_, rfl, rfl, rfl, rfl⟩
    exact standing.noting ⟨hnext'.symm ▸ hnext, Nat.lt_of_le_of_lt hsent' hsent⟩
  · rw [if_neg hdone] at hrenew
    have hreceivers : ∀ r ∈ (List.range (min s.settings.updates members.size)).filterMap
        fun k => members[(now.next + k) % members.size]?, s.place.Peer s.roster level r := by
      intro r hr
      obtain ⟨k, -, hk⟩ := List.mem_filterMap.1 hr
      exact hpeers r (Array.mem_of_getElem? hk)
    have hstanding : Standing s (n.noting level
        (now.moved (min s.settings.updates members.size) members.size)) := standing.noting
      ⟨by rw [← hmsize]; exact Nat.mod_lt _ (by omega), by dsimp only [Renewal.moved]; omega⟩
    obtain ⟨sends, hsends, hinforms⟩ := sendTo_spec hpos hle (n := n.noting level
      (now.moved (min s.settings.updates members.size) members.size)) hm hreceivers
    rw [hsends] at hrenew
    exact ⟨_, hrenew, ⟨rfl, rfl, rfl, rfl, rfl, rfl, sends, rfl, hinforms⟩,
      ⟨hstanding.level_le, hstanding.mem_started, hstanding.contacts, hstanding.renewals⟩,
      rfl, rfl, rfl, rfl⟩

theorem renewAll_spec {levels : List Nat} (hstarted : ∀ level ∈ levels, level ∈ n.started) :
    ∃ n', renewAll s levels n = .ok n' ∧ Spoken s n n' ∧ Standing s n' ∧
      n'.level = n.level ∧ n'.started = n.started ∧ n'.completed = n.completed ∧
      n'.contacts = n.contacts := by
  induction levels generalizing n with
  | nil => exact ⟨n, rfl, .refl s n, standing, rfl, rfl, rfl, rfl⟩
  | cons level levels ih =>
      obtain ⟨n₁, hrenew, spoken, hstand, hlevel, hstart, hcompleted, hcontacts⟩ :=
        renewLevel_spec sound tidy standing (hstarted level List.mem_cons_self)
      obtain ⟨n', hrenew', spoken', hstand', hlevel', hstart', hcompleted', hcontacts'⟩ :=
        ih (n := n₁) (spoken.holdings_eq ▸ tidy) hstand
          (fun l hl => hstart ▸ hstarted l (List.mem_cons_of_mem _ hl))
      refine ⟨n', ?_, spoken.trans spoken', hstand', hlevel'.trans hlevel, hstart'.trans hstart,
        hcompleted'.trans hcompleted, hcontacts'.trans hcontacts⟩
      rw [renewAll, hrenew]
      exact hrenew'

theorem renew_spec :
    ∃ n', n.renew s = .ok n' ∧ Spoken s n n' ∧ Standing s n' ∧ n'.level = n.level ∧
      n'.started = n.started ∧ n'.completed = n.completed ∧ n'.contacts = n.contacts := by
  unfold renew
  by_cases hrunning : n.phase = .running
  · rw [if_pos hrunning]
    exact renewAll_spec sound tidy standing fun _ h => h
  · rw [if_neg hrunning]
    exact ⟨n, rfl, .refl s n, standing, rfl, rfl, rfl, rfl⟩

end

end Node

end MultisigTree
