import MultisigTree.Proofs.Interleavings
import MultisigTree.Proofs.Turns

/-!
# The mail of each level

What a node does for one level leaves the mail, the cursor and the counter of
every other level alone (`Node.Untouched`). So a climb, level by level
(`Node.Ascent`), and with it whatever step enters a level puts one packet into
its mail, with what is held below it for the first members of the level, if that
can be written at all (`Node.rise_of_step`); and an update does for each level
entered what `Node.renewLevel` does (`Node.turned_of_renew`). All else that a
node does is silent (`Node.Silent`).
-/
namespace MultisigTree

variable {κ σ : Type}

def Action.isFor (level : Nat) : Action κ σ → Bool
  | .send _ packet => packet.level.toNat = level
  | _ => false

theorem Place.contact_keeps {p : Place} {roster : Roster κ} {order : ContactOrder}
    {level count other : Nat} {contacts contacts' : Contacts} {answer : Option (List (Member κ))}
    (h : p.contact roster order level count contacts = .ok (answer, contacts'))
    (hne : level ≠ other) : contacts'.get? other = contacts.get? other := by
  have hinsert : ∀ c : Cursor, (contacts.insert level c).get? other = contacts.get? other :=
    fun c => by rw [LevelMap.get?_insert, if_neg hne]
  unfold contact at h
  split at h
  · cases h
    rfl
  · dsimp only at h
    split at h
    · cases h
      exact hinsert _
    · obtain ⟨reach, -, h⟩ := Except.bind_eq_ok_iff.1 h
      obtain ⟨picked, -, h⟩ := Except.bind_eq_ok_iff.1 h
      cases h
      exact hinsert _

namespace Setup

variable (s : Setup κ σ)

/-- The members a level's first packet goes to. -/
def firsts (level : Nat) : List (Member κ) :=
  (s.place.contactList s.roster s.order level).take s.settings.candidates

/-- The `count` members of a level that come next from position `start` on, going
round. -/
def round (level start count : Nat) : List (Member κ) :=
  match s.place.membersAt s.roster level with
  | .error _ => []
  | .ok members => (List.range count).filterMap fun k => members[(start + k) % members.size]?

/-- What sending a multi-signature leaves in the journal: one packet if it can be
written, nothing otherwise. -/
def posting (level : Nat) (m : Multisig σ) (receivers : List (Member κ)) : List (Action κ σ) :=
  match m.encode s.scheme with
  | .ok payload => [.send receivers ⟨s.id, UInt8.ofNat level, payload⟩]
  | .error _ => []

variable {s} {level : Nat}

theorem posting_of_encode {m : Multisig σ} {payload : List UInt8}
    (h : m.encode s.scheme = .ok payload) (receivers : List (Member κ)) :
    s.posting level m receivers = [.send receivers ⟨s.id, UInt8.ofNat level, payload⟩] := by
  simp only [posting, h]

theorem round_eq {members : Array (Member κ)} (h : s.place.membersAt s.roster level = .ok members)
    (start count : Nat) : s.round level start count =
      (List.range count).filterMap fun k => members[(start + k) % members.size]? := by
  simp only [round, h]

theorem length_round {members : Array (Member κ)}
    (h : s.place.membersAt s.roster level = .ok members) (hpos : 0 < members.size)
    (start count : Nat) : (s.round level start count).length = count := by
  rw [round_eq h, List.length_filterMap_eq_countP, List.countP_eq_length.2, List.length_range]
  intro k _
  simpa using Nat.mod_lt _ hpos

theorem mem_round {members : Array (Member κ)} (h : s.place.membersAt s.roster level = .ok members)
    {start count k : Nat} {r : Member κ} (hk : k < count)
    (hr : members[(start + k) % members.size]? = some r) : r ∈ s.round level start count := by
  rw [round_eq h]
  exact List.mem_filterMap.2 ⟨k, List.mem_range.2 hk, hr⟩

namespace Sound

variable (sound : s.Sound) (hle : level ≤ s.maxLevel)
include sound hle

/-- The number of a level fits a byte. -/
theorem level_lt : level < 2 ^ 8 := by
  have := sound.maxLevel_le
  omega

theorem exists_members (hsize : 0 < s.place.sizeAt level) :
    ∃ members, s.place.membersAt s.roster level = .ok members ∧
      members.size = s.place.sizeAt level := by
  obtain ⟨span, hspan, -⟩ := s.place.exists_peers_of_sizeAt_pos hsize
  obtain ⟨members, hmembers, hmsize, -⟩ :=
    Place.peer_of_membersAt sound.dense sound.size_eq hle hspan
  exact ⟨members, hmembers, hmsize⟩

theorem size_members (hsize : 0 < s.place.sizeAt level) {members : Array (Member κ)}
    (h : s.place.membersAt s.roster level = .ok members) :
    members.size = s.place.sizeAt level := by
  obtain ⟨listed, hlisted, hlsize⟩ := sound.exists_members hle hsize
  obtain rfl := Except.ok.inj (hlisted.symm.trans h)
  exact hlsize

end Sound

end Setup

namespace Node

/-- The packets of a level, the latest first. -/
def mail (n : Node κ σ) (level : Nat) : List (Action κ σ) :=
  n.journal.filter (·.isFor level)

/-- A level's mail, cursor and counter are as before. -/
structure Untouched (n n' : Node κ σ) (level : Nat) : Prop where
  mail_eq : n'.mail level = n.mail level
  cursor_eq : n'.contacts.get? level = n.contacts.get? level
  counter_eq : n'.renewals.get? level = n.renewals.get? level

variable {s : Setup κ σ} {n n' n'' : Node κ σ} {level other : Nat} {m : Multisig σ}

namespace Untouched

theorem refl (n : Node κ σ) (level : Nat) : Untouched n n level :=
  ⟨rfl, rfl, rfl⟩

theorem trans (h : Untouched n n' level) (h' : Untouched n' n'' level) : Untouched n n'' level where
  mail_eq := h'.mail_eq.trans h.mail_eq
  cursor_eq := h'.cursor_eq.trans h.cursor_eq
  counter_eq := h'.counter_eq.trans h.counter_eq

/-- The mail is the same if nothing but other actions are added to the journal. -/
theorem of_journal (new : List (Action κ σ)) (hjournal : n'.journal = new ++ n.journal)
    (hnew : ∀ a ∈ new, a.isFor level = false) (hcontacts : n'.contacts = n.contacts)
    (hrenewals : n'.renewals = n.renewals) : Untouched n n' level := by
  refine ⟨?_, by rw [hcontacts], by rw [hrenewals]⟩
  rw [mail, mail, hjournal, List.filter_append, List.filter_eq_nil_iff.2, List.nil_append]
  intro a ha
  simp [hnew a ha]

/-- Whatever else changes, journal, cursors and counters do not. -/
theorem of_eq (hjournal : n'.journal = n.journal) (hcontacts : n'.contacts = n.contacts)
    (hrenewals : n'.renewals = n.renewals) : Untouched n n' level :=
  .of_journal [] hjournal nofun hcontacts hrenewals

theorem renewalAt_eq (h : Untouched n n' level) : n'.renewalAt level = n.renewalAt level := by
  rw [renewalAt, renewalAt, h.counter_eq]

end Untouched

/-- Sending writes its posting into the journal and does nothing else. -/
theorem sendTo_posting (n : Node κ σ) (level : Nat) (m : Multisig σ)
    (receivers : List (Member κ)) : n.sendTo s level m receivers =
      { n with journal := s.posting level m receivers ++ n.journal } := by
  unfold sendTo Setup.posting
  cases m.encode s.scheme <;> rfl

theorem mail_posted (hbyte : level < 2 ^ 8) (receivers : List (Member κ)) :
    (n.sendTo s level m receivers).mail level = s.posting level m receivers ++ n.mail level := by
  have hlevel : (UInt8.ofNat level).toNat = level := UInt8.toNat_ofNat_of_lt' hbyte
  rw [sendTo_posting, mail, mail, List.filter_append]
  congr 1
  unfold Setup.posting
  split <;> simp [Action.isFor, hlevel]

theorem untouched_sendTo (hbyte : level < 2 ^ 8) (hne : level ≠ other)
    (receivers : List (Member κ)) : Untouched n (n.sendTo s level m receivers) other := by
  have hlevel : (UInt8.ofNat level).toNat = level := UInt8.toNat_ofNat_of_lt' hbyte
  rw [sendTo_posting]
  refine .of_journal (s.posting level m receivers) rfl ?_ rfl rfl
  unfold Setup.posting
  split
  · simpa [Action.isFor, hlevel] using hne
  · exact nofun

theorem untouched_of_approach (h : n.approach s level = .ok n') (hbyte : level < 2 ^ 8)
    (hne : level ≠ other) : Untouched n n' other := by
  obtain ⟨⟨receivers?, contacts⟩, hcontact, h⟩ := Except.bind_eq_ok_iff.1 h
  have hmoved : Untouched n { n with contacts := contacts } other :=
    ⟨rfl, Place.contact_keeps hcontact hne, rfl⟩
  cases receivers? with
  | none =>
      cases h
      exact hmoved
  | some receivers =>
      obtain ⟨m?, -, h⟩ := Except.bind_eq_ok_iff.1 h
      cases m? with
      | none =>
          cases h
          exact hmoved
      | some m =>
          cases h
          exact hmoved.trans (untouched_sendTo hbyte hne receivers)

theorem untouched_of_approachAll {levels : List Nat} (h : approachAll s levels n = .ok n')
    (hlevels : ∀ level ∈ levels, level < 2 ^ 8 ∧ level ≠ other) : Untouched n n' other := by
  induction levels generalizing n with
  | nil =>
      cases h
      exact .refl _ _
  | cons level levels ih =>
      obtain ⟨n₁, happroach, hrest⟩ := Except.bind_eq_ok_iff.1 h
      obtain ⟨hbyte, hne⟩ := hlevels level List.mem_cons_self
      exact (untouched_of_approach happroach hbyte hne).trans
        (ih hrest fun l hl => hlevels l (List.mem_cons_of_mem _ hl))

/-- No level is entered, and the levels above are left alone. -/
structure Stays (n n' : Node κ σ) : Prop where
  level_eq : n'.level = n.level
  started_eq : n'.started = n.started
  above : ∀ level, n.level < level → Untouched n n' level

/-- The levels entered have each been sent one packet, if it can be written. -/
structure Rise (s : Setup κ σ) (n n' : Node κ σ) : Prop where
  level_le : n.level ≤ n'.level
  ascending : Ascending n.started → Ascending n'.started
  above : ∀ level, n'.level < level → Untouched n n' level
  entered : ∀ level, n.level < level → level ≤ n'.level → 0 < s.place.sizeAt level →
    ∃ m, n'.holdings.combined s.scheme s.place (level - 1) = .ok (some m) ∧
      n'.mail level = s.posting level m (s.firsts level) ++ n.mail level

theorem Stays.refl (n : Node κ σ) : Stays n n :=
  ⟨rfl, rfl, fun _ _ => .refl _ _⟩

theorem Stays.rise (s : Setup κ σ) (h : Stays n n') : Rise s n n' where
  level_le := Nat.le_of_eq h.level_eq.symm
  ascending := h.started_eq ▸ id
  above level hlevel := h.above level (h.level_eq ▸ hlevel)
  entered level hlevel hle := by
    have := h.level_eq
    omega

theorem Stays.trans_rise (h : Stays n n') (rise : Rise s n' n'') : Rise s n n'' where
  level_le := h.level_eq ▸ rise.level_le
  ascending := h.started_eq ▸ rise.ascending
  above level hlevel := by
    have hbefore := h.above level (by have := rise.level_le; have := h.level_eq; omega)
    exact hbefore.trans (rise.above level hlevel)
  entered level hlevel hle hsize := by
    have hmail := (h.above level hlevel).mail_eq
    have hrise := rise.entered level (h.level_eq ▸ hlevel) hle hsize
    rwa [hmail] at hrise

/-- A rise that leaves alone the levels entered before and what is held. -/
structure Ascent (s : Setup κ σ) (n n' : Node κ σ) : Prop extends Rise s n n' where
  below : ∀ level ≤ n.level, Untouched n n' level
  holdings_eq : n'.holdings = n.holdings

namespace Ascent

theorem refl (s : Setup κ σ) (n : Node κ σ) : Ascent s n n where
  toRise := (Stays.refl n).rise s
  below _ _ := .refl _ _
  holdings_eq := rfl

theorem trans (h : Ascent s n n') (h' : Ascent s n' n'') : Ascent s n n'' where
  level_le := Nat.le_trans h.level_le h'.level_le
  ascending hascending := h'.ascending (h.ascending hascending)
  above level habove :=
    (h.above level (Nat.lt_of_le_of_lt h'.level_le habove)).trans (h'.above level habove)
  entered level hlevel hle hsize := by
    by_cases hfirst : level ≤ n'.level
    · obtain ⟨m, hm, hmail⟩ := h.entered level hlevel hfirst hsize
      refine ⟨m, ?_, ?_⟩
      · rw [h'.holdings_eq]
        exact hm
      · rw [(h'.below level hfirst).mail_eq, hmail]
    · have hlater := Nat.lt_of_not_le hfirst
      have hentered := h'.entered level hlater hle hsize
      rwa [(h.above level hlater).mail_eq] at hentered
  below level hle := (h.below level hle).trans (h'.below level (Nat.le_trans hle h.level_le))
  holdings_eq := h'.holdings_eq.trans h.holdings_eq

/-- A level without members is passed over. -/
theorem skip (hempty : s.place.sizeAt (n.level + 1) = 0) :
    Ascent s n { n with level := n.level + 1 } where
  level_le := Nat.le_succ _
  ascending := id
  above _ _ := .of_eq rfl rfl rfl
  entered level hlevel hle hsize := by
    obtain rfl : level = n.level + 1 := Nat.le_antisymm hle hlevel
    exact absurd hsize (hempty ▸ Nat.lt_irrefl 0)
  below _ _ := .of_eq rfl rfl rfl
  holdings_eq := rfl

end Ascent

/-- Nothing is sent and no level is entered, and no cursor or counter moves. -/
structure Silent (n n' : Node κ σ) : Prop where
  level_eq : n'.level = n.level
  started_eq : n'.started = n.started
  contacts_eq : n'.contacts = n.contacts
  renewals_eq : n'.renewals = n.renewals
  journal_eq : ∃ new, n'.journal = new ++ n.journal ∧ ∀ a ∈ new, ∀ level, a.isFor level = false

namespace Silent

theorem refl (n : Node κ σ) : Silent n n :=
  ⟨rfl, rfl, rfl, rfl, [], rfl, nofun⟩

theorem untouched (h : Silent n n') (level : Nat) : Untouched n n' level := by
  obtain ⟨new, hjournal, hnew⟩ := h.journal_eq
  exact .of_journal new hjournal (fun a ha => hnew a ha level) h.contacts_eq h.renewals_eq

theorem stays (h : Silent n n') : Stays n n' :=
  ⟨h.level_eq, h.started_eq, fun level _ => h.untouched level⟩

theorem record {a : Action κ σ} (h : ∀ level, a.isFor level = false) : Silent n (n.record a) :=
  ⟨rfl, rfl, rfl, rfl, [a], rfl, fun _ ha => List.mem_singleton.1 ha ▸ h⟩

theorem begun (n : Node κ σ) : Silent n n.begun :=
  ⟨rfl, rfl, rfl, rfl, [], rfl, nofun⟩

theorem receive (hphase : n.backlog.phase = n.phase) (packet : Packet) :
    Silent n (n.receive s packet) := by
  rcases receive_cases s hphase packet with h | ⟨fault, h⟩ | ⟨o, -, h⟩ <;> rw [h]
  · exact .refl n
  · exact .record fun _ => rfl
  · exact ⟨rfl, rfl, rfl, rfl, [], rfl, nofun⟩

theorem passed (b : Backlog σ) (verdict : Option (Verdict σ)) : Silent n (n.passed b verdict) := by
  rcases verdict with _ | o | ⟨o, fault⟩
  · exact ⟨rfl, rfl, rfl, rfl, [], rfl, nofun⟩
  · exact ⟨rfl, rfl, rfl, rfl, [], rfl, nofun⟩
  · exact ⟨rfl, rfl, rfl, rfl, [.report o.origin fault], rfl, by simp [Action.isFor]⟩

theorem taking (n : Node κ σ) (o : Offer σ) (rest : List (Offer σ)) :
    Silent n (n.taking s o rest) :=
  ⟨rfl, rfl, rfl, rfl, [], rfl, nofun⟩

theorem concluding (n : Node κ σ) (m : Multisig σ) : Silent n (n.concluding s m) := by
  rcases concluding_cases s n m with ⟨-, h⟩ | ⟨-, h⟩ <;> rw [h]
  · exact .refl n
  · exact ⟨rfl, rfl, rfl, rfl, [.publish m], rfl, by simp [Action.isFor]⟩

theorem stop (n : Node κ σ) : Silent n n.stop := by
  unfold Node.stop
  split
  · exact .refl n
  · exact ⟨rfl, rfl, rfl, rfl, [], rfl, nofun⟩

end Silent

theorem Rise.trans_silent (rise : Rise s n n') (h : Silent n' n'')
    (hholdings : n''.holdings = n'.holdings) : Rise s n n'' where
  level_le := h.level_eq ▸ rise.level_le
  ascending := h.started_eq ▸ rise.ascending
  above level habove := (rise.above level (h.level_eq ▸ habove)).trans (h.untouched level)
  entered level habove hle hsize := by
    rw [hholdings, (h.untouched level).mail_eq]
    exact rise.entered level habove (h.level_eq ▸ hle) hsize

/-- Where a level that has been entered can be. -/
theorem Standing.bounds (standing : Standing s n) (h : level ∈ n.started) :
    0 < level ∧ level ≤ s.maxLevel ∧ 0 < s.place.sizeAt level := by
  obtain ⟨hpos, hlevel, hsize⟩ := (standing.mem_started level).1 h
  exact ⟨hpos, Nat.le_trans hlevel standing.level_le, hsize⟩

theorem fit_of_step (fit : Fit s n) (sound : s.Sound) {e : Event} (h : n.step s e = .ok n') :
    Fit s n' :=
  (fit.stepped_of_step sound h).fit fit

theorem fit_of_run (sound : s.Sound) {own : σ} {events : List Event}
    (h : run s events (create s own) = .ok n) : Fit s n := by
  obtain ⟨n₁, hrun, fit⟩ := (fit_create s own).run sound events
  exact Except.ok.inj (hrun.symm.trans h) ▸ fit

section
variable (sound : s.Sound) (tidy : n.holdings.Tidy s.place)
  (hcandidates : 0 < s.settings.candidates)
include sound tidy hcandidates

/-- A level that has not been contacted yet hears from the node. -/
theorem approach_of_fresh (hpos : 0 < level) (hle : level ≤ s.maxLevel)
    (hsize : 0 < s.place.sizeAt level) (hfresh : n.contacts.get? level = none) :
    ∃ m contacts, n.holdings.combined s.scheme s.place (level - 1) = .ok (some m) ∧
      n.approach s level =
        .ok (({ n with contacts := contacts } : Node κ σ).sendTo s level m (s.firsts level)) := by
  obtain ⟨members, hmembers, hmsize⟩ := sound.exists_members hle hsize
  obtain ⟨w, m, -, hm, -⟩ :=
    Holdings.combined_eq tidy s.scheme sound.size_le_limit hpos (Nat.le_succ_of_le hle)
  have hserve : Request.serve (s.place.contactList s.roster s.order level)
      s.settings.candidates = some (s.firsts level) := by
    have hlength := Place.length_contactList s.order hmembers
    rw [Request.serve_eq_some_iff]
    refine ⟨fun hnil => ?_, rfl⟩
    rw [Setup.firsts, List.take_eq_nil_iff, ← List.length_eq_zero_iff] at hnil
    omega
  have hcontact : s.place.contact s.roster s.order level s.settings.candidates n.contacts = _ :=
    Place.contact_of_fresh hmembers hfresh sound.candidates_lt
  rw [hserve] at hcontact
  generalize n.contacts.insert level _ = contacts at hcontact
  refine ⟨m, contacts, hm, ?_⟩
  simp only [approach, hcontact, bind, Except.bind, aggregateBelow_eq hpos, hm]
  rfl

/-- The next level is entered. -/
theorem ascent_of_approach (hle : n.level + 1 ≤ s.maxLevel)
    (hsize : 0 < s.place.sizeAt (n.level + 1)) (hfresh : n.contacts.get? (n.level + 1) = none)
    (h : approach s { n with
      level := n.level + 1
      started := AscendingList.insert (n.level + 1) n.started } (n.level + 1) = .ok n') :
    Ascent s n n' ∧ n'.level = n.level + 1 := by
  obtain ⟨m, contacts, hm, hsent⟩ := approach_of_fresh (n := { n with
    level := n.level + 1, started := AscendingList.insert (n.level + 1) n.started })
    sound tidy hcandidates (Nat.succ_pos n.level) hle hsize hfresh
  have hbyte : n.level + 1 < 2 ^ 8 := sound.level_lt hle
  have hothers : ∀ level, level ≠ n.level + 1 → Untouched n n' level := fun level hne =>
    have hentering : Untouched n { n with
      level := n.level + 1, started := AscendingList.insert (n.level + 1) n.started } level :=
        .of_eq rfl rfl rfl
    hentering.trans (untouched_of_approach h hbyte hne.symm)
  have hmail : n'.mail (n.level + 1) =
      s.posting (n.level + 1) m (s.firsts (n.level + 1)) ++ n.mail (n.level + 1) := by
    rw [← Except.ok.inj (hsent.symm.trans h)]
    exact mail_posted hbyte _
  obtain ⟨hlevel, hstarted, hholdings⟩ : n'.level = n.level + 1 ∧
      n'.started = AscendingList.insert (n.level + 1) n.started ∧ n'.holdings = n.holdings := by
    rw [← Except.ok.inj (hsent.symm.trans h), sendTo_posting]
    exact ⟨rfl, rfl, rfl⟩
  refine ⟨⟨⟨by omega, ?_, ?_, ?_⟩, ?_, hholdings⟩, hlevel⟩
  · exact fun hascending => hstarted ▸ hascending.insert
  · exact fun level habove => hothers level (by omega)
  · intro level habove hle' _
    obtain rfl : level = n.level + 1 := by omega
    exact ⟨m, hholdings ▸ hm, hmail⟩
  · exact fun level hlow => hothers level (by omega)

theorem ascent_of_climb {steps : Nat} {entered entered' : Bool}
    (hle : n.level + steps ≤ s.maxLevel)
    (hfresh : ∀ level, n.level < level → n.contacts.get? level = none)
    (h : climb s steps entered n = .ok (entered', n')) : Ascent s n n' := by
  induction steps generalizing n entered with
  | zero =>
      cases h
      exact .refl s _
  | succ steps ih =>
      rw [climb] at h
      by_cases hempty : s.place.sizeAt (n.level + 1) = 0
      · rw [if_pos hempty] at h
        refine (Ascent.skip hempty).trans (ih tidy ?_ (fun level hlevel => ?_) h)
        · dsimp only
          omega
        · exact hfresh level (Nat.lt_of_succ_lt hlevel)
      · rw [if_neg hempty] at h
        obtain ⟨n₁, happroach, h⟩ := Except.bind_eq_ok_iff.1 h
        obtain ⟨ascent, hlevel⟩ := ascent_of_approach sound tidy hcandidates (by omega)
          (Nat.pos_of_ne_zero hempty) (hfresh _ (Nat.lt_succ_self _)) happroach
        by_cases hmem : n₁.completed.contains (n.level + 1) = true
        · rw [if_pos hmem] at h
          refine ascent.trans (ih (ascent.holdings_eq ▸ tidy) (by omega) (fun level habove => ?_) h)
          rw [(ascent.above level habove).cursor_eq]
          exact hfresh level (by omega)
        · rw [if_neg hmem] at h
          cases h
          exact ascent

theorem rise_of_advance {entered : Bool} (hlevel : n.level ≤ s.maxLevel)
    (hfresh : ∀ level, n.level < level → n.contacts.get? level = none)
    (h : n.advance s = .ok (entered, n')) : Rise s n n' := by
  unfold advance at h
  split at h
  · cases h
    exact (Stays.refl n).rise s
  · exact (ascent_of_climb sound tidy hcandidates (by omega) hfresh h).toRise

theorem rise_of_checkCompleted (standing : Standing s n)
    (hfresh : ∀ level, n.level < level → n.contacts.get? level = none)
    (h : n.checkCompleted s level = .ok n') : Rise s n n' := by
  unfold checkCompleted at h
  split at h
  · cases h
    exact (Stays.refl _).rise s
  split at h
  · cases h
  split at h
  · cases h
    exact (Stays.refl _).rise s
  obtain ⟨told, hall, h⟩ := Except.bind_eq_ok_iff.1 h
  have habove : ∀ l ∈ n.started.filter (level < ·), 0 < l ∧ l ≤ s.maxLevel := fun l hl =>
    have hbounds := standing.bounds (List.mem_filter.1 hl).1
    ⟨hbounds.1, hbounds.2.1⟩
  obtain ⟨contacts, sends, happroach, -, -⟩ := approachAll_spec
    (n := { n with completed := AscendingList.insert level n.completed }) sound tidy
    standing.contacts habove
  have htold := Except.ok.inj (hall.symm.trans happroach)
  have hstays : Stays n told := by
    refine ⟨by rw [htold], by rw [htold], fun other hother => ?_⟩
    have hmarked : Untouched n
        { n with completed := AscendingList.insert level n.completed } other := .of_eq rfl rfl rfl
    refine hmarked.trans (untouched_of_approachAll hall fun l hl => ?_)
    have hlow := ((standing.mem_started l).1 (List.mem_filter.1 hl).1).2.1
    exact ⟨sound.level_lt (habove l hl).2, by omega⟩
  split at h
  · obtain ⟨⟨entered, n₁⟩, hadvance, h⟩ := Except.bind_eq_ok_iff.1 h
    cases h
    refine hstays.trans_rise (rise_of_advance sound (by rw [htold]; exact tidy) hcandidates
      (hstays.level_eq ▸ standing.level_le) (fun other hother => ?_) hadvance)
    rw [hstays.level_eq] at hother
    rw [(hstays.above other hother).cursor_eq]
    exact hfresh other hother
  · cases h
    exact hstays.rise s

end

/-- An update of one level leaves the others alone. -/
theorem untouched_of_renewLevel (hbyte : level < 2 ^ 8) (hne : level ≠ other)
    (h : n.renewLevel s level = .ok n') : Untouched n n' other := by
  have hnoting : ∀ r, Untouched n (n.noting level r) other := fun r =>
    ⟨rfl, rfl, by rw [noting, LevelMap.get?_insert, if_neg hne]⟩
  unfold renewLevel at h
  split at h
  · cases h
    exact .refl _ _
  obtain ⟨m?, -, h⟩ := Except.bind_eq_ok_iff.1 h
  cases m? with
  | none =>
      cases h
      exact .refl _ _
  | some m =>
      have hseeing : (if ((n.renewals.get? level).getD {}).card < m.card then
          { (n.renewals.get? level).getD {} with card := m.card, sent := 0 }
          else (n.renewals.get? level).getD {}) = (n.renewalAt level).seeing m.card := rfl
      dsimp only at h
      rw [hseeing] at h
      generalize (n.renewalAt level).seeing m.card = now at h
      split at h
      · cases h
        exact hnoting _
      · obtain ⟨receivers, -, h⟩ := Except.bind_eq_ok_iff.1 h
        obtain ⟨reach, -, h⟩ := Except.bind_eq_ok_iff.1 h
        obtain ⟨next, -, h⟩ := Except.bind_eq_ok_iff.1 h
        obtain ⟨sent, -, h⟩ := Except.bind_eq_ok_iff.1 h
        cases h
        exact (hnoting _).trans (untouched_sendTo hbyte hne receivers)

/-- What an update does for a level when the node shows `m` below it: nothing if
all have been contacted since `m` got that many contributions, and otherwise it
sends `m` to the next members. -/
inductive Turned (s : Setup κ σ) (n n' : Node κ σ) (level : Nat) (m : Multisig σ) : Prop
  | idle (h : s.place.sizeAt level ≤ ((n.renewalAt level).seeing m.card).sent)
      (hcounter : n'.renewalAt level = (n.renewalAt level).seeing m.card)
      (hmail : n'.mail level = n.mail level)
  | sent (h : ((n.renewalAt level).seeing m.card).sent < s.place.sizeAt level)
      (hcounter : n'.renewalAt level = ((n.renewalAt level).seeing m.card).moved
        (min s.settings.updates (s.place.sizeAt level)) (s.place.sizeAt level))
      (hmail : n'.mail level = s.posting level m (s.round level (n.renewalAt level).next
        (min s.settings.updates (s.place.sizeAt level))) ++ n.mail level)

/-- What is done for other levels before and after does not matter. -/
theorem Turned.around {n₁ n₂ : Node κ σ} (h : Turned s n₁ n₂ level m)
    (before : Untouched n n₁ level) (after : Untouched n₂ n' level) : Turned s n n' level m := by
  cases h with
  | idle hover hcounter hmail =>
      rw [before.renewalAt_eq] at hover hcounter
      exact .idle hover (after.renewalAt_eq.trans hcounter)
        (by rw [after.mail_eq, hmail, before.mail_eq])
  | sent hleft hcounter hmail =>
      rw [before.renewalAt_eq] at hleft hcounter hmail
      exact .sent hleft (after.renewalAt_eq.trans hcounter)
        (by rw [after.mail_eq, hmail, before.mail_eq])

/-- The counter knows `m` afterwards. -/
theorem Turned.card_eq (h : Turned s n n' level m) :
    (n'.renewalAt level).card = ((n.renewalAt level).seeing m.card).card := by
  cases h with
  | idle hover hcounter hmail => rw [hcounter]
  | sent hleft hcounter hmail => rw [hcounter]; rfl

theorem renewalAt_noting (r : Renewal) : (n.noting level r).renewalAt level = r := by
  rw [renewalAt, noting, LevelMap.get?_insert, if_pos rfl, Option.getD_some]

section
variable (sound : s.Sound) (tidy : n.holdings.Tidy s.place) (standing : Standing s n)
include sound tidy standing

theorem turned_of_renewLevel (hstarted : level ∈ n.started) (h : n.renewLevel s level = .ok n') :
    ∃ m, n.holdings.combined s.scheme s.place (level - 1) = .ok (some m) ∧
      Turned s n n' level m := by
  obtain ⟨hpos, hle, hsize⟩ := standing.bounds hstarted
  have hbyte := sound.level_lt hle
  obtain ⟨span, hspan, -⟩ := s.place.exists_peers_of_sizeAt_pos hsize
  obtain ⟨m, members, hm, hmembers, hmsize, -, -, hrenew⟩ :=
    renewLevel_eq sound tidy standing hpos hle hspan
  refine ⟨m, hm, ?_⟩
  have hnext := (n.renewalAt level).next_seeing m.card
  have hround := s.round_eq hmembers (n.renewalAt level).next
    (min s.settings.updates (s.place.sizeAt level))
  rw [h, Except.ok.injEq] at hrenew
  dsimp only at hrenew
  rw [hnext, hmsize] at hrenew
  rw [hmsize] at hround
  by_cases hover : s.place.sizeAt level ≤ ((n.renewalAt level).seeing m.card).sent
  · rw [if_pos hover] at hrenew
    exact .idle hover (by rw [hrenew, renewalAt_noting]) (by rw [hrenew]; rfl)
  · rw [if_neg hover, ← hround] at hrenew
    refine .sent (Nat.not_le.1 hover) ?_ ?_
    · rw [hrenew, sendTo_posting]
      exact renewalAt_noting _
    · rw [hrenew, mail_posted hbyte]
      rfl

theorem turned_of_renewAll {levels : List Nat} (hstarted : ∀ level ∈ levels, level ∈ n.started)
    (hnodup : levels.Nodup) (h : renewAll s levels n = .ok n') :
    (∀ level ∈ levels, ∃ m, n.holdings.combined s.scheme s.place (level - 1) = .ok (some m) ∧
      Turned s n n' level m) ∧ ∀ level ∉ levels, Untouched n n' level := by
  induction levels generalizing n with
  | nil =>
      cases h
      exact ⟨nofun, fun _ _ => .refl _ _⟩
  | cons level levels ih =>
      have hfirst := hstarted level List.mem_cons_self
      obtain ⟨n₁, hrenew, spoken, standing₁, -, hstart, -⟩ :=
        renewLevel_spec sound tidy standing hfirst
      rw [renewAll, hrenew] at h
      obtain ⟨hnotin, hnodup⟩ := List.nodup_cons.1 hnodup
      obtain ⟨hturned, huntouched⟩ := ih (n := n₁) (spoken.holdings_eq ▸ tidy) standing₁
        (fun l hl => hstart ▸ hstarted l (List.mem_cons_of_mem _ hl)) hnodup h
      have hbyte := sound.level_lt (standing.bounds hfirst).2.1
      have hothers : ∀ other, other ≠ level → Untouched n n₁ other := fun other hne =>
        untouched_of_renewLevel hbyte hne.symm hrenew
      constructor
      · intro l hl
        rcases List.mem_cons.1 hl with rfl | hl
        · obtain ⟨m, hm, turned⟩ := turned_of_renewLevel sound tidy standing hfirst hrenew
          exact ⟨m, hm, turned.around (.refl _ _) (huntouched l hnotin)⟩
        · obtain ⟨m, hm, turned⟩ := hturned l hl
          rw [spoken.holdings_eq] at hm
          have hne : l ≠ level := fun heq => hnotin (heq ▸ hl)
          exact ⟨m, hm, turned.around (hothers l hne) (.refl _ _)⟩
      · intro l hl
        rw [List.mem_cons, not_or] at hl
        exact (hothers l hl.1).trans (huntouched l hl.2)

/-- An update does for each level entered what is to be done for it. -/
theorem turned_of_renew (hascending : Ascending n.started) (hrunning : n.phase = .running)
    (h : n.renew s = .ok n') (hstarted : level ∈ n.started) :
    ∃ m, n.holdings.combined s.scheme s.place (level - 1) = .ok (some m) ∧
      Turned s n n' level m := by
  rw [renew, if_pos hrunning] at h
  have hnodup : n.started.Nodup := hascending.imp fun hlt => Nat.ne_of_lt hlt
  exact (turned_of_renewAll sound tidy standing (fun _ h => h) hnodup h).1 level hstarted

theorem stays_of_renew (hascending : Ascending n.started) (h : n.renew s = .ok n') :
    Stays n n' := by
  obtain ⟨n₁, hrenew, -, -, hlevel, hstarted, -⟩ := renew_spec sound tidy standing
  obtain rfl := Except.ok.inj (hrenew.symm.trans h)
  refine ⟨hlevel, hstarted, fun other hother => ?_⟩
  have hnot : other ∉ n.started := fun hmem => by
    have := ((standing.mem_started other).1 hmem).2.1
    omega
  unfold renew at h
  split at h
  · have hnodup : n.started.Nodup := hascending.imp fun hlt => Nat.ne_of_lt hlt
    exact (turned_of_renewAll sound tidy standing (fun _ h => h) hnodup h).2 other hnot
  · cases h
    exact .refl _ _

end

/-- Nothing has been done for the levels not reached yet, and those entered are
listed in order. -/
structure Fresh (n : Node κ σ) : Prop where
  ascending : Ascending n.started
  contacts : ∀ level, n.level < level → n.contacts.get? level = none
  mail : ∀ level, n.level < level → n.mail level = []

theorem fresh_create (s : Setup κ σ) (own : σ) : (create s own).Fresh :=
  ⟨.nil, fun level _ => LevelMap.get?_empty level, fun _ _ => rfl⟩

theorem Fresh.rise (fresh : n.Fresh) (h : Rise s n n') : n'.Fresh where
  ascending := h.ascending fresh.ascending
  contacts level hlevel := by
    rw [(h.above level hlevel).cursor_eq]
    exact fresh.contacts level (Nat.lt_of_le_of_lt h.level_le hlevel)
  mail level hlevel := by
    rw [(h.above level hlevel).mail_eq]
    exact fresh.mail level (Nat.lt_of_le_of_lt h.level_le hlevel)

section
variable (fit : Fit s n) (sound : s.Sound) (fresh : n.Fresh)
  (hcandidates : 0 < s.settings.candidates)
include fit sound fresh hcandidates

/-- Whatever happens, the levels entered are each sent one packet. -/
theorem rise_of_step {e : Event} (h : n.step s e = .ok n') : Rise s n n' := by
  cases fit.stepped_of_step sound h with
  | unstarted hphase => exact (Stays.refl n).rise s
  | @started entered n₁ m hphase hadvance moved hm =>
      have hrise : Rise s n.begun n₁ :=
        rise_of_advance sound fit.tidy hcandidates fit.level_le fresh.contacts hadvance
      exact ((Silent.begun n).stays.trans_rise hrise).trans_silent (.concluding n₁ m)
        (holdings_concluding m)
  | received packet => exact (Silent.receive fit.phase_eq packet).stays.rise s
  | @passed b verdict passed => exact (Silent.passed b verdict).stays.rise s
  | untaken hgenuine => exact (Stays.refl n).rise s
  | @taken o rest n₁ m hgenuine hcheck moved hm =>
      have hrise : Rise s (n.taking s o rest) n₁ :=
        rise_of_checkCompleted sound (fit.tidy_taking hgenuine) hcandidates
          ⟨fit.level_le, fit.mem_started, fit.contacts, fit.renewals⟩ fresh.contacts hcheck
      exact ((Silent.taking n o rest).stays.trans_rise hrise).trans_silent (.concluding n₁ m)
        (holdings_concluding m)
  | renewed hrenew spoken fit' =>
      exact (stays_of_renew sound fit.tidy fit.toStanding fresh.ascending hrenew).rise s
  | advanced hadvance moved =>
      exact rise_of_advance sound fit.tidy hcandidates fit.level_le fresh.contacts hadvance
  | unasked => exact (Stays.refl n).rise s
  | asked hadvance moved timer =>
      have hrise := rise_of_advance sound fit.tidy hcandidates fit.level_le fresh.contacts hadvance
      exact hrise.trans_silent ⟨rfl, rfl, rfl, rfl, [], rfl, nofun⟩ rfl
  | stopped => exact (Silent.stop n).stays.rise s

theorem Fresh.step {e : Event} (h : n.step s e = .ok n') : n'.Fresh :=
  fresh.rise (rise_of_step fit sound fresh hcandidates h)

theorem Fresh.run {events : List Event} (h : run s events n = .ok n') : n'.Fresh :=
  fit.run_keeps sound
    (fun _ _ _ _ fit hstep fresh => Fresh.step fit sound fresh hcandidates hstep) h fresh

end

theorem fresh_of_run (sound : s.Sound) (hcandidates : 0 < s.settings.candidates) {own : σ}
    {events : List Event} (h : run s events (create s own) = .ok n) : n.Fresh :=
  Fresh.run (fit_create s own) sound (fresh_create s own) hcandidates h

/-- Only updates move the counters. -/
theorem renewals_of_step (fit : Fit s n) (sound : s.Sound) {e : Event} (hother : e ≠ .renew)
    (h : n.step s e = .ok n') : n'.renewals = n.renewals := by
  cases fit.stepped_of_step sound h with
  | unstarted hphase => rfl
  | @started entered n₁ m hphase hadvance moved hm =>
      exact (Silent.concluding n₁ m).renewals_eq.trans moved.renewals_eq
  | received packet => exact (Silent.receive fit.phase_eq packet).renewals_eq
  | @passed b verdict passed => exact (Silent.passed b verdict).renewals_eq
  | untaken hgenuine => rfl
  | @taken o rest n₁ m hgenuine hcheck moved hm =>
      exact (Silent.concluding n₁ m).renewals_eq.trans moved.renewals_eq
  | renewed hrenew spoken fit' => exact absurd rfl hother
  | advanced hadvance moved => exact moved.renewals_eq
  | unasked => rfl
  | asked hadvance moved timer => exact moved.renewals_eq
  | stopped => exact (Silent.stop n).renewals_eq

end Node

end MultisigTree
