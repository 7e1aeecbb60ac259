import MultisigTree.Node.Life
import MultisigTree.Proofs.Contacts

/-!
# What a node says

Whatever makes a node speak, it informs members of a level of all it shows on
the levels below (`Setup.Informs`). Meanwhile nothing changes in what it holds
or in what waits (`Node.Spoken`). Moving up keeps it where it may stand
(`Node.Standing`): on a level there is, with exactly the levels up to it that
have members started.
-/
namespace MultisigTree

variable {κ σ : Type}

/-- A packet to members of a level with what `h` shows on the levels below. -/
def Setup.Informs (s : Setup κ σ) (h : Holdings σ) : Action κ σ → Prop
  | .send receivers packet => ∃ level m, 0 < level ∧ level ≤ s.maxLevel ∧
      h.combined s.scheme s.place (level - 1) = .ok (some m) ∧
      m.encode s.scheme = .ok packet.payload ∧ packet.origin = s.id ∧
      packet.level = UInt8.ofNat level ∧ ∀ r ∈ receivers, s.place.Peer s.roster level r
  | _ => False

namespace Node

/-- The node has only spoken, and perhaps moved up. -/
structure Spoken (s : Setup κ σ) (n n' : Node κ σ) : Prop where
  phase_eq : n'.phase = n.phase
  holdings_eq : n'.holdings = n.holdings
  backlog_eq : n'.backlog = n.backlog
  genuine_eq : n'.genuine = n.genuine
  best_eq : n'.best = n.best
  timer_eq : n'.timer = n.timer
  journal_eq : ∃ sends, n'.journal = sends ++ n.journal ∧ ∀ a ∈ sends, s.Informs n.holdings a

namespace Spoken

variable {s : Setup κ σ} {n n' n'' : Node κ σ}

theorem refl (s : Setup κ σ) (n : Node κ σ) : Spoken s n n :=
  ⟨rfl, rfl, rfl, rfl, rfl, rfl, [], rfl, nofun⟩

theorem moved (s : Setup κ σ) (n : Node κ σ) (level : Nat) (started : List Nat)
    (contacts : Contacts) (sends : List (Action κ σ)) (h : ∀ a ∈ sends, s.Informs n.holdings a) :
    Spoken s n { n with level := level, started := started, contacts := contacts,
                        journal := sends ++ n.journal } :=
  ⟨rfl, rfl, rfl, rfl, rfl, rfl, sends, rfl, h⟩

theorem trans (h : Spoken s n n') (h' : Spoken s n' n'') : Spoken s n n'' where
  phase_eq := h'.phase_eq.trans h.phase_eq
  holdings_eq := h'.holdings_eq.trans h.holdings_eq
  backlog_eq := h'.backlog_eq.trans h.backlog_eq
  genuine_eq := h'.genuine_eq.trans h.genuine_eq
  best_eq := h'.best_eq.trans h.best_eq
  timer_eq := h'.timer_eq.trans h.timer_eq
  journal_eq := by
    obtain ⟨sends, hsends, hinforms⟩ := h.journal_eq
    obtain ⟨sends', hsends', hinforms'⟩ := h'.journal_eq
    refine ⟨sends' ++ sends, by rw [hsends', hsends, List.append_assoc], fun a ha => ?_⟩
    rcases List.mem_append.1 ha with ha | ha
    · exact h.holdings_eq ▸ hinforms' a ha
    · exact hinforms a ha

theorem length_le (h : Spoken s n n') : n.journal.length ≤ n'.journal.length := by
  obtain ⟨sends, hsends, -⟩ := h.journal_eq
  rw [hsends, List.length_append]
  exact Nat.le_add_left _ _

theorem mem_journal (h : Spoken s n n') : ∀ a ∈ n.journal, a ∈ n'.journal := by
  obtain ⟨sends, hsends, -⟩ := h.journal_eq
  intro a ha
  rw [hsends]
  exact List.mem_append_right _ ha

theorem published_eq (h : Spoken s n n') : n'.published = n.published := by
  obtain ⟨sends, hsends, hinforms⟩ := h.journal_eq
  unfold published
  rw [hsends, List.filterMap_append, List.filterMap_eq_nil_iff.2, List.nil_append]
  intro a ha
  have := hinforms a ha
  cases a with
  | send receivers packet => rfl
  | publish m => exact this.elim
  | report id fault => rfl

end Spoken

/-- Where a node may stand. -/
structure Standing (s : Setup κ σ) (n : Node κ σ) : Prop where
  level_le : n.level ≤ s.maxLevel
  mem_started : ∀ level,
    level ∈ n.started ↔ 0 < level ∧ level ≤ n.level ∧ 0 < s.place.sizeAt level
  contacts : n.contacts.Sound s.place s.settings.candidates
  renewals : ∀ level r, n.renewals.get? level = some r → 0 < s.place.sizeAt level →
    r.next < s.place.sizeAt level ∧ r.sent < 2 * s.place.sizeAt level

/-- A node that has not reached the last level stands on one that is not
complete. -/
def Parked (s : Setup κ σ) (n : Node κ σ) : Prop :=
  n.level < s.maxLevel → 0 < s.place.sizeAt n.level ∧ n.level ∉ n.completed

variable {s : Setup κ σ} {n : Node κ σ} {level : Nat} {m : Multisig σ}

theorem sendTo_eq {payload : List UInt8} (h : m.encode s.scheme = .ok payload)
    (receivers : List (Member κ)) :
    n.sendTo s level m receivers =
      n.record (.send receivers ⟨s.id, UInt8.ofNat level, payload⟩) := by
  simp only [sendTo, h]

theorem sendTo_spec (hpos : 0 < level) (hle : level ≤ s.maxLevel)
    (hm : n.holdings.combined s.scheme s.place (level - 1) = .ok (some m))
    {receivers : List (Member κ)} (hpeers : ∀ r ∈ receivers, s.place.Peer s.roster level r) :
    ∃ sends, n.sendTo s level m receivers = { n with journal := sends ++ n.journal } ∧
      ∀ a ∈ sends, s.Informs n.holdings a := by
  cases hpayload : m.encode s.scheme with
  | error fault => exact ⟨[], by simp only [sendTo, hpayload, List.nil_append], nofun⟩
  | ok payload =>
      refine ⟨[.send receivers ⟨s.id, UInt8.ofNat level, payload⟩],
        sendTo_eq hpayload receivers, fun a ha => ?_⟩
      rw [List.mem_singleton] at ha
      subst ha
      exact ⟨level, m, hpos, hle, hm, hpayload, rfl, rfl, hpeers⟩

theorem aggregateBelow_eq (hpos : 0 < level) :
    n.aggregateBelow s level = n.holdings.combined s.scheme s.place (level - 1) := by
  simp only [aggregateBelow, Word.sub, if_pos (Nat.succ_le_of_lt hpos)]
  rfl

section
variable (sound : s.Sound) (tidy : n.holdings.Tidy s.place)
include sound tidy

theorem approach_spec (hcontacts : n.contacts.Sound s.place s.settings.candidates)
    (hpos : 0 < level) (hle : level ≤ s.maxLevel) :
    ∃ contacts sends, n.approach s level =
        .ok { n with contacts := contacts, journal := sends ++ n.journal } ∧
      Contacts.Sound s.place s.settings.candidates contacts ∧
      ∀ a ∈ sends, s.Informs n.holdings a := by
  obtain ⟨receivers?, contacts, hcontact, hsound, hpeers⟩ :=
    Place.contact_eq sound.dense sound.size_eq s.order sound.candidates_lt hcontacts hle
  unfold approach
  simp only [hcontact, bind, Except.bind]
  cases receivers? with
  | none => exact ⟨contacts, [], rfl, hsound, nofun⟩
  | some receivers =>
      obtain ⟨w, m, -, hm, -⟩ :=
        Holdings.combined_eq tidy s.scheme sound.size_le_limit hpos (Nat.le_succ_of_le hle)
      obtain ⟨sends, hsends, hinforms⟩ := sendTo_spec (n := { n with contacts := contacts })
        hpos hle hm (hpeers receivers rfl)
      refine ⟨contacts, sends, ?_, hsound, hinforms⟩
      simp only [aggregateBelow_eq hpos, hm]
      exact congrArg Except.ok hsends

omit sound tidy in
theorem Standing.pass_over (standing : Standing s n) (hle : n.level + 1 ≤ s.maxLevel)
    (hempty : s.place.sizeAt (n.level + 1) = 0) :
    Standing s { n with level := n.level + 1 } := by
  refine ⟨hle, fun level => ?_, standing.contacts, standing.renewals⟩
  rw [standing.mem_started]
  have : level = n.level + 1 → ¬ 0 < s.place.sizeAt level := by
    rintro rfl
    omega
  dsimp only
  omega

/-- The next level is entered. -/
theorem enter_spec (standing : Standing s n) (hle : n.level + 1 ≤ s.maxLevel)
    (hsize : 0 < s.place.sizeAt (n.level + 1)) :
    ∃ next, approach s { n with
        level := n.level + 1
        started := AscendingList.insert (n.level + 1) n.started } (n.level + 1) = .ok next ∧
      Spoken s n next ∧ Standing s next ∧ next.completed = n.completed ∧
      next.renewals = n.renewals ∧ next.level = n.level + 1 := by
  obtain ⟨contacts, sends, happroach, hcontacts, hinforms⟩ := approach_spec
    (n := { n with
      level := n.level + 1, started := AscendingList.insert (n.level + 1) n.started })
    sound tidy standing.contacts (Nat.succ_pos n.level) hle
  refine ⟨_, happroach, Spoken.moved s n _ _ contacts sends hinforms,
    ⟨hle, fun level => ?_, hcontacts, standing.renewals⟩, rfl, rfl, rfl⟩
  rw [AscendingList.mem_insert, standing.mem_started]
  have : level = n.level + 1 → 0 < s.place.sizeAt level := by
    rintro rfl
    exact hsize
  dsimp only
  omega

/-- Climbing enters every level on its way that has members, and ends on one
that is not complete unless it is the last. -/
theorem climb_spec {steps : Nat} (entered : Bool) (standing : Standing s n)
    (hsteps : n.level + steps = s.maxLevel) :
    ∃ entered' n', climb s steps entered n = .ok (entered', n') ∧ Spoken s n n' ∧
      Standing s n' ∧ n'.completed = n.completed ∧ n'.renewals = n.renewals ∧
      n.level + min steps 1 ≤ n'.level ∧ Parked s n' := by
  induction steps generalizing n entered with
  | zero =>
      refine ⟨entered, n, rfl, .refl s n, standing, rfl, rfl, ?_, fun hlt => ?_⟩ <;> omega
  | succ steps ih =>
      have hle : n.level + 1 ≤ s.maxLevel := by omega
      rw [climb]
      by_cases hempty : s.place.sizeAt (n.level + 1) = 0
      · obtain ⟨entered', n', hclimb, spoken, hstand, hcompleted, hrenewals, hlevel, hparked⟩ :=
          ih (n := { n with level := n.level + 1 }) tidy entered (standing.pass_over hle hempty)
            (by dsimp only; omega)
        refine ⟨entered', n', ?_, (Spoken.moved s n _ _ _ [] nofun).trans spoken, hstand,
          hcompleted, hrenewals, ?_, hparked⟩
        · rw [if_pos hempty]
          exact hclimb
        · dsimp only at hlevel
          omega
      · obtain ⟨next, happroach, hspoken, hstanding, hcompleted, hrenewals, hlevel⟩ :=
          enter_spec sound tidy standing hle (Nat.pos_of_ne_zero hempty)
        rw [if_neg hempty]
        simp only [happroach, bind, Except.bind]
        by_cases hmem : next.completed.contains (n.level + 1) = true
        · rw [if_pos hmem]
          obtain ⟨entered', n', hclimb, spoken, hstand, hcompleted', hrenewals', hlevel',
              hparked⟩ :=
            ih (n := next) (hspoken.holdings_eq ▸ tidy) true hstanding (by omega)
          refine ⟨entered', n', hclimb, hspoken.trans spoken, hstand, hcompleted'.trans hcompleted,
            hrenewals'.trans hrenewals, by omega, hparked⟩
        · rw [if_neg hmem]
          refine ⟨true, next, rfl, hspoken, hstanding, hcompleted, hrenewals, by omega, fun _ => ?_⟩
          rw [hlevel]
          refine ⟨Nat.pos_of_ne_zero hempty, ?_⟩
          simpa using hmem

theorem advance_spec (standing : Standing s n) :
    ∃ entered n', n.advance s = .ok (entered, n') ∧ Spoken s n n' ∧ Standing s n' ∧
      n'.completed = n.completed ∧ n'.renewals = n.renewals ∧ n.level ≤ n'.level ∧
      (n.phase ≠ .stopped → n.level < s.maxLevel → n.level < n'.level) ∧
      (n.phase ≠ .stopped → Parked s n') := by
  unfold advance
  by_cases hstopped : n.phase = .stopped
  · refine ⟨false, n, if_pos hstopped, .refl s n, standing, rfl, rfl, Nat.le_refl _, ?_, ?_⟩
    · exact fun h => absurd hstopped h
    · exact fun h => absurd hstopped h
  · have hsteps : n.level + (s.maxLevel - n.level) = s.maxLevel :=
      Nat.add_sub_cancel' standing.level_le
    obtain ⟨entered, n', hclimb, spoken, hstand, hcompleted, hrenewals, hlevel, hparked⟩ :=
      climb_spec sound tidy false standing hsteps
    refine ⟨entered, n', ?_, spoken, hstand, hcompleted, hrenewals, by omega, ?_, fun _ => hparked⟩
    · rw [if_neg hstopped]
      exact hclimb
    · omega

theorem approachAll_spec {levels : List Nat}
    (hcontacts : n.contacts.Sound s.place s.settings.candidates)
    (hlevels : ∀ level ∈ levels, 0 < level ∧ level ≤ s.maxLevel) :
    ∃ contacts sends, approachAll s levels n =
        .ok { n with contacts := contacts, journal := sends ++ n.journal } ∧
      Contacts.Sound s.place s.settings.candidates contacts ∧
      ∀ a ∈ sends, s.Informs n.holdings a := by
  induction levels generalizing n with
  | nil => exact ⟨n.contacts, [], rfl, hcontacts, nofun⟩
  | cons level levels ih =>
      obtain ⟨hpos, hle⟩ := hlevels level List.mem_cons_self
      obtain ⟨contacts, sends, happroach, hsound, hinforms⟩ :=
        approach_spec sound tidy hcontacts hpos hle
      obtain ⟨contacts', sends', happroach', hsound', hinforms'⟩ :=
        ih (n := { n with contacts := contacts, journal := sends ++ n.journal }) tidy hsound
          fun l hl => hlevels l (List.mem_cons_of_mem _ hl)
      refine ⟨contacts', sends' ++ sends, ?_, hsound', fun a ha => ?_⟩
      · rw [approachAll, happroach]
        simp only [bind, Except.bind, happroach', List.append_assoc]
      · rcases List.mem_append.1 ha with ha | ha
        · exact hinforms' a ha
        · exact hinforms a ha

/-- A complete level is marked as such, and the levels above are told. -/
theorem mark_spec (standing : Standing s n) (level : Nat) :
    ∃ told, approachAll s (n.started.filter (level < ·))
        { n with completed := AscendingList.insert level n.completed } = .ok told ∧
      Spoken s n told ∧ Standing s told ∧ told.renewals = n.renewals ∧ told.level = n.level ∧
      ∀ l, l ∈ told.completed ↔ l = level ∨ l ∈ n.completed := by
  have habove : ∀ l ∈ n.started.filter (level < ·), 0 < l ∧ l ≤ s.maxLevel := by
    intro l hl
    obtain ⟨hpos, hle, -⟩ := (standing.mem_started l).1 (List.mem_filter.1 hl).1
    exact ⟨hpos, Nat.le_trans hle standing.level_le⟩
  obtain ⟨contacts, sends, happroach, hcontacts, hinforms⟩ := approachAll_spec
    (n := { n with completed := AscendingList.insert level n.completed })
    sound tidy standing.contacts habove
  exact ⟨_, happroach, ⟨rfl, rfl, rfl, rfl, rfl, rfl, sends, rfl, hinforms⟩,
    ⟨standing.level_le, standing.mem_started, hcontacts, standing.renewals⟩, rfl, rfl,
    fun _ => AscendingList.mem_insert⟩

/-- A complete level is marked as such, and a node that stood there moves on. -/
theorem checkCompleted_spec (standing : Standing s n) {held : Multisig σ}
    (hheld : n.holdings.best? level = some held) :
    ∃ n', n.checkCompleted s level = .ok n' ∧ Spoken s n n' ∧ Standing s n' ∧
      n'.renewals = n.renewals ∧ n.level ≤ n'.level ∧
      (∀ l, l ∈ n'.completed ↔
        l ∈ n.completed ∨ l = level ∧ s.place.sizeAt level ≤ held.card) ∧
      (n.phase ≠ .stopped → Parked s n → Parked s n') := by
  unfold checkCompleted
  by_cases hmem : level ∈ n.completed
  · refine ⟨n, if_pos (by simpa using hmem), .refl s n, standing, rfl, Nat.le_refl _, ?_,
      fun _ h => h⟩
    intro l
    refine ⟨.inl, ?_⟩
    rintro (h | ⟨rfl, -⟩)
    · exact h
    · exact hmem
  · rw [if_neg (by simpa using hmem)]
    simp only [hheld]
    by_cases hfull : held.card < s.place.sizeAt level
    · refine ⟨n, if_pos hfull, .refl s n, standing, rfl, Nat.le_refl _, ?_, fun _ h => h⟩
      intro l
      refine ⟨.inl, ?_⟩
      rintro (h | ⟨-, h⟩)
      · exact h
      · exact absurd hfull (Nat.not_lt.2 h)
    · obtain ⟨told, happroach, hspoken, hstanding, hrenewals, hlevel, hmarked⟩ :=
        mark_spec sound tidy standing level
      have hcompleted : ∀ l, l ∈ told.completed ↔
          l ∈ n.completed ∨ l = level ∧ s.place.sizeAt level ≤ held.card := by
        intro l
        rw [hmarked]
        have := Nat.not_lt.1 hfull
        tauto
      rw [if_neg hfull]
      simp only [happroach, bind, Except.bind]
      by_cases hhere : level = n.level
      · obtain ⟨entered, n', hadvance, spoken, hstand, hcompleted', hrenewals', hlevel', -,
          hparked⟩ := advance_spec sound (hspoken.holdings_eq ▸ tidy) hstanding
        refine ⟨n', ?_, hspoken.trans spoken, hstand, hrenewals'.trans hrenewals, hlevel ▸ hlevel',
          fun l => by rw [hcompleted', hcompleted], fun hphase _ => ?_⟩
        · rw [if_pos (hlevel.symm ▸ hhere), hadvance]
          rfl
        · exact hparked (hspoken.phase_eq ▸ hphase)
      · refine ⟨told, ?_, hspoken, hstanding, hrenewals, Nat.le_of_eq hlevel.symm, hcompleted,
          fun _ hparked hlt => ?_⟩
        · rw [if_neg (hlevel.symm ▸ hhere)]
          rfl
        · rw [hlevel] at hlt ⊢
          obtain ⟨hpos, hnot⟩ := hparked hlt
          refine ⟨hpos, fun hmem => ?_⟩
          rcases (hcompleted _).1 hmem with hmem | ⟨heq, -⟩
          · exact hnot hmem
          · exact hhere heq.symm

end

end Node

end MultisigTree
