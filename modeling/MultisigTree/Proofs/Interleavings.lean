import MultisigTree.Proofs.Attendance

/-!
# The order of the levels does not matter

What a node holds for a level depends only on the packets of that level and their
order. All that it has come to depends only on what it holds and where it started
from: the levels complete, the level reached, and so the levels entered, and the
last final. So when packets of different levels are heard in another order, a node
ends up the same (`Node.outcome_of_any_interleaving`), although it may have moved
up one level at a time or past several at once.
-/
namespace MultisigTree

variable {κ σ : Type}

theorem LevelMap.ext_get? {α : Type} {m m' : LevelMap α}
    (h : ∀ level, m.get? level = m'.get? level) : m = m' := by
  have heq : m.entries = m'.entries := by
    refine entries_ext (List.pairwise_map.1 m.ascending) (List.pairwise_map.1 m'.ascending)
      fun e => ?_
    rw [← get?_eq_some_iff, ← get?_eq_some_iff, h]
  cases m
  cases m'
  cases heq
  rfl

namespace Holdings

variable {h h' : Holdings σ} {level : Nat}

theorem ext_best? (heq : ∀ level, h.best? level = h'.best? level) : h = h' := by
  have htable : h.table = h'.table := LevelMap.ext_get? heq
  cases h
  cases h'
  cases htable
  rfl

/-- What a level comes to depends on nothing but what was held for it. -/
theorem best?_add_congr (scheme : Scheme κ σ) (m : Multisig σ)
    (heq : h.best? level = h'.best? level) :
    (h.add scheme level m).2.best? level = (h'.add scheme level m).2.best? level := by
  unfold add gain
  rw [← heq]
  cases gainOver (h.best? level) m with
  | nothing => exact heq
  | replaces => rw [best?_insert, best?_insert, if_pos rfl, if_pos rfl]
  | joins held => rw [best?_insert, best?_insert, if_pos rfl, if_pos rfl]

end Holdings

namespace Setup

variable (s : Setup κ σ) {h h' : Holdings σ} {packet : Packet} {packets packets' : List Packet}
variable {level : Nat}

def hearing (h : Holdings σ) (packet : Packet) : Holdings σ :=
  match s.welcome h packet with
  | some o => (h.add s.scheme o.level.toNat o.multisig).2
  | none => h

theorem level_of_welcome {o : Offer σ} (hwelcome : s.welcome h packet = some o) :
    o.level = packet.level := by
  unfold welcome at hwelcome
  split at hwelcome
  · rename_i o' hread
    split at hwelcome
    · cases hwelcome
      obtain ⟨-, -, -, m, -, -, -, -, rfl⟩ := read_eq_ok_iff.1 hread
      rfl
    · cases hwelcome
  · cases hwelcome

theorem best?_hearing_of_ne (hne : packet.level.toNat ≠ level) :
    (s.hearing h packet).best? level = h.best? level := by
  unfold hearing
  cases hwelcome : s.welcome h packet with
  | none => rfl
  | some o =>
      refine Holdings.best?_add_of_ne ?_
      rw [s.level_of_welcome hwelcome]
      exact hne

theorem best?_hearing_congr (heq : h.best? packet.level.toNat = h'.best? packet.level.toNat) :
    (s.hearing h packet).best? packet.level.toNat =
      (s.hearing h' packet).best? packet.level.toNat := by
  have hwelcome : s.welcome h packet = s.welcome h' packet := by
    unfold welcome
    split
    · rename_i o hread
      obtain ⟨-, -, -, m, -, -, -, -, rfl⟩ := read_eq_ok_iff.1 hread
      unfold Holdings.evaluate Holdings.gain
      dsimp only
      rw [heq]
    · rfl
  unfold hearing
  rw [hwelcome]
  cases hoffer : s.welcome h' packet with
  | none => exact heq
  | some o =>
      have hlevel := s.level_of_welcome hoffer
      rw [← hlevel] at heq ⊢
      exact Holdings.best?_add_congr s.scheme o.multisig heq

/-- Of all packets only those of a level matter for what is held for it. -/
theorem best?_foldl_hearing (heq : h.best? level = h'.best? level) :
    (packets.foldl s.hearing h).best? level =
      ((packets.filter (·.level.toNat = level)).foldl s.hearing h').best? level := by
  induction packets generalizing h h' with
  | nil => exact heq
  | cons packet rest ih =>
      -- a packet of another level is heard on the left only, and leaves this level alone
      by_cases hlevel : packet.level.toNat = level
      · rw [List.filter_cons_of_pos (by simpa using hlevel), List.foldl_cons, List.foldl_cons]
        apply ih
        subst hlevel
        exact s.best?_hearing_congr heq
      · rw [List.filter_cons_of_neg (by simpa using hlevel), List.foldl_cons]
        exact ih ((s.best?_hearing_of_ne hlevel).trans heq)

theorem foldl_hearing_eq
    (hsame : ∀ level : Nat, packets.filter (·.level.toNat = level) =
      packets'.filter (·.level.toNat = level)) (h : Holdings σ) :
    packets.foldl s.hearing h = packets'.foldl s.hearing h := by
  refine Holdings.ext_best? fun level => ?_
  have hleft : (packets.foldl s.hearing h).best? level =
      ((packets.filter (·.level.toNat = level)).foldl s.hearing h).best? level :=
    s.best?_foldl_hearing rfl
  have hright : (packets'.foldl s.hearing h).best? level =
      ((packets'.filter (·.level.toNat = level)).foldl s.hearing h).best? level :=
    s.best?_foldl_hearing rfl
  rw [hleft, hright, hsame level]

end Setup

namespace Node

variable {s : Setup κ σ} {n n' n'' m m' : Node κ σ} {level : Nat}

/-- A node has moved up only past levels that are complete. -/
structure Climbed (s : Setup κ σ) (n n' : Node κ σ) : Prop where
  level_le : n.level ≤ n'.level
  completed : ∀ level ∈ n.completed, level ∈ n'.completed
  passed : ∀ level, n.level ≤ level → level < n'.level → 0 < s.place.sizeAt level →
    level ∈ n'.completed

namespace Climbed

theorem refl (s : Setup κ σ) (n : Node κ σ) : Climbed s n n :=
  ⟨Nat.le_refl _, fun _ h => h, fun level hle hlt => by omega⟩

theorem same (hlevel : n'.level = n.level)
    (hcompleted : ∀ level ∈ n.completed, level ∈ n'.completed) : Climbed s n n' :=
  ⟨Nat.le_of_eq hlevel.symm, hcompleted, fun level hle hlt => by omega⟩

theorem trans (h : Climbed s n n') (h' : Climbed s n' n'') : Climbed s n n'' where
  level_le := Nat.le_trans h.level_le h'.level_le
  completed level hmem := h'.completed level (h.completed level hmem)
  passed level hle hlt hsize := by
    by_cases hbelow : level < n'.level
    · exact h'.completed level (h.passed level hle hbelow hsize)
    · exact h'.passed level (Nat.not_lt.1 hbelow) hlt hsize

end Climbed

theorem approach_keeps (h : n.approach s level = .ok n') :
    n'.level = n.level ∧ n'.completed = n.completed := by
  obtain ⟨⟨receivers?, contacts⟩, -, h⟩ := Except.bind_eq_ok_iff.1 h
  cases receivers? with
  | none =>
      cases h
      exact ⟨rfl, rfl⟩
  | some receivers =>
      obtain ⟨m?, -, h⟩ := Except.bind_eq_ok_iff.1 h
      cases m? with
      | none =>
          cases h
          exact ⟨rfl, rfl⟩
      | some m =>
          cases h
          unfold sendTo
          split
          · exact ⟨rfl, rfl⟩
          · exact ⟨rfl, rfl⟩

theorem approachAll_keeps {levels : List Nat} (h : approachAll s levels n = .ok n') :
    n'.level = n.level ∧ n'.completed = n.completed := by
  induction levels generalizing n with
  | nil =>
      cases h
      exact ⟨rfl, rfl⟩
  | cons level levels ih =>
      obtain ⟨n₁, happroach, hrest⟩ := Except.bind_eq_ok_iff.1 h
      obtain ⟨hlevel, hcompleted⟩ := approach_keeps happroach
      obtain ⟨hlevel', hcompleted'⟩ := ih hrest
      exact ⟨hlevel'.trans hlevel, hcompleted'.trans hcompleted⟩

/-- Climbing from a complete level passes only complete ones. -/
theorem climbed_of_climb {steps : Nat} {entered entered' : Bool}
    (h : climb s steps entered n = .ok (entered', n'))
    (hhere : 0 < s.place.sizeAt n.level → n.level ∈ n.completed) : Climbed s n n' := by
  induction steps generalizing n entered with
  | zero =>
      cases h
      exact .refl s _
  | succ steps ih =>
      rw [climb] at h
      have hnext : Climbed s n { n with level := n.level + 1 } := by
        refine ⟨Nat.le_succ _, fun _ h => h, fun level hle hlt hsize => ?_⟩
        obtain rfl : level = n.level := by
          dsimp only at hlt
          omega
        exact hhere hsize
      by_cases hempty : s.place.sizeAt (n.level + 1) = 0
      · rw [if_pos hempty] at h
        exact hnext.trans (ih h fun hsize => absurd hempty (Nat.ne_of_gt hsize))
      · rw [if_neg hempty] at h
        obtain ⟨n₁, happroach, h⟩ := Except.bind_eq_ok_iff.1 h
        obtain ⟨hlevel, hcompleted⟩ := approach_keeps happroach
        have hfirst : Climbed s n n₁ := hnext.trans (.same hlevel fun l hl => by rwa [hcompleted])
        by_cases hmem : n₁.completed.contains (n.level + 1) = true
        · rw [if_pos hmem] at h
          exact hfirst.trans (ih h fun _ => by rw [hlevel]; simpa using hmem)
        · rw [if_neg hmem] at h
          cases h
          exact hfirst

theorem climbed_of_advance {entered : Bool} (h : n.advance s = .ok (entered, n'))
    (hhere : 0 < s.place.sizeAt n.level → n.level ∈ n.completed) : Climbed s n n' := by
  unfold advance at h
  split at h
  · cases h
    exact .refl s n
  · exact climbed_of_climb h hhere

theorem climbed_of_checkCompleted (h : n.checkCompleted s level = .ok n') : Climbed s n n' := by
  unfold checkCompleted at h
  split at h
  · cases h
    exact .refl s n
  split at h
  · cases h
  split at h
  · cases h
    exact .refl s n
  obtain ⟨n₁, hall, h⟩ := Except.bind_eq_ok_iff.1 h
  obtain ⟨hlevel, hcompleted⟩ := approachAll_keeps hall
  have hmem : ∀ l, l ∈ n₁.completed ↔ l = level ∨ l ∈ n.completed := fun l => by
    rw [hcompleted]
    exact AscendingList.mem_insert
  have hfirst : Climbed s n n₁ := .same hlevel fun l hl => (hmem l).2 (.inr hl)
  split at h
  · rename_i hhere
    -- the level that has just been completed is the one to climb from
    obtain ⟨⟨entered, n₂⟩, hadvance, h⟩ := Except.bind_eq_ok_iff.1 h
    cases h
    exact hfirst.trans (climbed_of_advance hadvance fun _ => (hmem _).2 (.inl hhere.symm))
  · cases h
    exact hfirst

theorem checkFinal_keeps (h : n.checkFinal s = .ok n') :
    n'.level = n.level ∧ n'.completed = n.completed := by
  unfold checkFinal at h
  split at h
  · cases h
    exact ⟨rfl, rfl⟩
  obtain ⟨m?, -, h⟩ := Except.bind_eq_ok_iff.1 h
  cases m? with
  | none =>
      cases h
      exact ⟨rfl, rfl⟩
  | some m =>
      dsimp only at h
      split at h
      · cases h
        exact ⟨rfl, rfl⟩
      split at h
      · cases h
        exact ⟨rfl, rfl⟩
      · cases h
        exact ⟨rfl, rfl⟩

theorem climbed_of_takeIn (h : n.takeIn s = .ok n') : Climbed s n n' := by
  unfold takeIn at h
  split at h
  · cases h
    exact .refl s _
  rename_i o rest hgenuine
  dsimp only at h
  split at h
  · cases h
    exact .same rfl fun _ hmem => hmem
  obtain ⟨n₁, hcheck, hfinal⟩ := Except.bind_eq_ok_iff.1 h
  obtain ⟨hlevel, hcompleted⟩ := checkFinal_keeps hfinal
  have htaken : Climbed s n (n.taking s o rest) := .same rfl fun _ hmem => hmem
  have hlast : Climbed s n₁ n' := .same hlevel fun l hl => by rwa [hcompleted]
  exact (htaken.trans (climbed_of_checkCompleted hcheck)).trans hlast

/-- What a packet that is heard does to what is held and to the level. -/
theorem Weighed.hearing {packet : Packet} (h : Weighed s n (s.welcome n.holdings packet) n')
    (sound : s.Sound) : n'.holdings = s.hearing n.holdings packet ∧ Climbed s n n' := by
  unfold Setup.hearing
  cases hwelcome : s.welcome n.holdings packet with
  | none =>
      rw [hwelcome] at h
      cases h with
      | dropped b reports => exact ⟨rfl, .same rfl fun _ hmem => hmem⟩
  | some o =>
      rw [hwelcome] at h
      cases h with
      | taken _ b fit htake =>
          have hholdings : n'.holdings = (n.holdings.add s.scheme o.level.toNat o.multisig).2 := by
            cases fit.stepped_of_step sound (e := .takeIn) htake with
            | untaken hgenuine => cases hgenuine
            | taken hgenuine hcheck moved hm =>
                cases hgenuine
                rw [holdings_concluding, moved.holdings_eq]
                rfl
          have hbusy : Climbed s n { n with backlog := b, genuine := [o] } :=
            .same rfl fun _ hmem => hmem
          exact ⟨hholdings, hbusy.trans (climbed_of_takeIn htake)⟩

/-- Working off what waits is a run of passes and of offers taken in. -/
theorem exists_run_of_passes {count : Nat} (h : passes s count n = .ok n') :
    ∃ events, run s events n = .ok n' := by
  induction count generalizing n with
  | zero => exact ⟨[], h⟩
  | succ count ih =>
      rw [passes] at h
      split at h
      · exact ⟨[], h⟩
      obtain ⟨n₁, hpass, h⟩ := Except.bind_eq_ok_iff.1 h
      obtain ⟨n₂, htake, h⟩ := Except.bind_eq_ok_iff.1 h
      obtain ⟨events, hrun⟩ := ih h
      refine ⟨.pass :: .takeIn :: events, ?_⟩
      rw [run_cons (e := .pass) hpass, run_cons (e := .takeIn) htake]
      exact hrun

theorem exists_run_of_attend {e : Event} (h : n.attend s e = .ok n') :
    ∃ events, run s events n = .ok n' := by
  obtain ⟨n₁, hstep, hsettle⟩ := Except.bind_eq_ok_iff.1 h
  obtain ⟨events, hrun⟩ := exists_run_of_passes hsettle
  exact ⟨e :: events, (run_cons hstep).trans hrun⟩

def attendAll (s : Setup κ σ) : List Event → Node κ σ → Except Crash (Node κ σ)
  | [], n => .ok n
  | e :: rest, n => do attendAll s rest (← n.attend s e)

theorem attendAll_cons {e : Event} {rest : List Event} (h : n.attend s e = .ok n') :
    attendAll s (e :: rest) n = attendAll s rest n' := by
  rw [attendAll, h]
  rfl

/-- Where a running node at rest gets by hearing packets. -/
theorem Resting.hear_all (resting : Resting s n) (sound : s.Sound) (careful : s.evaluator.Careful)
    (hnever : s.exclusion = .never) (hrunning : n.phase = .running) (packets : List Packet) :
    ∃ n', attendAll s (packets.map .receive) n = .ok n' ∧ Resting s n' ∧ n'.phase = .running ∧
      Climbed s n n' ∧ n'.holdings = packets.foldl s.hearing n.holdings ∧
      ∃ events, run s events n = .ok n' := by
  induction packets generalizing n with
  | nil => exact ⟨n, rfl, resting, hrunning, .refl s n, rfl, [], rfl⟩
  | cons packet rest ih =>
      obtain ⟨n₁, hattend, resting₁, hrunning₁, hweighed⟩ :=
        resting.hear sound careful hnever hrunning packet
      obtain ⟨hholdings, hclimbed⟩ := hweighed.hearing sound
      obtain ⟨events, hrun⟩ := exists_run_of_attend hattend
      obtain ⟨n', hall, resting', hrunning', hclimbed', hholdings', later, hlater⟩ :=
        ih resting₁ hrunning₁
      refine ⟨n', (attendAll_cons hattend).trans hall, resting', hrunning',
        hclimbed.trans hclimbed', ?_, events ++ later, ?_⟩
      · rw [hholdings', hholdings]
        rfl
      · rw [run_append, hrun]
        exact hlater

/-- A stopped node hears nothing. -/
theorem Resting.hear_none (resting : Resting s n) (hstopped : n.phase = .stopped)
    (packets : List Packet) : attendAll s (packets.map .receive) n = .ok n := by
  induction packets with
  | nil => rfl
  | cons packet rest ih =>
      have hstep : n.step s (.receive packet) = .ok n := by
        rw [Node.step, Node.receive, if_pos (.inl hstopped)]
      exact (attendAll_cons (resting.attend_of_step hstep)).trans ih

/-- Of two nodes that have climbed from one level, with the same levels complete,
none is higher up. -/
theorem Climbed.level_le_of_parked (hm : Climbed s n m) (hm' : Climbed s n m')
    (hcompleted : ∀ level, level ∈ m.completed ↔ level ∈ m'.completed) (parked : Parked s m)
    (hmax : m'.level ≤ s.maxLevel) : m'.level ≤ m.level := by
  by_contra hlt
  rw [Nat.not_le] at hlt
  obtain ⟨hsize, hnot⟩ := parked (Nat.lt_of_lt_of_le hlt hmax)
  exact hnot ((hcompleted _).2 (hm'.passed m.level hm.level_le hlt hsize))

/-- The last final of a running node is all it holds, if that is enough. -/
theorem head_published {own : σ} {events : List Event} (sound : s.Sound)
    (h : run s events (create s own) = .ok n) (hrunning : n.phase = .running) :
    ∃ m, n.holdings.whole s.scheme s.place = .ok (some m) ∧
      n.published.head? = if s.threshold ≤ m.card then some m else none := by
  classical
  obtain ⟨nodes, n', values, -, hrun, history, hpublished⟩ :=
    (upToDate_create s own).history_waiting (fit_create s own) sound rfl rfl events
  obtain rfl : n' = n := Except.ok.inj (hrun.symm.trans h)
  obtain ⟨m, hm, henough, hfew⟩ := history.finals_current hrunning
  replace hpublished : n'.published = finals s values := hpublished.trans (List.append_nil _)
  refine ⟨m, hm, ?_⟩
  rw [hpublished]
  split
  · exact henough ‹_›
  · rw [hfew (Nat.lt_of_not_le ‹_›)]
    rfl

/-- A started node at rest that nobody is excluded from, whether it verifies only
the offers that add something to what it holds or all it gets, hears packets in one
order or in another that is the same for each level. It comes to hold the same for
every level, has the same levels complete and entered, is on the same level, and
has published the same last. -/
theorem outcome_of_any_interleaving {scheme : Scheme κ σ} {roster : Roster κ}
    (hdense : roster.Dense) {id : Int32} {message : List UInt8} {settings : Settings}
    (hword : settings.candidates < Word.limit) {order : ContactOrder} {evaluator : Evaluator σ}
    (hevaluator : evaluator = .byGain ∨ evaluator = .acceptAll) {pace : Pace}
    (hs : Setup.create scheme roster id message settings order evaluator .never pace = .ok s)
    {own : σ} {events : List Event} (hrun : run s events (create s own) = .ok n)
    (hstarted : n.phase ≠ .waiting) (hrest : n.isAtRest = true) {packets packets' : List Packet}
    (hsame : ∀ level : Nat, packets.filter (·.level.toNat = level) =
      packets'.filter (·.level.toNat = level)) :
    ∃ m m', attendAll s (packets.map .receive) n = .ok m ∧
      attendAll s (packets'.map .receive) n = .ok m' ∧
      (∀ level, m.holdings.best? level = m'.holdings.best? level) ∧
      (∀ level, level ∈ m.completed ↔ level ∈ m'.completed) ∧
      (∀ level, level ∈ m.started ↔ level ∈ m'.started) ∧ m.level = m'.level ∧
      m.published.head? = m'.published.head? := by
  have sound := Setup.sound_of_create hdense hword hs
  obtain ⟨-, -, -, -, -, hevaluator', hnever, -⟩ := Setup.eq_of_create hs
  have careful : s.evaluator.Careful := by
    rw [hevaluator']
    rcases hevaluator with rfl | rfl
    · exact Evaluator.careful_byGain
    · exact Evaluator.careful_acceptAll
  have resting := ((orderly_create s own).run sound hrun).resting hrest
  cases hphase : n.phase with
  | waiting => exact absurd hphase hstarted
  | stopped =>
      exact ⟨n, n, resting.hear_none hphase packets, resting.hear_none hphase packets',
        fun _ => rfl, fun _ => .rfl, fun _ => .rfl, rfl, rfl⟩
  | running =>
      obtain ⟨m, hall, restingₘ, hrunning, hclimbed, hheld, later, hlater⟩ :=
        resting.hear_all sound careful hnever hphase packets
      obtain ⟨m', hall', restingₘ', hrunning', hclimbed', hheld', later', hlater'⟩ :=
        resting.hear_all sound careful hnever hphase packets'
      -- all else about a running node at rest follows from what it holds
      have hholdings : m.holdings = m'.holdings := by
        rw [hheld, hheld', s.foldl_hearing_eq hsame]
      have hcompleted : ∀ level, level ∈ m.completed ↔ level ∈ m'.completed := fun level => by
        rw [restingₘ.mem_completed, restingₘ'.mem_completed, hholdings]
      have hparked : ∀ {m : Node κ σ}, Resting s m → m.phase = .running → Parked s m :=
        fun resting hrunning => resting.parked.resolve_right fun h => h.2 hrunning
      have hlevel : m.level = m'.level := Nat.le_antisymm
        (hclimbed'.level_le_of_parked hclimbed (fun level => (hcompleted level).symm)
          (hparked restingₘ' hrunning') restingₘ.level_le)
        (hclimbed.level_le_of_parked hclimbed' hcompleted (hparked restingₘ hrunning)
          restingₘ'.level_le)
      have hreached : run s (events ++ later) (create s own) = .ok m := by
        rw [run_append, hrun]
        exact hlater
      have hreached' : run s (events ++ later') (create s own) = .ok m' := by
        rw [run_append, hrun]
        exact hlater'
      obtain ⟨w, hw, hhead⟩ := head_published sound hreached hrunning
      obtain ⟨w', hw', hhead'⟩ := head_published sound hreached' hrunning'
      obtain rfl : w = w' := by
        rw [hholdings, hw'] at hw
        exact (Option.some.inj (Except.ok.inj hw)).symm
      refine ⟨m, m', hall, hall', fun level => by rw [hholdings], hcompleted, fun level => ?_,
        hlevel, hhead.trans hhead'.symm⟩
      rw [restingₘ.mem_started, restingₘ'.mem_started, hlevel]

/-- The second of four members hears from both levels: from the first member and
then from the third and the fourth, so that it moves up level by level, or from the
first member last, so that it passes both levels at once. -/
theorem outcome_of_any_interleaving_of_four :
    (Plain.roster 4).Dense ∧ 10 < Word.limit ∧
      ∃ s n m m',
        Setup.create Plain.scheme (Plain.roster 4) 1 [7] { quorumPercent := 60 } .ascending .byGain
          .never .ticking = .ok s ∧
        run s [.start] (create s (Plain.sign 1)) = .ok n ∧ n.phase = .running ∧
        n.isAtRest = true ∧
        attendAll s [.receive ⟨0, 1, [0, 3, 0, 1, 12, 1, 0, 0, 0, 0]⟩,
          .receive ⟨2, 2, [0, 3, 0, 2, 12, 1, 0, 0, 0, 2]⟩,
          .receive ⟨3, 2, [0, 3, 0, 2, 24, 1, 0, 0, 0, 3]⟩] n = .ok m ∧
        attendAll s [.receive ⟨2, 2, [0, 3, 0, 2, 12, 1, 0, 0, 0, 2]⟩,
          .receive ⟨3, 2, [0, 3, 0, 2, 24, 1, 0, 0, 0, 3]⟩,
          .receive ⟨0, 1, [0, 3, 0, 1, 12, 1, 0, 0, 0, 0]⟩] n = .ok m' ∧
        (∀ level, m.holdings.best? level = m'.holdings.best? level) ∧
        (∀ level, level ∈ m.completed ↔ level ∈ m'.completed) ∧
        (∀ level, level ∈ m.started ↔ level ∈ m'.started) ∧ m.level = m'.level ∧
        m.published.head? = m'.published.head? := by
  have hsize : (Plain.roster 4).size = 4 := Plain.size_roster 4
  have hid : 0 ≤ Int32.toInt 1 ∧ (Int32.toInt 1).toNat < (Plain.roster 4).size := by
    rw [hsize]
    decide
  have hvalid : ({ quorumPercent := 60 } : Settings).validate = .ok () := by decide
  obtain ⟨s, hs⟩ := Setup.exists_create (Plain.dense_roster 4) hvalid hid Plain.scheme [7]
    .ascending .byGain .never .ticking
  have sound := Setup.sound_of_create (Plain.dense_roster 4) (by decide) hs
  obtain ⟨n, hstep, -⟩ := (fit_create s (Plain.sign 1)).step sound .start
  have hrun : run s [.start] (create s (Plain.sign 1)) = .ok n := run_cons hstep
  have hphase : n.phase = .running := (fit_create s (Plain.sign 1)).phase_step sound hstep
  have hrest := ((resting_create s (Plain.sign 1)).step sound hstep nofun).isAtRest
  have hsame : ∀ level : Nat,
      [⟨0, 1, [0, 3, 0, 1, 12, 1, 0, 0, 0, 0]⟩, ⟨2, 2, [0, 3, 0, 2, 12, 1, 0, 0, 0, 2]⟩,
        (⟨3, 2, [0, 3, 0, 2, 24, 1, 0, 0, 0, 3]⟩ : Packet)].filter (·.level.toNat = level) =
      [⟨2, 2, [0, 3, 0, 2, 12, 1, 0, 0, 0, 2]⟩, ⟨3, 2, [0, 3, 0, 2, 24, 1, 0, 0, 0, 3]⟩,
        ⟨0, 1, [0, 3, 0, 1, 12, 1, 0, 0, 0, 0]⟩].filter (·.level.toNat = level) := by
    intro level
    match level with
    | 0 | 1 | 2 => decide
    | level + 3 => rfl
  obtain ⟨m, m', hall, hall', hbest, hcompleted, hstarted, hlevel, hpublished⟩ :=
    outcome_of_any_interleaving (Plain.dense_roster 4) (by decide) (.inl rfl) hs hrun
      (by rw [hphase]; decide) hrest hsame
  exact ⟨Plain.dense_roster 4, by decide, s, n, m, m', hs, hrun, hphase, hrest, hall, hall', hbest,
    hcompleted, hstarted, hlevel, hpublished⟩

end Node
end MultisigTree
