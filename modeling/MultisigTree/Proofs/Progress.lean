import MultisigTree.Proofs.Coverage
import MultisigTree.Proofs.Lives

/-!
# How far a node has come

Levels complete in any order, before or after a node enters them, and some have
no members at all. Whatever happens, the level a node has reached, the levels
it has entered and the levels it takes for complete stay in step with what it
holds (`Node.levels_in_step`).
-/
namespace MultisigTree.Node

variable {κ σ : Type} {s : Setup κ σ} {n : Node κ σ}

theorem Fit.length_eq (fit : Fit s n) {level : Nat} {m : Multisig σ}
    (hbest : n.holdings.best? level = some m) : m.length = s.place.sizeAt level := by
  obtain ⟨-, w, hw, hlen⟩ := fit.tidy.suits level m hbest
  rw [s.place.sizeAt_eq hw, hlen]

theorem Fit.mem_completed_iff (fit : Fit s n) {level : Nat} :
    level ∈ n.completed ↔ level = 0 ∨ (1 ≤ level ∧ level ≤ s.maxLevel) ∧
      0 < s.place.sizeAt level ∧
      ∃ m, n.holdings.best? level = some m ∧ m.card = s.place.sizeAt level := by
  rw [fit.mem_completed]
  constructor
  · rintro (hzero | ⟨hpos, hcount⟩)
    · exact .inl hzero
    · rcases Nat.eq_zero_or_pos level with hzero | habove
      · exact .inl hzero
      · right
        cases hbest : n.holdings.best? level with
        | none =>
            rw [Holdings.count, hbest] at hcount
            exact absurd hcount (Nat.ne_of_lt hpos)
        | some m =>
            rw [Holdings.count_eq hbest] at hcount
            exact ⟨⟨habove, fit.tidy.level_le hbest⟩, hpos, m, rfl, hcount⟩
  · rintro (hzero | ⟨-, hpos, m, hbest, hcard⟩)
    · exact .inl hzero
    · exact .inr ⟨hpos, (Holdings.count_eq hbest).trans hcard⟩

theorem Fit.level_parked (fit : Fit s n) (hpos : 1 ≤ n.level) :
    0 < s.place.sizeAt n.level ∧ (n.level ∈ n.completed → n.level = s.maxLevel) := by
  have hparked : Parked s n := fit.parked.resolve_right fun h => by omega
  rcases Nat.lt_or_eq_of_le fit.level_le with hlt | heq
  · obtain ⟨hmembers, hnot⟩ := hparked hlt
    exact ⟨hmembers, fun hmem => absurd hmem hnot⟩
  · have hpair : 2 ≤ s.place.size := by
      by_contra hsingle
      have hsize : s.place.size ≤ 2 ^ 0 := by omega
      have := s.place.maxLevel_le_of_size_le hsize
      unfold Setup.maxLevel at heq
      omega
    exact ⟨heq ▸ Place.sizeAt_maxLevel_pos hpair, fun _ => heq⟩

/-- Over a dense roster and with valid settings, every run of a node ends with
its levels in step with what it holds. The level reached is one there is, and
the levels entered are those up to it that have members. The complete levels are
level 0 and those with members for which what is held has all contributions, and
whatever is held for a level has one position for each member of it. Once the
node has entered a level, it stands on one with members, which is not complete
unless it is the last. -/
theorem levels_in_step {roster : Roster κ} (hdense : roster.Dense) {settings : Settings}
    (hvalid : settings.validate = .ok ()) (hword : settings.candidates < Word.limit) {id : Int32}
    (hid : 0 ≤ id.toInt ∧ id.toInt.toNat < roster.size) (scheme : Scheme κ σ)
    (message : List UInt8) (order : ContactOrder) (evaluator : Evaluator σ)
    (exclusion : Exclusion) (pace : Pace) (own : σ) (events : List Event) :
    ∃ s n, Setup.create scheme roster id message settings order evaluator exclusion pace = .ok s ∧
      run s events (create s own) = .ok n ∧ n.level ≤ s.maxLevel ∧
      (∀ level, level ∈ n.started ↔
        (1 ≤ level ∧ level ≤ n.level) ∧ 0 < s.place.sizeAt level) ∧
      (∀ level, level ∈ n.completed ↔ level = 0 ∨ (1 ≤ level ∧ level ≤ s.maxLevel) ∧
        0 < s.place.sizeAt level ∧
        ∃ m, n.holdings.best? level = some m ∧ m.card = s.place.sizeAt level) ∧
      (∀ level m, n.holdings.best? level = some m → m.length = s.place.sizeAt level) ∧
      (1 ≤ n.level →
        0 < s.place.sizeAt n.level ∧ (n.level ∈ n.completed → n.level = s.maxLevel)) := by
  obtain ⟨s, hs⟩ := Setup.exists_create hdense hvalid hid scheme message order evaluator exclusion
    pace
  obtain ⟨n, hrun, fit⟩ := (fit_create s own).run (Setup.sound_of_create hdense hword hs) events
  refine ⟨s, n, hs, hrun, fit.level_le, fun level => ?_, fun level => fit.mem_completed_iff,
    fun level m => fit.length_eq, fit.level_parked⟩
  rw [fit.mem_started, and_assoc]
  rfl

/-- The fifth of six members, for which level 2 is empty, hears from its
neighbour before it is started. -/
theorem levels_in_step_of_six :
    (Plain.roster 6).Dense ∧ ({ quorumPercent := 60 } : Settings).validate = .ok () ∧
      10 < Word.limit ∧ (0 ≤ Int32.toInt 4 ∧ (Int32.toInt 4).toNat < (Plain.roster 6).size) ∧
      ∃ s n, Setup.create Plain.scheme (Plain.roster 6) 4 [7] { quorumPercent := 60 } .ascending
          .byGain .never .idle = .ok s ∧
        run s [.receive ⟨5, 1, [0, 3, 0, 1, 12, 1, 0, 0, 0, 5]⟩, .start, .pass, .takeIn]
          (create s (Plain.sign 4)) = .ok n ∧
        (∀ level, level ∈ n.started ↔
          (1 ≤ level ∧ level ≤ n.level) ∧ 0 < s.place.sizeAt level) ∧
        (1 ≤ n.level →
          0 < s.place.sizeAt n.level ∧ (n.level ∈ n.completed → n.level = s.maxLevel)) := by
  have hid : 0 ≤ Int32.toInt 4 ∧ (Int32.toInt 4).toNat < (Plain.roster 6).size := by
    rw [show (Plain.roster 6).size = 6 from Plain.size_roster 6]
    decide
  have hvalid : ({ quorumPercent := 60 } : Settings).validate = .ok () := by decide
  refine ⟨Plain.dense_roster 6, hvalid, by decide, hid, ?_⟩
  obtain ⟨s, n, hs, hrun, -, hstarted, -, -, hparked⟩ := levels_in_step (Plain.dense_roster 6)
    hvalid (by decide) hid Plain.scheme [7] .ascending .byGain .never .idle (Plain.sign 4)
    [.receive ⟨5, 1, [0, 3, 0, 1, 12, 1, 0, 0, 0, 5]⟩, .start, .pass, .takeIn]
  exact ⟨s, n, hs, hrun, hstarted, hparked⟩

end MultisigTree.Node
