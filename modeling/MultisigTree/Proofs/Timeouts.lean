import MultisigTree.Proofs.Foresight
import MultisigTree.Proofs.Interleavings

/-!
# The timer gets a node to the top

A ticking timer gives up when it has asked once per level or is told that no level
was entered. Whoever it asks, it asks no more often than there are levels and never
again after a no (`LevelTimer.Watch.Fair`). A node answers no only from the last
level, and each yes takes it up a level at least, so when its timer has given up, all
levels are entered, whatever else moves the node meanwhile. The timer is started
before the node enters its first level and stopped after the node itself, so start
and stop are taken apart here (`Node.Course`).
-/
namespace MultisigTree

namespace LevelTimer

theorem start_of_idle {t : LevelTimer} (h : t.budget = none) :
    t.start = { t with budget := some t.maxLevel } := by
  rw [start, h]

theorem exists_left_of_isArmed {t : LevelTimer} (h : t.isArmed = true) :
    ∃ left, t.budget = some left ∧ 0 < left := by
  cases hbudget : t.budget with
  | none => simp [isArmed, hbudget] at h
  | some left =>
      simp only [isArmed, hbudget, Option.getD_some, Bool.and_eq_true, decide_eq_true_eq] at h
      exact ⟨left, rfl, h.2⟩

/-- What happens to a timer: it is started, stopped, or a period is over, and if it
asks then, it is told the answer. -/
inductive Use where
  | start
  | stop
  | tick (answer : Bool)

/-- A timer with what it has been told since it was started last, the latest first. -/
structure Watch where
  timer : LevelTimer
  told : Option (List Bool)

namespace Watch

def after (w : Watch) : Use → Watch
  | .start => if w.timer.budget = none then ⟨w.timer.start, some []⟩ else w
  | .stop => ⟨w.timer.stop, w.told⟩
  | .tick answer =>
      if w.timer.isArmed then ⟨w.timer.asked answer, w.told.map (answer :: ·)⟩ else w

end Watch

/-- The timer was told no, or has asked once per level. -/
def GivenUp (maxLevel : Nat) (answers : List Bool) : Prop :=
  answers.head? = some false ∨ answers.length = maxLevel

/-- The timer has asked no more often than there are levels, and never again after a
no. -/
def Modest (maxLevel : Nat) (answers : List Bool) : Prop :=
  answers.length ≤ maxLevel ∧ ∀ answer ∈ answers.tail, answer = true

namespace Watch

/-- What the budget of a timer says about its questions. -/
structure Fair (w : Watch) : Prop where
  idle : w.told = none → w.timer.budget = none
  modest : ∀ answers, w.told = some answers → Modest w.timer.maxLevel answers
  left : ∀ answers left, w.told = some answers → w.timer.budget = some left →
    answers.head? = some false ∧ left = 0 ∨
      (∀ answer ∈ answers, answer = true) ∧ answers.length + left = w.timer.maxLevel

variable {w : Watch} {answers : List Bool}

theorem fair_create (pace : Pace) (maxLevel : Nat) : Fair ⟨.create pace maxLevel, none⟩ :=
  ⟨fun _ => rfl, nofun, nofun⟩

theorem Fair.start (hbudget : w.timer.budget = none) : Fair ⟨w.timer.start, some []⟩ := by
  rw [start_of_idle hbudget]
  refine ⟨nofun, fun answers h => ?_, fun answers left h hleft => ?_⟩
  · obtain rfl := Option.some.inj h
    exact ⟨Nat.zero_le _, nofun⟩
  · obtain rfl := Option.some.inj h
    obtain rfl := Option.some.inj hleft
    exact .inr ⟨nofun, Nat.zero_add _⟩

theorem Fair.stop (fair : w.Fair) : Fair ⟨w.timer.stop, w.told⟩ :=
  ⟨fun _ => rfl, fair.modest, nofun⟩

/-- An armed timer has questions left, so it has never been told no. -/
theorem Fair.tick (fair : w.Fair) (harmed : w.timer.isArmed = true) (answer : Bool) :
    Fair ⟨w.timer.asked answer, w.told.map (answer :: ·)⟩ := by
  obtain ⟨left, hleft, hpos⟩ := exists_left_of_isArmed harmed
  have hasked : w.timer.asked answer =
      { w.timer with budget := some (if answer then left - 1 else 0) } := by
    rw [asked, hleft, Option.map_some]
  cases htold : w.told with
  | none =>
      rw [fair.idle htold] at hleft
      cases hleft
  | some answers =>
      obtain ⟨-, hzero⟩ | ⟨hyes, hlength⟩ := fair.left answers left htold hleft
      · exact absurd hzero (Nat.ne_of_gt hpos)
      rw [hasked, Option.map_some]
      refine ⟨nofun, fun answers' h => ?_, fun answers' left' h hleft' => ?_⟩
      · obtain rfl := Option.some.inj h
        exact ⟨by dsimp only [List.length_cons]; omega, hyes⟩
      · obtain rfl := Option.some.inj h
        obtain rfl := Option.some.inj hleft'
        cases answer with
        | false => exact .inl ⟨rfl, rfl⟩
        | true =>
            refine .inr ⟨fun a ha => (List.mem_cons.1 ha).elim id (hyes a), ?_⟩
            dsimp only [List.length_cons]
            rw [if_pos rfl]
            omega

theorem Fair.after (fair : w.Fair) (use : Use) : (w.after use).Fair := by
  cases use with
  | start =>
      by_cases hbudget : w.timer.budget = none
      · rw [Watch.after, if_pos hbudget]
        exact .start hbudget
      · rw [Watch.after, if_neg hbudget]
        exact fair
  | stop => exact fair.stop
  | tick answer =>
      by_cases harmed : w.timer.isArmed = true
      · rw [Watch.after, if_pos harmed]
        exact fair.tick harmed answer
      · rw [Watch.after, if_neg harmed]
        exact fair

theorem maxLevel_after (w : Watch) (use : Use) :
    (w.after use).timer.maxLevel = w.timer.maxLevel := by
  cases use with
  | start =>
      by_cases hbudget : w.timer.budget = none
      · rw [after, if_pos hbudget, start_of_idle hbudget]
      · rw [after, if_neg hbudget]
  | stop => rfl
  | tick answer =>
      rw [after]
      split <;> rfl

theorem fair_of_uses (pace : Pace) (maxLevel : Nat) (uses : List Use) :
    (uses.foldl after ⟨.create pace maxLevel, none⟩).Fair ∧
      (uses.foldl after ⟨.create pace maxLevel, none⟩).timer.maxLevel = maxLevel := by
  suffices ∀ w : Watch, w.Fair → (uses.foldl after w).Fair ∧
      (uses.foldl after w).timer.maxLevel = w.timer.maxLevel from
    this _ (fair_create pace maxLevel)
  induction uses with
  | nil => exact fun w fair => ⟨fair, rfl⟩
  | cons use rest ih =>
      intro w fair
      obtain ⟨hfair, hmax⟩ := ih (w.after use) (fair.after use)
      exact ⟨hfair, hmax.trans (w.maxLevel_after use)⟩

theorem told_of_stopped (periods : List Bool) (hstopped : w.timer.budget = none) :
    ((periods.map Use.tick).foldl after w).told = w.told := by
  induction periods with
  | nil => rfl
  | cons answer rest ih =>
      have hidle : w.after (.tick answer) = w := if_neg (by simp [isArmed, hstopped])
      rw [List.map_cons, List.foldl_cons, hidle, ih]

/-- A started timer goes on until it has given up. -/
theorem Fair.isArmed_eq_false_iff (fair : w.Fair) (hpace : w.timer.pace = .ticking)
    (htold : w.told = some answers) (hstarted : w.timer.budget ≠ none) :
    w.timer.isArmed = false ↔ GivenUp w.timer.maxLevel answers := by
  obtain ⟨left, hleft⟩ := Option.ne_none_iff_exists'.1 hstarted
  have harmed : w.timer.isArmed = false ↔ left = 0 := by
    simp [isArmed, hpace, hleft]
  rw [harmed, GivenUp]
  rcases fair.left answers left htold hleft with ⟨hno, rfl⟩ | ⟨hyes, hlength⟩
  · simp [hno]
  · have hnot : answers.head? ≠ some false := fun hno =>
      Bool.noConfusion (hyes false (List.mem_of_mem_head? hno))
    simp only [hnot, false_or]
    omega

end Watch

end LevelTimer

namespace Node

variable {κ σ : Type}

/-- The first part of the start: offers are verified from now on. -/
def launch (n : Node κ σ) : Node κ σ :=
  { n with phase := .running, backlog := n.backlog.start }

/-- The second part of the start: the timer begins to tick. -/
def arm (n : Node κ σ) : Node κ σ :=
  { n with timer := n.timer.start }

/-- The last part of the start: the first level is entered. -/
def enter (s : Setup κ σ) (n : Node κ σ) : Except Crash (Node κ σ) := do
  let (_, n) ← n.advance s
  n.checkFinal s

/-- The first part of the stop: the node does nothing any more. -/
def halt (n : Node κ σ) : Node κ σ :=
  { n with phase := .stopped, backlog := n.backlog.stop, genuine := [] }

/-- The last part of the stop: the timer does not tick any more. -/
def disarm (n : Node κ σ) : Node κ σ :=
  { n with timer := n.timer.stop }

theorem start_of_waiting (s : Setup κ σ) {n : Node κ σ} (h : n.phase = .waiting) :
    n.start s = n.launch.arm.enter s :=
  if_neg (not_not.2 h)

theorem stop_of_not_stopped {n : Node κ σ} (h : n.phase ≠ .stopped) : n.stop = n.halt.disarm :=
  if_neg h

/-- What is still to do for the start. -/
inductive Ahead where
  | nothing
  | arm
  | enter
  deriving DecidableEq

/-- A part of the start or of the stop, or an event in one piece. -/
inductive Moment where
  | launch
  | arm
  | enter
  | halt
  | disarm
  | event (e : Event)

structure Course (κ σ : Type) where
  node : Node κ σ
  ahead : Ahead
  told : Option (List Bool)

namespace Course

def create (s : Setup κ σ) (own : σ) : Course κ σ :=
  ⟨.create s own, .nothing, none⟩

def watch (c : Course κ σ) : LevelTimer.Watch :=
  ⟨c.node.timer, c.told⟩

def step (s : Setup κ σ) (c : Course κ σ) : Moment → Except Crash (Course κ σ)
  | .launch =>
      .ok (if c.node.phase = .waiting then { c with node := c.node.launch, ahead := .arm } else c)
  | .arm => .ok (if c.ahead = .arm then ⟨c.node.arm, .enter, some []⟩ else c)
  | .enter =>
      if c.ahead = .enter then do return ⟨← c.node.enter s, .nothing, c.told⟩ else .ok c
  | .halt => .ok { c with node := c.node.halt }
  | .disarm => .ok (if c.node.phase = .stopped then { c with node := c.node.disarm } else c)
  | .event .start =>
      if c.node.phase = .waiting then do return ⟨← c.node.start s, .nothing, some []⟩ else .ok c
  | .event .timeout => do
      let (answer, n) ← c.node.timeout s
      return { c with node := n, told := c.told.map (answer.toList ++ ·) }
  | .event e => do return { c with node := ← c.node.step s e }

def follow (s : Setup κ σ) : List Moment → Course κ σ → Except Crash (Course κ σ)
  | [], c => .ok c
  | m :: rest, c => do follow s rest (← c.step s m)

end Course

variable {s : Setup κ σ} {n n' n'' : Node κ σ}

/-- What of the invariant of a node holds in the middle of its start as well, when
it need not stand on a level that is not complete. -/
structure Able (s : Setup κ σ) (n : Node κ σ) : Prop extends Standing s n where
  tidy : n.holdings.Tidy s.place
  waiting : ∀ o ∈ n.backlog.waiting, s.place.Fits o
  genuine : ∀ o ∈ n.genuine, s.place.Fits o
  phase_eq : n.backlog.phase = n.phase

theorem Fit.able (fit : Fit s n) : Able s n :=
  ⟨fit.toStanding, fit.tidy, fit.waiting, fun o ho => (fit.genuine o ho).1, fit.phase_eq⟩

/-- The node has gone on, perhaps up, with its timer and its phase as they were. -/
structure Onto (s : Setup κ σ) (n n' : Node κ σ) : Prop where
  able : Able s n'
  level_le : n.level ≤ n'.level
  phase_eq : n'.phase = n.phase
  timer_eq : n'.timer = n.timer

theorem Onto.trans (h : Onto s n n') (h' : Onto s n' n'') : Onto s n n'' :=
  ⟨h'.able, Nat.le_trans h.level_le h'.level_le, h'.phase_eq.trans h.phase_eq,
    h'.timer_eq.trans h.timer_eq⟩

/-- A climb that enters no level has gone all the way. -/
theorem level_of_climb {steps : Nat} {entered answer : Bool}
    (h : climb s steps entered n = .ok (answer, n')) (hno : answer = false) :
    n'.level = n.level + steps := by
  induction steps generalizing n entered with
  | zero =>
      cases h
      rfl
  | succ steps ih =>
      rw [climb] at h
      by_cases hempty : s.place.sizeAt (n.level + 1) = 0
      · rw [if_pos hempty] at h
        rw [ih h]
        exact Nat.succ_add n.level steps
      · rw [if_neg hempty] at h
        obtain ⟨n₁, happroach, h⟩ := Except.bind_eq_ok_iff.1 h
        split at h
        · rw [ih h, (approach_keeps happroach).1]
          exact Nat.succ_add n.level steps
        · cases h
          cases hno

namespace Able

variable (able : Able s n)
include able

theorem refl : Onto s n n :=
  ⟨able, Nat.le_refl _, rfl, rfl⟩

/-- What a node has shown, and its timer, are no part of it. -/
theorem outward (best : Option (Multisig σ)) (timer : LevelTimer) (journal : List (Action κ σ)) :
    Able s { n with best := best, timer := timer, journal := journal } :=
  ⟨⟨able.level_le, able.mem_started, able.contacts, able.renewals⟩, able.tidy, able.waiting,
    able.genuine, able.phase_eq⟩

theorem spoken (h : Spoken s n n') (standing : Standing s n') (hlevel : n.level ≤ n'.level) :
    Onto s n n' where
  able := ⟨standing, h.holdings_eq ▸ able.tidy, h.backlog_eq ▸ able.waiting,
    h.genuine_eq ▸ able.genuine, by rw [h.backlog_eq, h.phase_eq, able.phase_eq]⟩
  level_le := hlevel
  phase_eq := h.phase_eq
  timer_eq := h.timer_eq

theorem launch (hwaiting : n.phase = .waiting) : Able s n.launch := by
  have hbacklog : n.backlog.start = { n.backlog with phase := .running } :=
    if_pos (able.phase_eq.trans hwaiting)
  refine ⟨⟨able.level_le, able.mem_started, able.contacts, able.renewals⟩, able.tidy, ?_,
    able.genuine, ?_⟩
  · rw [Node.launch, hbacklog]
    exact able.waiting
  · rw [Node.launch, hbacklog]

theorem halt : Able s n.halt :=
  ⟨⟨able.level_le, able.mem_started, able.contacts, able.renewals⟩, able.tidy, nofun, nofun, rfl⟩

theorem shown (best : Option (Multisig σ)) (journal : List (Action κ σ)) :
    Onto s n { n with best := best, journal := journal } :=
  ⟨able.outward best n.timer journal, Nat.le_refl _, rfl, rfl⟩

theorem requeued {backlog : Backlog σ} {genuine : List (Offer σ)}
    (hphase : backlog.phase = n.backlog.phase) (hwaiting : ∀ o ∈ backlog.waiting, s.place.Fits o)
    (hgenuine : ∀ o ∈ genuine, s.place.Fits o) :
    Onto s n { n with backlog := backlog, genuine := genuine } :=
  ⟨⟨⟨able.level_le, able.mem_started, able.contacts, able.renewals⟩, able.tidy, hwaiting, hgenuine,
    hphase.trans able.phase_eq⟩, Nat.le_refl _, rfl, rfl⟩

theorem receive (packet : Packet) : Onto s n (n.receive s packet) := by
  rcases receive_cases s able.phase_eq packet with h | ⟨fault, h⟩ | ⟨o, hread, h⟩ <;> rw [h]
  · exact able.refl
  · exact able.shown n.best _
  · refine able.requeued rfl (fun o' ho' => ?_) able.genuine
    simp only [Backlog.waiting, ← List.append_assoc] at ho'
    rcases List.mem_append.1 ho' with ho' | ho'
    · exact able.waiting o' ho'
    · rw [List.mem_singleton] at ho'
      exact ho' ▸ Setup.suits_of_read hread

theorem passed {b : Backlog σ} {verdict : Option (Verdict σ)}
    (passed : Backlog.Passed s.toVerifier s.evaluator n.holdings n.backlog b verdict) :
    Onto s n (n.passed b verdict) := by
  have hwaiting : ∀ o ∈ b.waiting, s.place.Fits o := fun o ho =>
    able.waiting o (passed.subset o ho)
  have hpassed := able.requeued passed.phase_eq hwaiting able.genuine
  rcases verdict with _ | o | ⟨o, fault⟩
  · exact hpassed
  · refine able.requeued passed.phase_eq hwaiting fun o' ho' => ?_
    rcases List.mem_append.1 ho' with ho' | ho'
    · exact able.genuine o' ho'
    · rw [List.mem_singleton] at ho'
      exact ho' ▸ able.waiting o (passed.genuine o rfl).1
  · exact hpassed.trans (hpassed.able.shown n.best _)

theorem pass : ∃ n', n.pass s = .ok n' ∧ Onto s n n' := by
  obtain ⟨b, done, hpass, passed⟩ :=
    Backlog.pass_spec s.toVerifier s.evaluator n.holdings n.backlog
  exact ⟨_, pass_eq hpass, able.passed passed⟩

section
variable (sound : s.Sound)
include sound

theorem advance : ∃ entered n', n.advance s = .ok (entered, n') ∧ Onto s n n' := by
  obtain ⟨entered, n', hadvance, spoken, standing, -, -, hlevel, -⟩ :=
    advance_spec sound able.tidy able.toStanding
  exact ⟨entered, n', hadvance, able.spoken spoken standing hlevel⟩

/-- A node answers no only from the last level, unless it is stopped, and a yes has
taken it up. -/
theorem answer_of_advance {entered : Bool} (h : n.advance s = .ok (entered, n')) :
    (entered = false → n'.level = s.maxLevel ∨ n.phase = .stopped) ∧
      (entered = true → n.level < n'.level) := by
  obtain ⟨_, _, hadvance, -, -, -, -, -, hrise, -⟩ := advance_spec sound able.tidy able.toStanding
  obtain ⟨rfl, rfl⟩ := Prod.mk.inj (Except.ok.inj (hadvance.symm.trans h))
  have hle := able.level_le
  by_cases hstopped : n.phase = .stopped
  · rw [Node.advance, if_pos hstopped, Except.ok.injEq, Prod.mk.injEq] at h
    obtain ⟨rfl, -⟩ := h
    exact ⟨fun _ => .inr hstopped, Bool.noConfusion⟩
  · rw [Node.advance, if_neg hstopped] at h
    refine ⟨fun hno => .inl ?_, fun hyes => hrise hstopped ?_⟩
    · rw [level_of_climb h hno]
      omega
    · by_contra htop
      rw [Nat.sub_eq_zero_of_le (Nat.not_lt.1 htop), climb] at h
      cases h
      cases hyes

theorem checkFinal : ∃ n', n.checkFinal s = .ok n' ∧ Onto s n n' := by
  obtain ⟨m, hm, -⟩ := Holdings.whole_eq able.tidy s.scheme sound.size_le_limit
  refine ⟨_, checkFinal_eq hm, ?_⟩
  rcases concluding_cases s n m with ⟨-, h⟩ | ⟨-, h⟩ <;> rw [h]
  · exact able.refl
  · exact able.shown (some m) _

theorem enter : ∃ n', n.enter s = .ok n' ∧ Onto s n n' := by
  obtain ⟨entered, n₁, hadvance, onto⟩ := able.advance sound
  obtain ⟨n', hfinal, onto'⟩ := onto.able.checkFinal sound
  refine ⟨n', ?_, onto.trans onto'⟩
  simp only [Node.enter, hadvance, bind, Except.bind, hfinal]

theorem takeIn : ∃ n', n.takeIn s = .ok n' ∧ Onto s n n' := by
  cases hgenuine : n.genuine with
  | nil => exact ⟨n, by rw [Node.takeIn, hgenuine], able.refl⟩
  | cons o rest =>
      have hrest : ∀ o' ∈ rest, s.place.Fits o' := fun o' ho' =>
        able.genuine o' (hgenuine ▸ List.mem_cons_of_mem _ ho')
      by_cases hstopped : n.phase = .stopped
      · refine ⟨{ n with genuine := rest }, ?_, able.requeued rfl able.waiting hrest⟩
        simp only [Node.takeIn, hgenuine, hstopped, if_true]
      obtain ⟨hsuits, hmarked⟩ := able.genuine o (hgenuine ▸ List.mem_cons_self)
      have tidy := Holdings.Tidy.add able.tidy s.scheme hsuits hmarked
      obtain ⟨held, hheld⟩ :=
        Holdings.exists_best?_add s.scheme n.holdings o.level.toNat hmarked
      have taken : Able s (n.taking s o rest) :=
        ⟨⟨able.level_le, able.mem_started, able.contacts, able.renewals⟩, tidy, able.waiting, hrest,
          able.phase_eq⟩
      obtain ⟨n₁, hcheck, spoken, standing, -, hlevel, -⟩ :=
        checkCompleted_spec sound taken.tidy taken.toStanding hheld
      have onto := taken.spoken spoken standing hlevel
      obtain ⟨n', hfinal, onto'⟩ := onto.able.checkFinal sound
      refine ⟨n', ?_, onto'.able, Nat.le_trans onto.level_le onto'.level_le,
        onto'.phase_eq.trans onto.phase_eq, onto'.timer_eq.trans onto.timer_eq⟩
      rw [takeIn_eq hgenuine hstopped, hcheck]
      exact hfinal

theorem renew : ∃ n', n.renew s = .ok n' ∧ Onto s n n' := by
  obtain ⟨n', hrenew, spoken, standing, hlevel, -⟩ := renew_spec sound able.tidy able.toStanding
  exact ⟨n', hrenew, able.spoken spoken standing (Nat.le_of_eq hlevel.symm)⟩

theorem step {e : Event} (hstart : e ≠ .start) (htimeout : e ≠ .timeout) (hstop : e ≠ .stop) :
    ∃ n', n.step s e = .ok n' ∧ Onto s n n' := by
  cases e with
  | start => exact absurd rfl hstart
  | receive packet => exact ⟨_, rfl, able.receive packet⟩
  | pass => exact able.pass
  | takeIn => exact able.takeIn sound
  | renew => exact able.renew sound
  | nextLevel =>
      obtain ⟨entered, n', hadvance, onto⟩ := able.advance sound
      exact ⟨n', by rw [Node.step, hadvance]; rfl, onto⟩
  | timeout => exact absurd rfl htimeout
  | stop => exact absurd rfl hstop

end

end Able

namespace Course

open LevelTimer

variable {c c' c'' : Course κ σ} {answers : List Bool}

/-- An event that has nothing to do with the timer, or only stops it. -/
theorem step_event {e : Event} (hstart : e ≠ .start) (htimeout : e ≠ .timeout) :
    c.step s (.event e) = (c.node.step s e).map fun n => { c with node := n } := by
  rw [step]
  · cases c.node.step s e <;> rfl
  · exact hstart
  · exact htimeout

structure Watched (s : Setup κ σ) (c : Course κ σ) : Prop where
  able : Able s c.node
  maxLevel_eq : c.node.timer.maxLevel = s.maxLevel
  pace_eq : c.node.timer.pace = s.pace
  fair : c.watch.Fair
  /-- The timer is started but once. -/
  fresh : c.node.phase = .waiting ∨ c.ahead = .arm → c.told = none
  ahead_eq : c.node.phase = .waiting → c.ahead = .nothing
  ticking : c.told ≠ none → c.node.phase = .running → c.node.timer.budget ≠ none
  climbed : ∀ answers, c.told = some answers → (∀ answer ∈ answers, answer = true) →
    answers.length ≤ c.node.level
  topped : ∀ answers, c.told = some answers → false ∈ answers →
    c.node.level = s.maxLevel ∨ c.node.phase = .stopped

/-- The course goes on, and a timer that has been stopped asks no more. -/
structure Leads (s : Setup κ σ) (c c' : Course κ σ) : Prop where
  watched : Watched s c'
  silent : c.told ≠ none → c.node.timer.budget = none →
    c'.told = c.told ∧ c'.node.timer.budget = none

theorem Leads.trans (h : Leads s c c') (h' : Leads s c' c'') : Leads s c c'' := by
  refine ⟨h'.watched, fun htold hbudget => ?_⟩
  obtain ⟨htold', hbudget'⟩ := h.silent htold hbudget
  obtain ⟨htold'', hbudget''⟩ := h'.silent (htold' ▸ htold) hbudget'
  exact ⟨htold''.trans htold', hbudget''⟩

theorem watched_create (s : Setup κ σ) (own : σ) : Watched s (create s own) where
  able := (fit_create s own).able
  maxLevel_eq := rfl
  pace_eq := rfl
  fair := Watch.fair_create s.pace s.maxLevel
  fresh _ := rfl
  ahead_eq _ := rfl
  ticking := fun h => absurd rfl h
  climbed := nofun
  topped := nofun

namespace Watched

variable (watched : Watched s c)
include watched

theorem leads : Leads s c c :=
  ⟨watched, fun _ h => ⟨rfl, h⟩⟩

theorem onto (h : Onto s c.node n') : Leads s c { c with node := n' } where
  watched := by
    have hwatch : ({ c with node := n' } : Course κ σ).watch = c.watch := by
      rw [watch, watch, h.timer_eq]
    refine ⟨h.able, ?_, ?_, hwatch ▸ watched.fair, ?_, ?_, ?_, ?_, ?_⟩
    · rw [h.timer_eq, watched.maxLevel_eq]
    · rw [h.timer_eq, watched.pace_eq]
    · rw [h.phase_eq]
      exact watched.fresh
    · rw [h.phase_eq]
      exact watched.ahead_eq
    · rw [h.phase_eq, h.timer_eq]
      exact watched.ticking
    · exact fun answers htold hyes => Nat.le_trans (watched.climbed answers htold hyes) h.level_le
    · intro answers htold hno
      rw [h.phase_eq]
      refine (watched.topped answers htold hno).imp_left fun htop => ?_
      exact Nat.le_antisymm h.able.level_le (htop ▸ h.level_le)
  silent _ hbudget := ⟨rfl, by rw [h.timer_eq, hbudget]⟩

theorem entered : Leads s c { c with ahead := .nothing } where
  watched := ⟨watched.able, watched.maxLevel_eq, watched.pace_eq, watched.fair,
    fun h => watched.fresh (h.imp_right Ahead.noConfusion), fun _ => rfl, watched.ticking,
    watched.climbed, watched.topped⟩
  silent _ hbudget := ⟨rfl, hbudget⟩

theorem launch (hwaiting : c.node.phase = .waiting) :
    Leads s c { c with node := c.node.launch, ahead := .arm } := by
  have htold := watched.fresh (.inl hwaiting)
  refine ⟨⟨watched.able.launch hwaiting, watched.maxLevel_eq, watched.pace_eq, watched.fair,
    fun _ => htold, nofun, fun h => absurd htold h, fun answers h => ?_, fun answers h => ?_⟩,
    fun h => absurd htold h⟩
  · rw [htold] at h
    cases h
  · rw [htold] at h
    cases h

theorem arm (harm : c.ahead = .arm) : Leads s c ⟨c.node.arm, .enter, some []⟩ := by
  have htold := watched.fresh (.inr harm)
  have hbudget : c.node.timer.budget = none := watched.fair.idle htold
  have hphase : c.node.phase ≠ .waiting := fun h => by
    rw [watched.ahead_eq h] at harm
    cases harm
  have hstart := start_of_idle hbudget
  refine ⟨⟨watched.able.outward c.node.best _ c.node.journal, ?_, ?_,
    Watch.Fair.start (w := c.watch) hbudget, ?_,
    fun h => absurd h hphase, fun _ _ => ?_, fun answers h _ => ?_, fun answers h hno => ?_⟩,
    fun h => absurd htold h⟩
  · rw [Node.arm, hstart]
    exact watched.maxLevel_eq
  · rw [Node.arm, hstart]
    exact watched.pace_eq
  · rintro (h | h)
    · exact absurd h hphase
    · cases h
  · rw [Node.arm, hstart]
    exact Option.some_ne_none _
  · obtain rfl := Option.some.inj h
    exact Nat.zero_le _
  · obtain rfl := Option.some.inj h
    cases hno

theorem halt : Leads s c { c with node := c.node.halt } where
  watched := ⟨watched.able.halt, watched.maxLevel_eq, watched.pace_eq, watched.fair,
    fun h => watched.fresh (h.imp_left nofun), nofun, fun _ => nofun, watched.climbed,
    fun _ _ _ => .inr rfl⟩
  silent _ hbudget := ⟨rfl, hbudget⟩

theorem disarm (hstopped : c.node.phase = .stopped) :
    Leads s c { c with node := c.node.disarm } where
  watched := by
    refine ⟨watched.able.outward c.node.best _ c.node.journal, watched.maxLevel_eq,
      watched.pace_eq, watched.fair.stop, watched.fresh, watched.ahead_eq, fun _ hrunning => ?_,
      watched.climbed, watched.topped⟩
    rw [show c.node.disarm.phase = c.node.phase from rfl, hstopped] at hrunning
    cases hrunning
  silent _ _ := ⟨rfl, rfl⟩

theorem stop : Leads s c { c with node := c.node.stop } := by
  by_cases hstopped : c.node.phase = .stopped
  · have hsame : c.node.stop = c.node := if_pos hstopped
    rw [hsame]
    exact watched.leads
  · rw [stop_of_not_stopped hstopped]
    exact watched.halt.trans (watched.halt.watched.disarm rfl)

theorem asked (harmed : c.node.timer.isArmed = true) (h : Onto s c.node n') {answer : Bool}
    (hno : answer = false → n'.level = s.maxLevel ∨ c.node.phase = .stopped)
    (hyes : answer = true → c.node.level < n'.level) :
    Leads s c ⟨{ n' with timer := n'.timer.asked answer }, c.ahead, c.told.map (answer :: ·)⟩ := by
  have hstarted : c.node.timer.budget ≠ none := by
    obtain ⟨left, hleft, -⟩ := exists_left_of_isArmed harmed
    rw [hleft]
    exact Option.some_ne_none left
  obtain ⟨answers, htold⟩ : ∃ answers, c.told = some answers :=
    Option.ne_none_iff_exists'.1 fun hnone => hstarted (watched.fair.idle hnone)
  have moved := (watched.onto h).watched
  have fair := moved.fair.tick (by rw [watch, h.timer_eq]; exact harmed) answer
  rw [htold]
  refine ⟨⟨moved.able.outward n'.best _ n'.journal, moved.maxLevel_eq, moved.pace_eq,
    by simpa only [watch, htold] using fair, fun hfresh => ?_, moved.ahead_eq, fun _ _ => ?_,
    fun answers' h' hall => ?_, fun answers' h' hmem => ?_⟩, fun _ h => absurd h hstarted⟩
  · rw [moved.fresh hfresh] at htold
    cases htold
  · dsimp only [LevelTimer.asked]
    rw [h.timer_eq]
    simpa using hstarted
  · obtain rfl := Option.some.inj h'
    obtain ⟨hfirst, hrest⟩ := List.forall_mem_cons.1 hall
    have hbefore := watched.climbed answers htold hrest
    have hup := hyes hfirst
    dsimp only [List.length_cons]
    omega
  · obtain rfl := Option.some.inj h'
    rcases List.mem_cons.1 hmem with hfirst | hbefore
    · exact (hno hfirst.symm).imp_right h.phase_eq.trans
    · exact moved.topped answers htold hbefore

section
variable (sound : s.Sound)
include sound

theorem timeout : ∃ c', c.step s (.event .timeout) = .ok c' ∧ Leads s c c' := by
  by_cases harmed : c.node.timer.isArmed = true
  · obtain ⟨entered, n', hadvance, h⟩ := watched.able.advance sound
    obtain ⟨hno, hyes⟩ := watched.able.answer_of_advance sound hadvance
    refine ⟨_, ?_, watched.asked harmed h hno hyes⟩
    simp only [step, Node.timeout, if_pos harmed, hadvance]
    rfl
  · refine ⟨c, ?_, watched.leads⟩
    have hsame : c.told.map ((none : Option Bool).toList ++ ·) = c.told := by
      cases c.told <;> rfl
    simp only [step, Node.timeout, if_neg harmed, bind, Except.bind, hsame]
    rfl

theorem start (hwaiting : c.node.phase = .waiting) :
    ∃ c', c.step s (.event .start) = .ok c' ∧ Leads s c c' := by
  have launched := watched.launch hwaiting
  have armed := launched.watched.arm rfl
  obtain ⟨n', henter, onto⟩ := armed.watched.able.enter sound
  have entered := armed.watched.onto onto
  refine ⟨_, ?_, launched.trans (armed.trans (entered.trans entered.watched.entered))⟩
  simp only [step, if_pos hwaiting, start_of_waiting s hwaiting]
  rw [show c.node.launch.arm.enter s = .ok n' from henter]
  rfl

theorem step (m : Moment) : ∃ c', c.step s m = .ok c' ∧ Leads s c c' := by
  cases m with
  | launch =>
      by_cases hwaiting : c.node.phase = .waiting
      · exact ⟨_, by rw [Course.step, if_pos hwaiting], watched.launch hwaiting⟩
      · exact ⟨c, by rw [Course.step, if_neg hwaiting], watched.leads⟩
  | arm =>
      by_cases harm : c.ahead = .arm
      · exact ⟨_, by rw [Course.step, if_pos harm], watched.arm harm⟩
      · exact ⟨c, by rw [Course.step, if_neg harm], watched.leads⟩
  | enter =>
      by_cases henter : c.ahead = .enter
      · obtain ⟨n', hn', onto⟩ := watched.able.enter sound
        have entered := watched.onto onto
        refine ⟨_, ?_, entered.trans entered.watched.entered⟩
        rw [Course.step, if_pos henter, hn']
        rfl
      · exact ⟨c, by rw [Course.step, if_neg henter], watched.leads⟩
  | halt => exact ⟨_, rfl, watched.halt⟩
  | disarm =>
      by_cases hstopped : c.node.phase = .stopped
      · exact ⟨_, by rw [Course.step, if_pos hstopped], watched.disarm hstopped⟩
      · exact ⟨c, by rw [Course.step, if_neg hstopped], watched.leads⟩
  | event e =>
      by_cases hstart : e = .start
      · subst hstart
        by_cases hwaiting : c.node.phase = .waiting
        · exact watched.start sound hwaiting
        · exact ⟨c, by rw [Course.step, if_neg hwaiting], watched.leads⟩
      by_cases htimeout : e = .timeout
      · subst htimeout
        exact watched.timeout sound
      by_cases hstop : e = .stop
      · subst hstop
        exact ⟨_, rfl, watched.stop⟩
      obtain ⟨n', hn', onto⟩ := watched.able.step sound hstart htimeout hstop
      exact ⟨_, by rw [step_event hstart htimeout, hn']; rfl, watched.onto onto⟩

theorem follow (moments : List Moment) : ∃ c', follow s moments c = .ok c' ∧ Leads s c c' := by
  induction moments generalizing c with
  | nil => exact ⟨c, rfl, watched.leads⟩
  | cons m rest ih =>
      obtain ⟨c₁, hstep, leads⟩ := watched.step sound m
      obtain ⟨c', hfollow, leads'⟩ := ih leads.watched
      refine ⟨c', ?_, leads.trans leads'⟩
      rw [Course.follow, hstep]
      exact hfollow

end

/-- A timer that has given up has got its node to the last level. -/
theorem level_of_givenUp (htold : c.told = some answers) (hgone : GivenUp s.maxLevel answers)
    (hstopped : c.node.phase ≠ .stopped) : c.node.level = s.maxLevel := by
  by_cases hno : false ∈ answers
  · exact (watched.topped answers htold hno).resolve_right hstopped
  have hyes : ∀ answer ∈ answers, answer = true := fun answer hmem => by
    cases answer with
    | false => exact absurd hmem hno
    | true => rfl
  rcases hgone with hfirst | hlength
  · exact absurd (List.mem_of_mem_head? hfirst) hno
  · have hclimbed := watched.climbed answers htold hyes
    have hle := watched.able.level_le
    omega

end Watched

/-- The course of events in one piece is a run of the node. -/
theorem node_of_follow (s : Setup κ σ) (events : List Event) (c : Course κ σ) :
    (follow s (events.map .event) c).map (·.node) = run s events c.node := by
  have hstep : ∀ (c : Course κ σ) e, (c.step s (.event e)).map (·.node) = c.node.step s e := by
    intro c e
    by_cases hstart : e = .start
    · subst hstart
      by_cases hwaiting : c.node.phase = .waiting
      · rw [step, if_pos hwaiting, Node.step]
        cases c.node.start s <;> rfl
      · rw [step, if_neg hwaiting, Node.step, Node.start, if_pos hwaiting]
        rfl
    by_cases htimeout : e = .timeout
    · subst htimeout
      rw [step, Node.step]
      cases c.node.timeout s <;> rfl
    · rw [step_event hstart htimeout]
      cases c.node.step s e <;> rfl
  induction events generalizing c with
  | nil => rfl
  | cons e rest ih =>
      rw [List.map_cons, follow, run, ← hstep c e]
      cases c.step s (.event e) with
      | error crash => rfl
      | ok c' => exact ih c'

/-- The moment stops the timer: the last part of the stop does, or all of it at once. -/
def Stops (c : Course κ σ) : Moment → Prop
  | .disarm => c.node.phase = .stopped
  | .event .stop => c.node.phase ≠ .stopped
  | _ => False

theorem budget_of_stops {m : Moment} (h : c.Stops m) (hstep : c.step s m = .ok c') :
    c'.told = c.told ∧ c'.node.timer.budget = none := by
  cases m with
  | disarm =>
      have hstopped : c.node.phase = .stopped := h
      rw [step, if_pos hstopped] at hstep
      cases hstep
      exact ⟨rfl, rfl⟩
  | event e =>
      cases e with
      | stop =>
          rw [step_event Event.noConfusion Event.noConfusion, Node.step,
            stop_of_not_stopped h] at hstep
          cases hstep
          exact ⟨rfl, rfl⟩
      | _ => exact h.elim
  | _ => exact h.elim

end Course

open LevelTimer Course

/-- Over a dense roster and with valid settings, whatever happens in whatever order,
the timer of a node that is not stopped gives up on the last level only, with all
levels entered that have members, and as long as the node runs it asks until it has
given up. It asks at most once per level, never again after a no, and never again
once it is stopped. The last three hold of any timer, whoever it asks. -/
theorem timer_reaches_every_level {roster : Roster κ} (hdense : roster.Dense)
    {settings : Settings} (hvalid : settings.validate = .ok ())
    (hword : settings.candidates < Word.limit) {id : Int32}
    (hid : 0 ≤ id.toInt ∧ id.toInt.toNat < roster.size) (scheme : Scheme κ σ)
    (message : List UInt8) (order : ContactOrder) (evaluator : Evaluator σ)
    (exclusion : Exclusion) (own : σ) :
    (∃ s, Setup.create scheme roster id message settings order evaluator exclusion .ticking =
        .ok s ∧
      ∀ moments, ∃ c, follow s moments (Course.create s own) = .ok c ∧
        ∀ answers, c.told = some answers →
          (c.node.phase ≠ .stopped → GivenUp s.maxLevel answers →
            c.node.level = s.maxLevel ∧
            ∀ level, 1 ≤ level → level ≤ s.maxLevel → 0 < s.place.sizeAt level →
              level ∈ c.node.started) ∧
          (c.node.phase = .running →
            (c.node.timer.isArmed = false ↔ GivenUp s.maxLevel answers)) ∧
          Modest s.maxLevel answers ∧
          ∀ m later c', c.Stops m → follow s (m :: later) c = .ok c' → c'.told = some answers) ∧
    ∀ (pace : Pace) (maxLevel : Nat) (uses : List Use) (answers : List Bool),
      let w := uses.foldl Watch.after ⟨.create pace maxLevel, none⟩
      w.told = some answers →
        Modest maxLevel answers ∧
        ∀ periods : List Bool,
          ((periods.map Use.tick).foldl Watch.after (w.after .stop)).told = some answers := by
  constructor
  · obtain ⟨s, hs⟩ := Setup.exists_create hdense hvalid hid scheme message order evaluator exclusion
      .ticking
    have sound := Setup.sound_of_create hdense hword hs
    have hpace : s.pace = .ticking := by
      obtain ⟨-, -, place, threshold, -, -, rfl⟩ := Setup.create_eq_ok_iff.1 hs
      rfl
    refine ⟨s, hs, fun moments => ?_⟩
    obtain ⟨c, hfollow, leads⟩ := (watched_create s own).follow sound moments
    have watched := leads.watched
    refine ⟨c, hfollow, fun answers htold => ⟨fun hstopped hgone => ?_, fun hrunning => ?_, ?_,
      fun m later c' hstops hlater => ?_⟩⟩
    · have htop := watched.level_of_givenUp htold hgone hstopped
      refine ⟨htop, fun level hpos hle hsize => (watched.able.mem_started level).2 ?_⟩
      exact ⟨hpos, htop ▸ hle, hsize⟩
    · rw [← watched.maxLevel_eq]
      apply watched.fair.isArmed_eq_false_iff (watched.pace_eq.trans hpace) htold
      exact watched.ticking (by rw [htold]; exact Option.some_ne_none _) hrunning
    · rw [← watched.maxLevel_eq]
      exact watched.fair.modest answers htold
    · obtain ⟨c₁, hstep, leads₁⟩ := watched.step sound m
      obtain ⟨htold₁, hbudget⟩ := budget_of_stops hstops hstep
      obtain ⟨c₂, hfollow₂, leads₂⟩ := leads₁.watched.follow sound later
      rw [follow, hstep] at hlater
      obtain rfl := Except.ok.inj (hfollow₂.symm.trans hlater)
      rw [htold] at htold₁
      rw [← htold₁]
      exact (leads₂.silent (by rw [htold₁]; exact Option.some_ne_none _) hbudget).1
  · intro pace maxLevel uses answers w htold
    obtain ⟨fair, hmax⟩ := Watch.fair_of_uses pace maxLevel uses
    exact ⟨hmax ▸ fair.modest answers htold,
      fun periods => (Watch.told_of_stopped periods rfl).trans htold⟩

/-- The fifth of six members has nobody on level 2. Its timer asks before the start has
entered a level: the question enters level 1, the start then the last one, and at
its next question the timer gives up. -/
theorem timer_reaches_every_level_of_six :
    (Plain.roster 6).Dense ∧ ({} : Settings).validate = .ok () ∧
      ({} : Settings).candidates < Word.limit ∧ (0 ≤ Int32.toInt 4 ∧ Int32.toInt 4 < 6) ∧
      ∃ s c, Setup.create Plain.scheme (Plain.roster 6) 4 [7] {} .ascending .byGain .never
          .ticking = .ok s ∧
        follow s [.launch, .arm, .event .timeout, .enter, .event .timeout]
          (Course.create s (Plain.sign 4)) = .ok c ∧
        c.told = some [false, true] ∧ c.node.level = s.maxLevel ∧
        ∀ level, 1 ≤ level → level ≤ s.maxLevel → 0 < s.place.sizeAt level →
          level ∈ c.node.started := by
  have hsize : (Plain.roster 6).size = 6 := Plain.size_roster 6
  have hvalid : ({} : Settings).validate = .ok () := by decide
  have hid : 0 ≤ Int32.toInt 4 ∧ (Int32.toInt 4).toNat < (Plain.roster 6).size := by
    rw [hsize]
    decide
  have htold : (Setup.create Plain.scheme (Plain.roster 6) 4 [7] {} .ascending .byGain .never
      .ticking).toOption.bind (fun s =>
        (follow s [.launch, .arm, .event .timeout, .enter, .event .timeout]
          (Course.create s (Plain.sign 4))).toOption.map fun c => (c.told, c.node.phase)) =
      some (some [false, true], .running) := by decide +kernel
  obtain ⟨⟨s, hs, hcourse⟩, -⟩ := timer_reaches_every_level (Plain.dense_roster 6) hvalid
    (by decide) hid Plain.scheme [7] .ascending .byGain .never (Plain.sign 4)
  obtain ⟨c, hfollow, hanswers⟩ :=
    hcourse [.launch, .arm, .event .timeout, .enter, .event .timeout]
  simp only [hs, hfollow, Except.toOption, Option.bind_some, Option.map_some, Option.some.injEq,
    Prod.mk.injEq] at htold
  obtain ⟨htold, hphase⟩ := htold
  obtain ⟨hlevel, hstarted⟩ :=
    (hanswers _ htold).1 (by rw [hphase]; decide) (.inl rfl)
  exact ⟨Plain.dense_roster 6, hvalid, by decide, by decide, s, c, hs, hfollow, htold, hlevel,
    hstarted⟩

end Node

end MultisigTree
