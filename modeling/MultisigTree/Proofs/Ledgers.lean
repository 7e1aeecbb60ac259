import MultisigTree.Node.Life
import MultisigTree.Proofs.Backlogs

/-!
# The ledger of a backlog

Offers are added to a backlog, it is started and stopped, and passes are made,
in any order. The ledger of such a run has one entry for each offer that waits
no longer: it tells what became of the offer. Whatever is added either waits or
has one entry (`Backlog.perm_run`). A pass over offers that wait leaves fewer of
them (`Backlog.load_pass`), and a stopped backlog stays as it is
(`Backlog.run_stopped`).
-/
namespace MultisigTree

/-- What becomes of an offer that waits no longer. -/
inductive Fate where
  | published
  | reported (id : Int32) (fault : Fault)
  | useless
  | settled
  | discarded
  deriving DecidableEq

/-- An offer that waits no longer. -/
structure Entry (σ : Type) where
  offer : Offer σ
  fate : Fate
  deriving DecidableEq

def Entry.isVerified {σ : Type} (e : Entry σ) : Bool :=
  match e.fate with
  | .published | .reported .. => true
  | .useless | .settled | .discarded => false

/-- A genuine offer is published, and for a forged one its sender is reported. -/
def Verdict.entry {σ : Type} : Verdict σ → Entry σ
  | .genuine o => ⟨o, .published⟩
  | .forged o fault => ⟨o, .reported o.origin fault⟩

def Pass.entries {σ : Type} (done : Pass σ) : List (Entry σ) :=
  done.useless.map (⟨·, .useless⟩) ++ done.settled.map (⟨·, .settled⟩) ++
    done.verdict.toList.map Verdict.entry

def Entry.published {σ : Type} (entries : List (Entry σ)) : List (Offer σ) :=
  (entries.filter (·.fate = .published)).map (·.offer)

def Entry.reported {σ : Type} (entries : List (Entry σ)) : Reports :=
  entries.filterMap fun e =>
    match e.fate with
    | .reported id fault => some (id, fault)
    | _ => none

theorem Verdict.offer_entry {σ : Type} (verdict : Verdict σ) :
    verdict.entry.offer = verdict.offer := by
  cases verdict with
  | genuine o => rfl
  | forged o fault => rfl

theorem Pass.offers_entries {σ : Type} (done : Pass σ) :
    done.entries.map (·.offer) = done.offers := by
  simp [entries, offers, Function.comp_def, Verdict.offer_entry]

namespace Backlog

variable {κ σ : Type}

/-- What happens to a backlog. -/
inductive Event (σ : Type) where
  | add (offer : Offer σ)
  | start
  | stop
  | pass (holdings : Holdings σ)

def Event.offer? : Event σ → Option (Offer σ)
  | .add o => some o
  | .start | .stop | .pass _ => none

def added (events : List (Event σ)) : List (Offer σ) :=
  events.filterMap Event.offer?

def step (v : Verifier κ σ) (evaluator : Evaluator σ) (b : Backlog σ) :
    Event σ → Except Crash (Backlog σ × List (Entry σ))
  | .add o => .ok (b.add o, if b.phase = .stopped then [⟨o, .discarded⟩] else [])
  | .start => .ok (b.start, [])
  | .stop => .ok (b.stop, b.waiting.map (⟨·, .discarded⟩))
  | .pass holdings => (b.pass v evaluator holdings).map fun r => (r.1, r.2.entries)

def run (v : Verifier κ σ) (evaluator : Evaluator σ) :
    List (Event σ) → Backlog σ → Except Crash (Backlog σ × List (Entry σ))
  | [], b => return (b, [])
  | e :: rest, b => do
      let (b, entries) ← b.step v evaluator e
      let (b, ledger) ← run v evaluator rest b
      return (b, entries ++ ledger)

variable {v : Verifier κ σ} {evaluator : Evaluator σ} {holdings : Holdings σ}
variable {b b' b'' : Backlog σ} {event : Event σ} {events later : List (Event σ)}
variable {done : Pass σ} {entries ledger ledger' : List (Entry σ)}

theorem step_pass_of_pass (h : b.pass v evaluator holdings = .ok (b', done)) :
    b.step v evaluator (.pass holdings) = .ok (b', done.entries) := by
  rw [step, h]
  rfl

theorem pass_of_step_pass (h : b.step v evaluator (.pass holdings) = .ok (b', entries)) :
    ∃ done, b.pass v evaluator holdings = .ok (b', done) ∧ entries = done.entries := by
  obtain ⟨b₁, done, hpass⟩ := exists_pass v evaluator holdings b
  rw [step_pass_of_pass hpass] at h
  cases h
  exact ⟨done, hpass, rfl⟩

theorem exists_step (v : Verifier κ σ) (evaluator : Evaluator σ) (b : Backlog σ)
    (event : Event σ) : ∃ b' entries, b.step v evaluator event = .ok (b', entries) := by
  cases event with
  | pass holdings =>
      obtain ⟨b', done, hpass⟩ := exists_pass v evaluator holdings b
      exact ⟨b', done.entries, step_pass_of_pass hpass⟩
  | add o => exact ⟨_, _, rfl⟩
  | start => exact ⟨_, _, rfl⟩
  | stop => exact ⟨_, _, rfl⟩

theorem run_cons_iff : run v evaluator (event :: events) b = .ok (b'', ledger) ↔
    ∃ b' entries ledger', b.step v evaluator event = .ok (b', entries) ∧
      run v evaluator events b' = .ok (b'', ledger') ∧ ledger = entries ++ ledger' := by
  obtain ⟨b', entries, hstep⟩ := exists_step v evaluator b event
  rw [run, hstep]
  cases hrun : run v evaluator events b' with
  | error crash => simp [hrun, bind, Except.bind]
  | ok r => simp [hrun, bind, Except.bind, pure, Except.pure, Prod.ext_iff, eq_comm]

theorem exists_ledger (v : Verifier κ σ) (evaluator : Evaluator σ) (events : List (Event σ))
    (b : Backlog σ) : ∃ b' ledger, run v evaluator events b = .ok (b', ledger) := by
  induction events generalizing b with
  | nil => exact ⟨b, [], rfl⟩
  | cons event rest ih =>
      obtain ⟨b', entries, hstep⟩ := exists_step v evaluator b event
      obtain ⟨b'', ledger, hrun⟩ := ih b'
      exact ⟨b'', entries ++ ledger, run_cons_iff.2 ⟨b', entries, ledger, hstep, hrun, rfl⟩⟩

theorem run_append (hrun : run v evaluator events b = .ok (b', ledger))
    (hlater : run v evaluator later b' = .ok (b'', ledger')) :
    run v evaluator (events ++ later) b = .ok (b'', ledger ++ ledger') := by
  induction events generalizing b ledger with
  | nil =>
      cases hrun
      exact hlater
  | cons event rest ih =>
      obtain ⟨b₁, entries, ledger₁, hstep, hrest, heq⟩ := run_cons_iff.1 hrun
      rw [heq, List.append_assoc]
      exact run_cons_iff.2 ⟨b₁, entries, _, hstep, ih hrest, rfl⟩

/-- What waited or is added waits on or has one entry. -/
theorem perm_step (h : b.step v evaluator event = .ok (b', entries)) :
    (b'.waiting ++ entries.map (·.offer)).Perm (b.waiting ++ event.offer?.toList) := by
  cases event with
  | pass holdings =>
      obtain ⟨done, hpass, heq⟩ := pass_of_step_pass h
      rw [heq, done.offers_entries]
      simpa [Event.offer?] using (accounted_of_pass hpass).perm
  | add o =>
      cases h
      unfold add
      split
      · exact .rfl
      · simp [waiting, Event.offer?]
  | start =>
      cases h
      unfold start
      split
      · exact .rfl
      · exact .rfl
  | stop =>
      cases h
      simp [waiting, stop, Event.offer?, Function.comp_def]

theorem added_cons (event : Event σ) (events : List (Event σ)) :
    added (event :: events) = event.offer?.toList ++ added events := by
  cases event with
  | add o => rfl
  | start => rfl
  | stop => rfl
  | pass holdings => rfl

theorem perm_run (h : run v evaluator events b = .ok (b', ledger)) :
    (b'.waiting ++ ledger.map (·.offer)).Perm (b.waiting ++ added events) := by
  induction events generalizing b ledger with
  | nil =>
      cases h
      exact .rfl
  | cons event rest ih =>
      obtain ⟨b₁, entries, ledger₁, hstep, hrest, heq⟩ := run_cons_iff.1 h
      have hfirst := (perm_step hstep).append_right (added rest)
      have hlater := (ih hrest).append_right (entries.map (·.offer))
      rw [heq, List.map_append, added_cons, ← List.append_assoc b.waiting]
      refine .trans ?_ (hlater.trans (.trans ?_ hfirst))
      · rw [List.append_assoc]
        exact List.perm_append_comm.append_left _
      · rw [List.append_assoc, List.append_assoc]
        exact List.perm_append_comm.append_left _

theorem phase_step (h : b.step v evaluator event = .ok (b', entries)) :
    b'.phase = match event with
      | .start => if b.phase = .waiting then .running else b.phase
      | .stop => .stopped
      | .add _ | .pass _ => b.phase := by
  cases event with
  | pass holdings =>
      obtain ⟨done, hpass, -⟩ := pass_of_step_pass h
      exact (accounted_of_pass hpass).phase_eq
  | add o =>
      cases h
      unfold add
      split
      · rfl
      · rfl
  | start =>
      cases h
      unfold start
      split
      · rfl
      · rfl
  | stop =>
      cases h
      rfl

theorem stopped_of_run (h : run v evaluator events b = .ok (b', ledger)) :
    b'.phase = .stopped ↔ b.phase = .stopped ∨ .stop ∈ events := by
  induction events generalizing b ledger with
  | nil =>
      cases h
      simp
  | cons event rest ih =>
      obtain ⟨b₁, entries, ledger₁, hstep, hrest, -⟩ := run_cons_iff.1 h
      rw [ih hrest, phase_step hstep]
      cases event with
      | start => cases b.phase <;> simp
      | stop => simp
      | add o => simp
      | pass holdings => simp

theorem waiting_of_run (h : run v evaluator events b = .ok (b', ledger)) :
    b'.phase = .waiting ↔ b.phase = .waiting ∧ .start ∉ events ∧ .stop ∉ events := by
  induction events generalizing b ledger with
  | nil =>
      cases h
      simp
  | cons event rest ih =>
      obtain ⟨b₁, entries, ledger₁, hstep, hrest, -⟩ := run_cons_iff.1 h
      rw [ih hrest, phase_step hstep]
      cases event with
      | start => cases b.phase <;> simp
      | stop => simp
      | add o => simp
      | pass holdings => simp

/-- A new backlog runs from its start to its stop. -/
theorem running_of_run (h : run v evaluator events .empty = .ok (b, ledger)) :
    b.phase = .running ↔ .start ∈ events ∧ .stop ∉ events := by
  have hstopped := stopped_of_run h
  have hwaiting := waiting_of_run h
  cases hphase : b.phase with
  | waiting =>
      have hnone := (hwaiting.1 hphase).2.1
      simp [hnone]
  | running => simp_all [empty]
  | stopped =>
      have hstop : .stop ∈ events := (hstopped.1 hphase).resolve_left nofun
      simp [hstop]

theorem load_pass (h : b.pass v evaluator holdings = .ok (b', done)) (hrunning : b.phase = .running)
    (hload : 0 < b.load) : b'.load < b.load := by
  have haccounted := accounted_of_pass h
  have hlength := haccounted.perm.length_eq
  rw [List.length_append, length_waiting, length_waiting] at hlength
  cases hverdict : done.verdict with
  | none =>
      have hempty := (haccounted.quiet hverdict).2 hrunning
      rw [← length_waiting, hempty]
      exact hload
  | some verdict =>
      have hmem : verdict.offer ∈ done.offers := Pass.mem_offers.2 (.inr (.inr ⟨_, hverdict, rfl⟩))
      have hpos := List.length_pos_of_mem hmem
      omega

/-- A pass takes at least as many offers from those that wait as it verifies. -/
theorem load_add_verdict_le (h : b.pass v evaluator holdings = .ok (b', done)) :
    b'.load + done.verdict.toList.length ≤ b.load := by
  have hlength := (accounted_of_pass h).perm.length_eq
  rw [List.length_append, length_waiting, length_waiting] at hlength
  have hverdict : done.verdict.toList.length ≤ done.offers.length := by
    rw [Pass.offers, List.length_append, List.length_map]
    exact Nat.le_add_left _ _
  omega

theorem added_passes (burst : List (Holdings σ)) : added (burst.map .pass) = [] := by
  induction burst with
  | nil => rfl
  | cons holdings rest ih =>
      rw [List.map_cons, added_cons, ih]
      rfl

/-- However many passes are made, they verify no more offers than wait. -/
theorem verified_passes {burst : List (Holdings σ)}
    (h : run v evaluator (burst.map .pass) b = .ok (b', ledger)) :
    ledger.countP (·.isVerified) ≤ b.load := by
  have hlength := (perm_run h).length_eq
  rw [added_passes, List.append_nil, List.length_append, List.length_map,
    length_waiting b] at hlength
  have hverified := List.countP_le_length (p := (·.isVerified)) (l := ledger)
  omega

/-- As many passes as offers wait leave none. -/
theorem load_passes (hrunning : b.phase = .running) {burst : List (Holdings σ)}
    (hload : b.load ≤ burst.length)
    (h : run v evaluator (burst.map .pass) b = .ok (b', ledger)) : b'.load = 0 := by
  induction burst generalizing b ledger with
  | nil =>
      cases h
      exact Nat.le_zero.1 hload
  | cons holdings rest ih =>
      obtain ⟨b₁, entries, ledger₁, hstep, hrest, -⟩ := run_cons_iff.1 h
      obtain ⟨done, hpass, -⟩ := pass_of_step_pass hstep
      have hphase : b₁.phase = .running := (phase_step hstep).trans hrunning
      refine ih hphase ?_ hrest
      rw [List.length_cons] at hload
      have hfirst := load_add_verdict_le hpass
      have hshrinks := load_pass hpass hrunning
      omega

/-- No number of passes crashes. Together they verify no more offers than they
take from those that wait, and each of them takes one as long as there are any. -/
theorem exists_passes (v : Verifier κ σ) (evaluator : Evaluator σ) (holdings : Holdings σ)
    (count : Nat) (b : Backlog σ) :
    ∃ b' verdicts, b.passes v evaluator holdings count = .ok (b', verdicts) ∧
      b'.phase = b.phase ∧ b'.load + verdicts.length ≤ b.load ∧
      (b.phase = .running → b'.load ≤ b.load - count) := by
  induction count generalizing b with
  | zero => exact ⟨b, [], rfl, rfl, Nat.le_refl _, fun _ => Nat.le_refl _⟩
  | succ count ih =>
      unfold passes
      by_cases hrest : b.phase ≠ .running ∨ b.load = 0
      · rw [if_pos hrest]
        refine ⟨b, [], rfl, rfl, Nat.le_refl _, fun hrunning => ?_⟩
        rw [hrest.resolve_left (not_not_intro hrunning)]
        exact Nat.zero_le _
      · rw [if_neg hrest]
        obtain ⟨b₁, done, hpass⟩ := exists_pass v evaluator holdings b
        obtain ⟨b', verdicts, hpasses, hphase, hverified, hload⟩ := ih b₁
        have hkept := (accounted_of_pass hpass).phase_eq
        have hfirst := load_add_verdict_le hpass
        rw [hpass]
        simp only [bind, Except.bind, hpasses]
        refine ⟨b', done.verdict.toList ++ verdicts, rfl, hphase.trans hkept, ?_, ?_⟩
        · rw [List.length_append]
          omega
        · intro hrunning
          have hshrinks := load_pass hpass hrunning
          have hlater := hload (hkept.trans hrunning)
          omega

/-- All offers that wait are settled, and no more of them verified than wait. -/
theorem settle_spec (v : Verifier κ σ) (evaluator : Evaluator σ) (holdings : Holdings σ)
    (b : Backlog σ) :
    ∃ b' verdicts, b.settle v evaluator holdings = .ok (b', verdicts) ∧
      b'.phase = b.phase ∧ verdicts.length ≤ b.load ∧ (b.phase = .running → b'.load = 0) := by
  obtain ⟨b', verdicts, hpasses, hphase, hverified, hload⟩ :=
    exists_passes v evaluator holdings b.load b
  refine ⟨b', verdicts, hpasses, hphase, by omega, fun hrunning => ?_⟩
  have hnone := hload hrunning
  omega

theorem step_stopped (hstopped : b.phase = .stopped) (hwaiting : b.waiting = [])
    (h : b.step v evaluator event = .ok (b', entries)) :
    b' = b ∧ ∀ e ∈ entries, e.fate = .discarded := by
  cases event with
  | pass holdings =>
      obtain ⟨done, hpass, heq⟩ := pass_of_step_pass h
      have hidle := (accounted_of_pass hpass).idle (by rw [hstopped]; nofun)
      rw [heq, hidle.2]
      exact ⟨hidle.1, nofun⟩
  | add o =>
      cases h
      rw [add, if_pos hstopped, if_pos hstopped]
      simp
  | start =>
      cases h
      rw [start, hstopped]
      simp
  | stop =>
      cases h
      have hparts := List.append_eq_nil_iff.1 hwaiting
      refine ⟨?_, ?_⟩
      · obtain ⟨phase, queued, pending, resolved, evaluations⟩ := b
        simp_all [stop]
      · rw [hwaiting]
        nofun

theorem run_stopped (hstopped : b.phase = .stopped) (hwaiting : b.waiting = [])
    (h : run v evaluator events b = .ok (b', ledger)) :
    b' = b ∧ ∀ e ∈ ledger, e.fate = .discarded := by
  induction events generalizing b ledger with
  | nil =>
      cases h
      exact ⟨rfl, nofun⟩
  | cons event rest ih =>
      obtain ⟨b₁, entries, ledger₁, hstep, hrest, heq⟩ := run_cons_iff.1 h
      obtain ⟨hsame, hentries⟩ := step_stopped hstopped hwaiting hstep
      subst hsame
      obtain ⟨hrest, hlater⟩ := ih hstopped hwaiting hrest
      refine ⟨hrest, fun e he => ?_⟩
      rw [heq] at he
      rcases List.mem_append.1 he with he | he
      · exact hentries e he
      · exact hlater e he

/-- Nothing but a pass evaluates or resolves anything. -/
theorem frame_step (h : b.step v evaluator event = .ok (b', entries)) :
    (∃ holdings, event = .pass holdings) ∨
      b'.resolved = b.resolved ∧ b'.evaluations = b.evaluations := by
  cases event with
  | pass holdings => exact .inl ⟨holdings, rfl⟩
  | add o =>
      cases h
      unfold add
      split
      · exact .inr ⟨rfl, rfl⟩
      · exact .inr ⟨rfl, rfl⟩
  | start =>
      cases h
      unfold start
      split
      · exact .inr ⟨rfl, rfl⟩
      · exact .inr ⟨rfl, rfl⟩
  | stop =>
      cases h
      exact .inr ⟨rfl, rfl⟩

theorem evaluations_step (h : b.step v evaluator event = .ok (b', entries)) :
    b.evaluations <:+ b'.evaluations := by
  rcases frame_step h with ⟨holdings, rfl⟩ | ⟨-, hsame⟩
  · obtain ⟨done, hpass, -⟩ := pass_of_step_pass h
    exact (accounted_of_pass hpass).suffix
  · exact hsame ▸ List.suffix_refl _

/-- What is resolved changes only with what is published. -/
theorem resolved_step (h : b.step v evaluator event = .ok (b', entries)) :
    b'.resolved = b.resolved ∨
      ∃ o, ⟨o, .published⟩ ∈ entries ∧ b'.resolved = resolve b.resolved o := by
  rcases frame_step h with ⟨holdings, rfl⟩ | ⟨hsame, -⟩
  · obtain ⟨done, hpass, heq⟩ := pass_of_step_pass h
    have haccounted := accounted_of_pass hpass
    cases hverdict : done.verdict with
    | none => exact .inl (haccounted.quiet hverdict).1
    | some verdict =>
        cases verdict with
        | forged o fault => exact .inl (haccounted.forged o fault hverdict).2
        | genuine o =>
            refine .inr ⟨o, ?_, (haccounted.genuine o hverdict).2⟩
            rw [heq, Pass.entries, hverdict]
            exact List.mem_append_right _ List.mem_cons_self
  · exact .inl hsame

end Backlog

theorem Pass.published_entries {σ : Type} (done : Pass σ) :
    Entry.published done.entries = match done.verdict with
      | some (.genuine o) => [o]
      | _ => [] := by
  unfold Entry.published entries
  rw [List.filter_append, List.filter_append, List.filter_map, List.filter_map]
  cases done.verdict with
  | none => simp [Function.comp_def]
  | some verdict =>
      cases verdict with
      | genuine o => simp [Function.comp_def, Verdict.entry]
      | forged o fault => simp [Function.comp_def, Verdict.entry]

theorem Pass.reported_entries {σ : Type} (done : Pass σ) :
    Entry.reported done.entries = match done.verdict with
      | some (.forged o fault) => [(o.origin, fault)]
      | _ => [] := by
  unfold Entry.reported entries
  cases done.verdict with
  | none => simp
  | some verdict =>
      cases verdict with
      | genuine o => simp [Verdict.entry]
      | forged o fault => simp [Verdict.entry]

/-- A node passes on what the entries of its pass say is published, and reports
whom they say is reported. -/
theorem Node.entries_of_pass {κ σ : Type} {s : Setup κ σ} {n n' : Node κ σ}
    (h : n.pass s = .ok n') :
    ∃ entries, n.backlog.step s.toVerifier s.evaluator (.pass n.holdings) =
        .ok (n'.backlog, entries) ∧
      n'.genuine = n.genuine ++ Entry.published entries ∧
      n'.reports = Entry.reported entries ++ n.reports := by
  obtain ⟨b, done, hpass⟩ :=
    Backlog.exists_pass s.toVerifier s.evaluator n.holdings n.backlog
  have hpublished := done.published_entries
  have hreported := done.reported_entries
  unfold pass at h
  rw [hpass] at h
  refine ⟨done.entries, ?_⟩
  rw [Backlog.step_pass_of_pass hpass, hpublished, hreported]
  cases hverdict : done.verdict with
  | none =>
      simp only [hverdict, bind, Except.bind] at h
      cases h
      exact ⟨rfl, (List.append_nil _).symm, rfl⟩
  | some verdict =>
      cases verdict with
      | genuine o =>
          simp only [hverdict, bind, Except.bind] at h
          cases h
          exact ⟨rfl, rfl, rfl⟩
      | forged o fault =>
          simp only [hverdict, bind, Except.bind] at h
          cases h
          exact ⟨rfl, (List.append_nil _).symm, rfl⟩

end MultisigTree
