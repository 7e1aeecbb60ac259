import Mathlib.Data.List.Destutter
import MultisigTree.Proofs.Finals

/-!
# Finals follow what is held

A node compares all it holds only with what it published last, and only by the
number of contributions. Since every change of what it holds adds contributions
to the whole, nothing is missed and nothing published twice: the finals are
exactly what all it holds amounts to, at its start and after each change, as far
as there are enough contributions (`Node.published_follows`).
-/
namespace MultisigTree

instance {σ : Type} [DecidableEq σ] : DecidableEq (Holdings σ) := fun h k =>
  decidable_of_iff (h.table.entries = k.table.entries) <| by
    obtain ⟨⟨entries, _⟩⟩ := h
    obtain ⟨⟨entries', _⟩⟩ := k
    simp

theorem Phase.running_after (e : Event) :
    Phase.running.after e = .running ∨ Phase.running.after e = .stopped := by
  cases e with
  | stop => exact .inr rfl
  | _ => exact .inl rfl

namespace Node

variable {κ σ : Type} {s : Setup κ σ} {n n' : Node κ σ} {nodes : List (Node κ σ)}

def states (s : Setup κ σ) : List Event → Node κ σ → Except Crash (List (Node κ σ))
  | [], n => return [n]
  | e :: rest, n => do
      let n' ← n.step s e
      return n :: (← states s rest n')

theorem states_cons {e : Event} {rest : List Event} {n₁ : Node κ σ} (hstep : n.step s e = .ok n₁)
    (hrest : states s rest n₁ = .ok nodes) : states s (e :: rest) n = .ok (n :: nodes) := by
  simp only [states, hstep, hrest, bind, Except.bind]
  rfl

theorem run_cons {e : Event} {rest : List Event} {n₁ : Node κ σ} (hstep : n.step s e = .ok n₁) :
    run s (e :: rest) n = run s rest n₁ := by
  rw [run, hstep]
  rfl

section
variable [DecidableEq σ]

/-- What a node holds from its start to its stop: at first, and after each
change. -/
def heldInTurn (nodes : List (Node κ σ)) : List (Holdings σ) :=
  ((nodes.filter (·.phase = .running)).map (·.holdings)).destutter (· ≠ ·)

theorem heldInTurn_cons_idle (h : n.phase ≠ .running) :
    heldInTurn (n :: nodes) = heldInTurn nodes := by
  simp only [heldInTurn, List.filter_cons, h, decide_false, Bool.false_eq_true, if_false]

theorem heldInTurn_idle (h : ∀ n ∈ nodes, n.phase ≠ .running) : heldInTurn nodes = [] := by
  have hnone : nodes.filter (·.phase = .running) = [] := by
    simpa [List.filter_eq_nil_iff] using h
  rw [heldInTurn, hnone]
  rfl

theorem heldInTurn_last (hrunning : n.phase = .running) (h : ∀ n ∈ nodes, n.phase ≠ .running) :
    heldInTurn (n :: nodes) = [n.holdings] := by
  have hnone : nodes.filter (·.phase = .running) = [] := by
    simpa [List.filter_eq_nil_iff] using h
  simp only [heldInTurn, List.filter_cons, hrunning, decide_true, if_true, hnone]
  rfl

/-- Whether what is held has changed decides whether it counts anew. -/
theorem heldInTurn_cons (hrunning : n.phase = .running) (hrunning' : n'.phase = .running) :
    heldInTurn (n :: n' :: nodes) =
      if n'.holdings = n.holdings then heldInTurn (n' :: nodes)
      else n.holdings :: heldInTurn (n' :: nodes) := by
  simp only [heldInTurn, List.filter_cons, hrunning, hrunning', decide_true, if_true, List.map_cons,
    List.destutter_cons']
  by_cases heq : n'.holdings = n.holdings
  · rw [if_pos heq, heq, List.destutter'_cons_neg _ (not_not_intro rfl)]
  · rw [if_neg heq, List.destutter'_cons_pos _ (Ne.symm heq)]

end

/-- What is published of `values`, the latest first. -/
def finals (s : Setup κ σ) (values : List (Multisig σ)) : List (Multisig σ) :=
  (values.filter (s.threshold ≤ ·.card)).reverse

theorem mem_finals {values : List (Multisig σ)} {m : Multisig σ} :
    m ∈ finals s values ↔ m ∈ values ∧ s.threshold ≤ m.card := by
  rw [finals, List.mem_reverse, List.mem_filter, decide_eq_true_eq]

theorem finals_cons (s : Setup κ σ) (m : Multisig σ) (later : List (Multisig σ)) :
    finals s (m :: later) = finals s later ++ finals s [m] := by
  unfold finals
  rw [← List.singleton_append, List.filter_append, List.reverse_append]

theorem concluding_of_current {m : Multisig σ} (h : s.threshold ≤ m.card → n.best = some m) :
    n.concluding s m = n := by
  rcases concluding_cases s n m with ⟨-, hsame⟩ | ⟨⟨-, henough, hbest⟩, -⟩
  · exact hsame
  · exact absurd (hbest m (h henough)) (Nat.lt_irrefl _)

/-- What has more contributions than anything before is published if it has
enough. -/
theorem published_concluding {m : Multisig σ} (hrunning : n.phase = .running)
    (h : ∀ b, n.best = some b → b.card < m.card) :
    (n.concluding s m).published = finals s [m] ++ n.published := by
  unfold finals
  rcases concluding_cases s n m with ⟨hquiet, hsame⟩ | ⟨⟨-, henough, -⟩, hpublish⟩
  · have hfew : m.card < s.threshold := by
      rcases hquiet with hstopped | hfew | ⟨b, hb, hle⟩
      · rw [hrunning] at hstopped
        cases hstopped
      · exact hfew
      · exact absurd (h b hb) (Nat.not_lt.2 hle)
    rw [hsame, List.filter_cons_of_neg (by simpa using hfew)]
    rfl
  · rw [hpublish, List.filter_cons_of_pos (by simpa using henough)]
    rfl

/-- An event stops a running node, or leaves what it holds and has published as
it is, or changes what it holds and publishes the new whole if that has enough
contributions. -/
theorem UpToDate.step_running (current : UpToDate s n) (fit : Fit s n) (sound : s.Sound)
    (hrunning : n.phase = .running) {m : Multisig σ}
    (hm : n.holdings.whole s.scheme s.place = .ok (some m)) {e : Event}
    (h : n.step s e = .ok n') :
    n'.phase = .stopped ∧ n'.published = n.published ∨
      n'.phase = .running ∧ n'.holdings = n.holdings ∧ n'.published = n.published ∨
      n'.phase = .running ∧ n'.holdings ≠ n.holdings ∧
        ∃ m', n'.holdings.whole s.scheme s.place = .ok (some m') ∧ m.card < m'.card ∧
          n'.published = finals s [m'] ++ n.published := by
  obtain ⟨n₁, worked, hphase, hcases⟩ := fit.step_cases sound h
  rcases hcases with ⟨hheld, -, rfl⟩ | ⟨m₁, hm₁, hrunning₁, rfl⟩
  · rw [hrunning] at hphase
    rcases Phase.running_after e with hafter | hafter
    · exact .inr (.inl ⟨hphase.trans hafter, hheld, worked.published_eq⟩)
    · exact .inl ⟨hphase.trans hafter, worked.published_eq⟩
  · rw [phase_concluding, holdings_concluding]
    by_cases heq : n₁.holdings = n.holdings
    · obtain rfl : m = m₁ := by
        rw [heq, hm] at hm₁
        exact Option.some.inj (Except.ok.inj hm₁)
      refine .inr (.inl ⟨hrunning₁, heq, ?_⟩)
      rw [concluding_of_current fun hcard => ?_]
      · exact worked.published_eq
      · rw [worked.best_eq]
        exact current.best_eq hrunning m hm hcard
    · have hlt := worked.card_lt fit sound heq hm hm₁
      refine .inr (.inr ⟨hrunning₁, heq, m₁, hm₁, hlt, ?_⟩)
      rw [published_concluding hrunning₁ fun b hb => ?_, worked.published_eq]
      rw [worked.best_eq] at hb
      rcases current.best_le b m hb hm with rfl | hle
      · exact hlt
      · exact Nat.lt_trans hle hlt

theorem card_whole_le (fit : Fit s n) (sound : s.Sound) {m : Multisig σ}
    (hm : n.holdings.whole s.scheme s.place = .ok (some m)) : m.card ≤ s.place.size := by
  have hgathers := Holdings.gathers_of_whole fit.tidy sound.size_le_limit hm
  have hlen : m.mask.length = s.place.size := hgathers.length_eq
  exact hlen ▸ m.mask.card_le_length

theorem Fit.states_stopped (fit : Fit s n) (sound : s.Sound) (hstopped : n.phase = .stopped)
    (events : List Event) :
    ∃ nodes n', states s events n = .ok nodes ∧ Node.run s events n = .ok n' ∧
      (∀ n ∈ nodes, n.phase ≠ .running) ∧ n'.phase ≠ .running ∧ n'.published = n.published := by
  have hidle : n.phase ≠ .running := by
    rw [hstopped]
    decide
  induction events generalizing n with
  | nil => exact ⟨[n], n, rfl, rfl, by simpa using hidle, hidle, rfl⟩
  | cons e rest ih =>
      obtain ⟨n₁, hstep, fit₁⟩ := fit.step sound e
      obtain ⟨hphase, hjournal⟩ := step_stopped fit sound hstopped hstep
      have hidle₁ : n₁.phase ≠ .running := hphase ▸ hstopped ▸ hidle
      obtain ⟨nodes, n', hstates, hrun, hall, hidle', hpublished⟩ := ih fit₁ hphase hidle₁
      refine ⟨n :: nodes, n', states_cons hstep hstates, (run_cons hstep).trans hrun,
        List.forall_mem_cons.2 ⟨hidle, hall⟩, hidle', hpublished.trans ?_⟩
      unfold published
      rw [hjournal]

section
variable [DecidableEq σ]

/-- On its way through `nodes` to `n'`, all that a node holds amounts to one of
`values` after the other. -/
structure History (s : Setup κ σ) (nodes : List (Node κ σ)) (n' : Node κ σ)
    (values : List (Multisig σ)) : Prop where
  amounts : (heldInTurn nodes).map (·.whole s.scheme s.place) = values.map fun m => .ok (some m)
  rising : values.Pairwise (·.card < ·.card)
  bounded : ∀ m ∈ values, m.card ≤ s.place.size
  current : n'.phase = .running →
    ∃ m, n'.holdings.whole s.scheme s.place = .ok (some m) ∧ values.getLast? = some m

namespace History

variable {m : Multisig σ} {values : List (Multisig σ)}

theorem idle (h : ∀ n ∈ nodes, n.phase ≠ .running) (h' : n'.phase ≠ .running) :
    History s nodes n' [] where
  amounts := by
    rw [heldInTurn_idle h]
    rfl
  rising := .nil
  bounded := nofun
  current hrunning := absurd hrunning h'

theorem cons_idle (history : History s nodes n' values) (h : n.phase ≠ .running) :
    History s (n :: nodes) n' values where
  amounts := by
    rw [heldInTurn_cons_idle h]
    exact history.amounts
  rising := history.rising
  bounded := history.bounded
  current := history.current

/-- The node stays running to the end, or is stopped next. -/
theorem last (fit : Fit s n) (sound : s.Sound) (hrunning : n.phase = .running)
    (hm : n.holdings.whole s.scheme s.place = .ok (some m))
    (h : ∀ n ∈ nodes, n.phase ≠ .running) (h' : n' = n ∨ n'.phase ≠ .running) :
    History s (n :: nodes) n' [m] where
  amounts := by
    rw [heldInTurn_last hrunning h, List.map_singleton, hm]
    rfl
  rising := List.pairwise_singleton _ _
  bounded m' hm' := by
    obtain rfl := List.mem_singleton.1 hm'
    exact card_whole_le fit sound hm
  current hrunning' := by
    rcases h' with rfl | hidle
    · exact ⟨m, hm, rfl⟩
    · exact absurd hrunning' hidle

theorem cons_same {first : Node κ σ} (history : History s (n :: nodes) n' values)
    (hrunning : first.phase = .running) (hrunning' : n.phase = .running)
    (heq : n.holdings = first.holdings) : History s (first :: n :: nodes) n' values where
  amounts := by
    rw [heldInTurn_cons hrunning hrunning', if_pos heq]
    exact history.amounts
  rising := history.rising
  bounded := history.bounded
  current := history.current

theorem cons_changed {first : Node κ σ} {m' : Multisig σ}
    (history : History s (n :: nodes) n' (m' :: values)) (hrunning : first.phase = .running)
    (hrunning' : n.phase = .running) (hne : n.holdings ≠ first.holdings)
    (hm : first.holdings.whole s.scheme s.place = .ok (some m)) (hlt : m.card < m'.card) :
    History s (first :: n :: nodes) n' (m :: m' :: values) where
  amounts := by
    rw [heldInTurn_cons hrunning hrunning', if_neg hne, List.map_cons, hm, history.amounts]
    rfl
  rising := by
    refine List.pairwise_cons.2 ⟨List.forall_mem_cons.2 ⟨hlt, fun v hv => ?_⟩, history.rising⟩
    exact Nat.lt_trans hlt ((List.pairwise_cons.1 history.rising).1 v hv)
  bounded := by
    have hbounded := history.bounded
    refine List.forall_mem_cons.2 ⟨?_, hbounded⟩
    exact Nat.le_trans (Nat.le_of_lt hlt) (hbounded m' List.mem_cons_self)
  current := by
    rw [List.getLast?_cons_cons]
    exact history.current

/-- Each final has more contributions than the one before it, from the least
number that is enough to the number of members. -/
theorem length_finals_le (history : History s nodes n' values) :
    (finals s values).length ≤ s.place.size + 1 - s.threshold := by
  have hrising : ((finals s values).map (·.card)).Pairwise (· > ·) :=
    List.pairwise_map.2 (List.pairwise_reverse.2 (history.rising.sublist List.filter_sublist))
  have hsub : (finals s values).map (·.card) ⊆
      List.range' s.threshold (s.place.size + 1 - s.threshold) := by
    intro card hcard
    obtain ⟨m, hm, rfl⟩ := List.mem_map.1 hcard
    obtain ⟨hmem, henough⟩ := mem_finals.1 hm
    have := history.bounded m hmem
    rw [List.mem_range'_1]
    omega
  have hlen := (List.Nodup.subperm (hrising.imp Nat.ne_of_gt) hsub).length_le
  rwa [List.length_map, List.length_range'] at hlen

/-- What a running node has published last is all it holds, if that is enough;
otherwise it has published nothing. -/
theorem finals_current (history : History s nodes n' values) (hrunning : n'.phase = .running) :
    ∃ m, n'.holdings.whole s.scheme s.place = .ok (some m) ∧
      (s.threshold ≤ m.card → (finals s values).head? = some m) ∧
      (m.card < s.threshold → finals s values = []) := by
  obtain ⟨m, hm, hlast⟩ := history.current hrunning
  obtain ⟨earlier, rfl⟩ := List.getLast?_eq_some_iff.1 hlast
  refine ⟨m, hm, fun henough => ?_, fun hfew => ?_⟩
  · rw [finals, List.filter_append, List.reverse_append,
      List.filter_cons_of_pos (by simpa using henough)]
    rfl
  · rw [List.eq_nil_iff_forall_not_mem]
    intro m' hm'
    obtain ⟨hmem, henough⟩ := mem_finals.1 hm'
    have hle : m'.card ≤ m.card := by
      rcases List.mem_append.1 hmem with hmem | hmem
      · have hlt := (List.pairwise_append.1 history.rising).2.2 m' hmem m List.mem_cons_self
        exact Nat.le_of_lt hlt
      · obtain rfl := List.mem_singleton.1 hmem
        exact Nat.le_refl _
    omega

end History

/-- From when it runs on, a node publishes whatever all it holds amounts to,
after each change, that has enough contributions. -/
theorem UpToDate.history_running (current : UpToDate s n) (fit : Fit s n) (sound : s.Sound)
    (hrunning : n.phase = .running) {m : Multisig σ}
    (hm : n.holdings.whole s.scheme s.place = .ok (some m)) (events : List Event) :
    ∃ nodes n' later, states s events n = .ok (n :: nodes) ∧ run s events n = .ok n' ∧
      History s (n :: nodes) n' (m :: later) ∧
      n'.published = finals s later ++ n.published := by
  induction events generalizing n m with
  | nil => exact ⟨[], n, [], rfl, rfl, .last fit sound hrunning hm nofun (.inl rfl), rfl⟩
  | cons e rest ih =>
      obtain ⟨n₁, hstep, fit₁⟩ := fit.step sound e
      have current₁ := current.step fit sound hstep
      -- The history starts with what is held now; the event decides how it goes on from there.
      rcases current.step_running fit sound hrunning hm hstep with
        ⟨hstopped, hsame⟩ | ⟨hrunning₁, hheld, hsame⟩ | ⟨hrunning₁, hne, m₁, hm₁, hlt, hmore⟩
      · obtain ⟨nodes, n', hstates, hrun, hidle, hidle', hpublished⟩ :=
          fit₁.states_stopped sound hstopped rest
        exact ⟨nodes, n', [], states_cons hstep hstates, (run_cons hstep).trans hrun,
          .last fit sound hrunning hm hidle (.inr hidle'), hpublished.trans hsame⟩
      · obtain ⟨nodes, n', later, hstates, hrun, history, hpublished⟩ :=
          ih current₁ fit₁ hrunning₁ (hheld ▸ hm)
        exact ⟨n₁ :: nodes, n', later, states_cons hstep hstates, (run_cons hstep).trans hrun,
          history.cons_same hrunning hrunning₁ hheld, hsame ▸ hpublished⟩
      · obtain ⟨nodes, n', later, hstates, hrun, history, hpublished⟩ :=
          ih current₁ fit₁ hrunning₁ hm₁
        refine ⟨n₁ :: nodes, n', m₁ :: later, states_cons hstep hstates,
          (run_cons hstep).trans hrun, history.cons_changed hrunning hrunning₁ hne hm hlt, ?_⟩
        rw [hpublished, hmore, finals_cons s m₁ later, List.append_assoc]

theorem UpToDate.history_waiting (current : UpToDate s n) (fit : Fit s n) (sound : s.Sound)
    (hwaiting : n.phase = .waiting) (hbest : n.best = none) (events : List Event) :
    ∃ nodes n' values, states s events n = .ok nodes ∧ run s events n = .ok n' ∧
      History s nodes n' values ∧
      n'.published = finals s values ++ n.published := by
  have hidle : n.phase ≠ .running := by
    rw [hwaiting]
    decide
  induction events generalizing n with
  | nil => exact ⟨[n], n, [], rfl, rfl, .idle (by simpa using hidle) hidle, rfl⟩
  | cons e rest ih =>
      obtain ⟨n₁, hstep, fit₁⟩ := fit.step sound e
      have current₁ := current.step fit sound hstep
      obtain ⟨n₂, worked, -, hcases⟩ := fit.step_cases sound hstep
      rcases hcases with ⟨-, hphase, rfl⟩ | ⟨m, hm, hrunning, rfl⟩
      · -- Without a look for something to publish the node has not been started yet.
        have hidle₁ : n₁.phase ≠ .running := mt hphase hidle
        cases hphase₁ : n₁.phase with
        | waiting =>
            obtain ⟨nodes, n', values, hstates, hrun, history, hpublished⟩ :=
              ih current₁ fit₁ hphase₁ (worked.best_eq.trans hbest) hidle₁
            exact ⟨n :: nodes, n', values, states_cons hstep hstates, (run_cons hstep).trans hrun,
              history.cons_idle hidle, worked.published_eq ▸ hpublished⟩
        | running => exact absurd hphase₁ hidle₁
        | stopped =>
            obtain ⟨nodes, n', hstates, hrun, hall, hidle', hpublished⟩ :=
              fit₁.states_stopped sound hphase₁ rest
            exact ⟨n :: nodes, n', [], states_cons hstep hstates, (run_cons hstep).trans hrun,
              .cons_idle (.idle hall hidle') hidle, hpublished.trans worked.published_eq⟩
      · have hnone : ∀ b, n₂.best = some b → b.card < m.card := fun b hb => by
          rw [worked.best_eq, hbest] at hb
          cases hb
        have hfirst := published_concluding (s := s) hrunning hnone
        rw [← holdings_concluding (s := s) m] at hm
        rw [← phase_concluding (s := s) m] at hrunning
        obtain ⟨nodes, n', later, hstates, hrun, history, hpublished⟩ :=
          current₁.history_running fit₁ sound hrunning hm rest
        refine ⟨n :: _, n', m :: later, states_cons hstep hstates, (run_cons hstep).trans hrun,
          history.cons_idle hidle, ?_⟩
        rw [hpublished, hfirst, worked.published_eq, finals_cons s m later, List.append_assoc]

/-- In every run of a node, what it publishes is what all it holds amounts to, at
its start and after each change of its holdings up to its stop, as far as there
are enough contributions: each of these values once, in their order. So while it
runs, the last final is all it holds, or nothing is published if that is not
enough; and there are no more finals than numbers of contributions that are
enough. -/
theorem published_follows {roster : Roster κ} (hdense : roster.Dense) {settings : Settings}
    (hvalid : settings.validate = .ok ()) (hword : settings.candidates < Word.limit) {id : Int32}
    (hid : 0 ≤ id.toInt ∧ id.toInt.toNat < roster.size) (scheme : Scheme κ σ)
    (message : List UInt8) (order : ContactOrder) (evaluator : Evaluator σ)
    (exclusion : Exclusion) (pace : Pace) (own : σ) (events : List Event) :
    ∃ s nodes n, ∃ values : List (Multisig σ),
      Setup.create scheme roster id message settings order evaluator exclusion pace = .ok s ∧
      states s events (create s own) = .ok nodes ∧ run s events (create s own) = .ok n ∧
      n.phase = events.foldl Phase.after .waiting ∧
      (heldInTurn nodes).map (·.whole s.scheme s.place) = values.map (fun m => .ok (some m)) ∧
      values.Pairwise (·.card < ·.card) ∧
      n.published.reverse = values.filter (s.threshold ≤ ·.card) ∧
      (n.phase = .running → ∃ m, n.holdings.whole s.scheme s.place = .ok (some m) ∧
        (s.threshold ≤ m.card → n.published.head? = some m) ∧
        (m.card < s.threshold → n.published = [])) ∧
      s.threshold ≤ roster.size ∧ n.published.length ≤ roster.size - s.threshold + 1 := by
  obtain ⟨s, hs⟩ := Setup.exists_create hdense hvalid hid scheme message order evaluator exclusion
    pace
  have sound := Setup.sound_of_create hdense hword hs
  have fit := fit_create s own
  obtain ⟨nodes, n, values, hstates, hrun, history, hpublished⟩ :=
    (upToDate_create s own).history_waiting fit sound rfl rfl events
  replace hpublished : n.published = finals s values := hpublished.trans (List.append_nil _)
  have hthreshold := Setup.threshold_le hs
  refine ⟨s, nodes, n, values, hs, hstates, hrun, fit.phase_run sound hrun, history.amounts,
    history.rising, ?_, ?_, hthreshold, ?_⟩
  · rw [hpublished, finals, List.reverse_reverse]
  · rw [hpublished]
    exact history.finals_current
  · obtain ⟨-, -, -, -, -, -, -, hsize, -⟩ := Setup.eq_of_create hs
    have hlen := history.length_finals_le
    rw [hpublished]
    omega

end

/-- The second of three members, which hears from both others, starts with too
few contributions and has enough after the first. -/
theorem published_follows_of_three :
    (Plain.roster 3).Dense ∧ ({ quorumPercent := 60 } : Settings).validate = .ok () ∧
      10 < Word.limit ∧ (0 ≤ Int32.toInt 1 ∧ (Int32.toInt 1).toNat < (Plain.roster 3).size) ∧
      ∃ s nodes n, ∃ values : List (Multisig Plain.Signature),
        Setup.create Plain.scheme (Plain.roster 3) 1 [7] { quorumPercent := 60 } .ascending
          .byGain .never .idle = .ok s ∧
        states s [.start, .receive ⟨0, 1, [0, 3, 0, 1, 12, 1, 0, 0, 0, 0]⟩, .pass, .takeIn,
          .receive ⟨2, 2, [0, 3, 0, 1, 12, 1, 0, 0, 0, 2]⟩, .pass, .takeIn]
          (create s (Plain.sign 1)) = .ok nodes ∧
        run s [.start, .receive ⟨0, 1, [0, 3, 0, 1, 12, 1, 0, 0, 0, 0]⟩, .pass, .takeIn,
          .receive ⟨2, 2, [0, 3, 0, 1, 12, 1, 0, 0, 0, 2]⟩, .pass, .takeIn]
          (create s (Plain.sign 1)) = .ok n ∧
        n.phase = .running ∧
        (heldInTurn nodes).map (·.whole s.scheme s.place) = values.map (fun m => .ok (some m)) ∧
        n.published.reverse = values.filter (s.threshold ≤ ·.card) ∧
        n.published.length ≤ 3 - s.threshold + 1 := by
  have hsize : (Plain.roster 3).size = 3 := Plain.size_roster 3
  have hid : 0 ≤ Int32.toInt 1 ∧ (Int32.toInt 1).toNat < (Plain.roster 3).size := by
    rw [hsize]
    decide
  have hvalid : ({ quorumPercent := 60 } : Settings).validate = .ok () := by decide
  refine ⟨Plain.dense_roster 3, hvalid, by decide, hid, ?_⟩
  obtain ⟨s, nodes, n, values, hs, hstates, hrun, hphase, hamounts, -, hpublished, -, -, hlen⟩ :=
    published_follows (Plain.dense_roster 3) hvalid (by decide) hid Plain.scheme [7] .ascending
      .byGain .never .idle (Plain.sign 1)
      [.start, .receive ⟨0, 1, [0, 3, 0, 1, 12, 1, 0, 0, 0, 0]⟩, .pass, .takeIn,
        .receive ⟨2, 2, [0, 3, 0, 1, 12, 1, 0, 0, 0, 2]⟩, .pass, .takeIn]
  exact ⟨s, nodes, n, values, hs, hstates, hrun, hphase, hamounts, hpublished, hsize ▸ hlen⟩

end Node

end MultisigTree
