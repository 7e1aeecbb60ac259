import MultisigTree.Proofs.Clusters
import MultisigTree.Proofs.Reciprocity

/-!
# No cluster is stuck

A cluster is quiescent if nothing is in transit, nothing waits at any node, and
no update would send anything. Then every node has told all it shows below the
levels it has entered to their members, and they have taken it in. By induction
on the level, what a node holds for a level is all there is: the contributions
of the members of the level that have a node. So if no member lacks a node, or
all levels have been started, every node holds, and has published, one
signature of exactly those members (`Cluster.gathered_plain`).
-/
namespace MultisigTree

variable {κ σ : Type}

/-- An update would send nothing. -/
def Node.isQuiet (s : Setup κ σ) (n : Node κ σ) : Bool :=
  match n.renew s with
  | .ok n' => (n.actionsSince n').isEmpty
  | .error _ => false

theorem Node.exists_renew_of_isQuiet {s : Setup κ σ} {n : Node κ σ} (h : n.isQuiet s = true) :
    ∃ n', n.renew s = .ok n' ∧ n'.journal.length ≤ n.journal.length := by
  unfold isQuiet at h
  split at h
  · rename_i n' hrenew
    refine ⟨n', hrenew, ?_⟩
    unfold actionsSince at h
    rw [List.isEmpty_iff, List.reverse_eq_nil_iff, List.take_eq_nil_iff] at h
    rcases h with hlength | hnil
    · exact Nat.le_of_sub_eq_zero hlength
    · rw [hnil]
      exact Nat.zero_le _
  · cases h

namespace Cluster

instance (setups : List (Setup κ σ)) : DecidablePred (Online setups) := fun i =>
  inferInstanceAs (Decidable (∃ s ∈ setups, s.place.leaf = i))

def onlineAt (setups : List (Setup κ σ)) (p : Place) (level : Nat) : Finset Nat :=
  (Finset.range p.size).filter fun i => Online setups i ∧ p.levelOf i = level

/-- Nothing is going to happen. -/
structure Quiescent (c : Cluster κ σ) : Prop where
  delivered : c.transit = []
  running : ∀ seat ∈ c.seats, seat.node.phase = .running
  atRest : ∀ seat ∈ c.seats, seat.node.isAtRest = true
  quiet : ∀ seat ∈ c.seats, seat.node.isQuiet seat.setup = true

instance (c : Cluster κ σ) : Decidable (Quiescent c) :=
  decidable_of_iff (c.transit = [] ∧ (∀ seat ∈ c.seats, seat.node.phase = .running) ∧
      (∀ seat ∈ c.seats, seat.node.isAtRest = true) ∧
      ∀ seat ∈ c.seats, seat.node.isQuiet seat.setup = true)
    ⟨fun h => ⟨h.1, h.2.1, h.2.2.1, h.2.2.2⟩, fun h => ⟨h.1, h.2, h.3, h.4⟩⟩

/-- All the levels of a node that have members have been started. -/
def Started (seat : Seat κ σ) : Prop :=
  ∀ level, 0 < level → level ≤ seat.setup.maxLevel → 0 < seat.setup.place.sizeAt level →
    level ∈ seat.node.started

variable {c : Cluster κ σ} {setups : List (Setup κ σ)} {p : Place}

theorem mem_onlineAt {level i : Nat} :
    i ∈ onlineAt setups p level ↔ i < p.size ∧ Online setups i ∧ p.levelOf i = level := by
  unfold onlineAt
  rw [Finset.mem_filter, Finset.mem_range]

theorem card_toFinset_marks (m : Multisig σ) (lo : Nat) : (m.marks lo).toFinset.card = m.card := by
  rw [List.toFinset_card_of_nodup (Multisig.nodup_marks m lo), Multisig.length_marks]

theorem marks_subset_onlineAt {h : Holdings σ} (tidy : h.Tidy p)
    (hwithin : h.Each (p.Within (Online setups))) {level : Nat} {m : Multisig σ}
    (hbest : h.best? level = some m) :
    (m.marks (p.startOf level)).toFinset ⊆ onlineAt setups p level := by
  intro i hi
  rw [List.mem_toFinset] at hi
  obtain ⟨hlt, hlevel⟩ := (tidy.suits level m hbest).mem_marks hi
  exact mem_onlineAt.2 ⟨hlt, hwithin level m hbest i hi, hlevel⟩

theorem count_le_onlineAt {h : Holdings σ} (tidy : h.Tidy p)
    (hwithin : h.Each (p.Within (Online setups))) (level : Nat) :
    h.count level ≤ (onlineAt setups p level).card := by
  unfold Holdings.count
  cases hbest : h.best? level with
  | none => exact Nat.zero_le _
  | some m =>
      rw [Option.elim_some, ← card_toFinset_marks m (p.startOf level)]
      exact Finset.card_le_card (marks_subset_onlineAt tidy hwithin hbest)

theorem sum_card_onlineAt (bound : Nat) :
    ∑ level ∈ Finset.range bound, (onlineAt setups p level).card =
      ((Finset.range p.size).filter fun i => Online setups i ∧ p.levelOf i < bound).card := by
  have hmaps : ∀ i ∈ (Finset.range p.size).filter fun i => Online setups i ∧ p.levelOf i < bound,
      p.levelOf i ∈ Finset.range bound := by
    intro i hi
    exact Finset.mem_range.2 (Finset.mem_filter.1 hi).2.2
  rw [Finset.card_eq_sum_card_fiberwise hmaps]
  apply Finset.sum_congr rfl
  intro level hlevel
  congr 1
  ext i
  have := Finset.mem_range.1 hlevel
  simp only [onlineAt, Finset.mem_filter]
  constructor
  · rintro ⟨hi, honline, rfl⟩
    exact ⟨⟨hi, honline, this⟩, rfl⟩
  · rintro ⟨⟨hi, honline, -⟩, rfl⟩
    exact ⟨hi, honline, rfl⟩

theorem card_onlineAt_of_all (hall : ∀ i < p.size, Online setups i) {level : Nat}
    (hle : level ≤ p.maxLevel) : (onlineAt setups p level).card = p.sizeAt level := by
  rw [← Place.card_levelOf hle]
  congr 1
  ext i
  rw [mem_onlineAt, Finset.mem_filter, Finset.mem_range]
  constructor
  · rintro ⟨hi, -, hlevel⟩
    exact ⟨hi, hlevel⟩
  · rintro ⟨hi, hlevel⟩
    exact ⟨hi, hall i hi, hlevel⟩

/-- Holdings that have, for each level, the contributions of all its members
with a node, show exactly the members that have one. -/
theorem shows_iff_online {h : Holdings σ} (tidy : h.Tidy p)
    (hwithin : h.Each (p.Within (Online setups)))
    (hcount : ∀ level, h.count level = (onlineAt setups p level).card) {i : Nat} :
    h.Shows p i ↔ i < p.size ∧ Online setups i := by
  constructor
  · intro hshows
    obtain ⟨m, hbest, hi⟩ := hshows
    exact ⟨tidy.suits.shows_lt ⟨m, hbest, hi⟩, hwithin _ m hbest i hi⟩
  · rintro ⟨hlt, honline⟩
    have hmem : i ∈ onlineAt setups p (p.levelOf i) := mem_onlineAt.2 ⟨hlt, honline, rfl⟩
    have hcard := hcount (p.levelOf i)
    unfold Holdings.count at hcard
    cases hbest : h.best? (p.levelOf i) with
    | none =>
        rw [hbest] at hcard
        exact absurd hcard (Finset.card_pos.2 ⟨i, hmem⟩).ne
    | some m =>
        refine ⟨m, hbest, ?_⟩
        rw [hbest, Option.elim_some, ← card_toFinset_marks m (p.startOf (p.levelOf i))] at hcard
        rw [← Finset.eq_of_subset_of_card_le (marks_subset_onlineAt tidy hwithin hbest) hcard.ge,
          List.mem_toFinset] at hmem
        exact hmem

theorem Company.nodup_leaves (company : Company setups) :
    (setups.map (·.place.leaf)).Nodup := by
  unfold List.Nodup
  rw [List.pairwise_map]
  apply (List.pairwise_map.1 company.nodup).imp_of_mem
  intro s t hs ht hne heq
  apply hne
  apply Int32.toInt_inj.1
  rw [(company.sound s hs).leaf_eq, (company.sound t ht).leaf_eq, heq]

section
variable {a b : Seat κ σ} (company : Company c.setups) (order : InOrder c)
  (quiescent : Quiescent c)
include company

theorem Company.size_eq (ha : a ∈ c.seats) (hb : b ∈ c.seats) :
    a.setup.place.size = b.setup.place.size := by
  have hself : a.setup ∈ c.setups := List.mem_map.2 ⟨a, ha, rfl⟩
  have hother : b.setup ∈ c.setups := List.mem_map.2 ⟨b, hb, rfl⟩
  rw [(company.sound _ hself).size_eq, (company.sound _ hother).size_eq,
    (company.fellows _ hself _ hother).roster_eq]

include order quiescent

/-- In a quiescent cluster all that a node shows below a level that it has
entered is held by each member of the level, for that level. -/
theorem below_le_count (ha : a ∈ c.seats) (hb : b ∈ c.seats) {level : Nat}
    (hlevel : a.setup.place.levelOf b.setup.place.leaf = level)
    (hstarted : level ∈ a.node.started) :
    a.node.holdings.below level ≤ b.node.holdings.count level := by
  have hself : a.setup ∈ c.setups := List.mem_map.2 ⟨a, ha, rfl⟩
  have hother : b.setup ∈ c.setups := List.mem_map.2 ⟨b, hb, rfl⟩
  have sound := company.sound _ hself
  have sound' := company.sound _ hother
  have good := order.good a ha
  have hlt : b.setup.place.leaf < a.setup.place.size := by
    rw [company.size_eq ha hb]
    exact b.setup.place.leaf_lt
  obtain ⟨node, hrenew, hjournal⟩ := Node.exists_renew_of_isQuiet (quiescent.quiet a ha)
  obtain ⟨receivers, packet, m, r, hsend, hbyte, hpayload, hcard, hr, hmem⟩ :=
    Node.informed_of_quiet sound (company.small _ hself) good.hale.rounds good.fit
      (quiescent.running a ha) hrenew hjournal hstarted hlt hlevel
  have hid : b.setup.id = r.id := by
    have hnumber := sound.dense.toInt_id (sound.size_eq ▸ hlt) hr
    exact Int32.toInt_inj.1 (sound'.leaf_eq.trans hnumber.symm)
  obtain ⟨o, hread, -, -⟩ := order.trusted a ha receivers packet hsend r hmem _ hother hid
  obtain ⟨-, -, -, m', hdecode, -, -, -, ho⟩ := Setup.read_eq_ok_iff.1 hread
  have hm : m' = m := by
    rw [(company.fellows _ hself _ hother).scheme_eq,
      Multisig.decode_encode ((company.lawful _ hself).decode_encode _) hpayload] at hdecode
    exact (Except.ok.inj hdecode).symm
  have htoNat : packet.level.toNat = level := by
    rw [hbyte]
    exact sound.toNat_level (hlevel ▸ a.setup.place.levelOf_le_maxLevel hlt)
  rcases order.arrives a ha receivers packet hsend r hmem b hb hid with htransit | hcovers
  · rw [quiescent.delivered] at htransit
    cases htransit
  · have hle := (hcovers o hread).le_count (quiescent.atRest b hb)
    rw [ho] at hle
    dsimp only at hle
    rwa [hm, hcard, htoNat] at hle

/-- All the contributions there are, for one level of one node. -/
def Whole (setups : List (Setup κ σ)) (seat : Seat κ σ) (level : Nat) : Prop :=
  seat.node.holdings.count level = (onlineAt setups seat.setup.place level).card

omit company quiescent in
theorem whole_zero (hb : b ∈ c.seats) : Whole c.setups b 0 := by
  have good := order.good b hb
  apply Nat.le_antisymm
  · exact count_le_onlineAt good.fit.tidy good.hale.held 0
  · obtain ⟨own, hown⟩ := good.fit.tidy.own
    rw [Holdings.count_eq hown]
    have hpos : 0 < own.card := good.fit.tidy.marked 0 own hown
    have hcard : (onlineAt c.setups b.setup.place 0).card ≤ 1 := by
      rw [Finset.card_le_one]
      intro i hi j hj
      have hileaf := b.setup.place.levelOf_eq_zero_iff.1 (mem_onlineAt.1 hi).2.2
      have hjleaf := b.setup.place.levelOf_eq_zero_iff.1 (mem_onlineAt.1 hj).2.2
      rw [hileaf, hjleaf]
    omega

omit order quiescent in
/-- The members with a node that one node has below the level of another one are
those that the other has on that level. -/
theorem sum_card_below (ha : a ∈ c.seats) (hb : b ∈ c.seats)
    (hpos : 0 < a.setup.place.levelOf b.setup.place.leaf) :
    ∑ lower ∈ Finset.range (a.setup.place.levelOf b.setup.place.leaf),
        (onlineAt c.setups a.setup.place lower).card =
      (onlineAt c.setups b.setup.place (a.setup.place.levelOf b.setup.place.leaf)).card := by
  have hsize := company.size_eq ha hb
  rw [sum_card_onlineAt]
  congr 1
  ext i
  rw [mem_onlineAt, Finset.mem_filter, Finset.mem_range, ← hsize]
  apply and_congr_right
  intro hi
  apply and_congr_right
  intro _
  exact Place.levelOf_lt_iff hsize hpos hi

/-- If nodes have entered each level below which they hold all there is, then
they hold all there is for every level. -/
theorem whole_of_entered (hentered : ∀ seat ∈ c.seats, ∀ level, 0 < level →
      level ≤ seat.setup.maxLevel → 0 < seat.setup.place.sizeAt level →
      (∀ lower < level, Whole c.setups seat lower) → level ∈ seat.node.started)
    (hb : b ∈ c.seats) (level : Nat) : Whole c.setups b level := by
  -- Nodes on the same level hear what others hold below it.
  induction level using Nat.strong_induction_on generalizing b with
  | h level ih =>
      rcases Nat.eq_zero_or_pos level with rfl | hpos
      · exact whole_zero order hb
      · have good := order.good b hb
        apply Nat.le_antisymm
        · exact count_le_onlineAt good.fit.tidy good.hale.held level
        · rcases (onlineAt c.setups b.setup.place level).eq_empty_or_nonempty with hnone | ⟨i, hi⟩
          · rw [hnone]
            exact Nat.zero_le _
          · obtain ⟨-, ⟨s, hs, hleaf⟩, hlevel⟩ := mem_onlineAt.1 hi
            obtain ⟨a, ha, rfl⟩ := List.mem_map.1 hs
            rw [← hleaf, Place.levelOf_comm] at hlevel
            subst hlevel
            have hlt : b.setup.place.leaf < a.setup.place.size := by
              rw [company.size_eq ha hb]
              exact b.setup.place.leaf_lt
            have hle := a.setup.place.levelOf_le_maxLevel hlt
            obtain ⟨w, hw⟩ := a.setup.place.exists_peers hlt rfl
            have hstarted := hentered a ha _ hpos hle (a.setup.place.sizeAt_pos hle hw)
              fun lower hlower => ih lower hlower ha
            calc (onlineAt c.setups b.setup.place _).card
                = ∑ lower ∈ Finset.range (a.setup.place.levelOf b.setup.place.leaf),
                    (onlineAt c.setups a.setup.place lower).card :=
                  (sum_card_below company ha hb hpos).symm
              _ = a.node.holdings.below (a.setup.place.levelOf b.setup.place.leaf) := by
                  apply Finset.sum_congr rfl
                  intro lower hlower
                  exact (ih lower (Finset.mem_range.1 hlower) ha).symm
              _ ≤ b.node.holdings.count (a.setup.place.levelOf b.setup.place.leaf) :=
                  below_le_count company order quiescent ha hb rfl hstarted

omit company in
theorem entered_of_all {size : Nat} (hsize : b.setup.place.size = size)
    (hall : ∀ i < size, Online c.setups i) (hb : b ∈ c.seats) {level : Nat} (hpos : 0 < level)
    (hle : level ≤ b.setup.maxLevel) (hmembers : 0 < b.setup.place.sizeAt level)
    (hwhole : ∀ lower < level, Whole c.setups b lower) : level ∈ b.node.started := by
  have fit := (order.good b hb).fit
  apply (fit.mem_started level).2
  refine ⟨hpos, ?_, hmembers⟩
  by_contra hlt
  rw [Nat.not_le] at hlt
  rcases fit.parked with hparked | ⟨-, hphase⟩
  · obtain ⟨hstand, hincomplete⟩ := hparked (Nat.lt_of_lt_of_le hlt hle)
    apply hincomplete
    apply (fit.mem_completed b.node.level).2
    right
    refine ⟨hstand, (hwhole b.node.level hlt).trans ?_⟩
    exact card_onlineAt_of_all (hsize.symm ▸ hall) fit.level_le
  · exact hphase (quiescent.running b hb)

/-- A node that holds all there is has, and has published if it is enough, one
signature of exactly the members that have a node. -/
theorem gathered_of_whole (hb : b ∈ c.seats) (hwhole : ∀ level, Whole c.setups b level) :
    ∃ m, b.node.holdings.whole b.setup.scheme b.setup.place = .ok (some m) ∧
      m.length = b.setup.place.size ∧ (∀ i, i ∈ m.mask.ones ↔ Online c.setups i) ∧
      b.setup.Vouches 0 m ∧
      (b.setup.threshold ≤ c.seats.length → b.node.published.head? = some m) := by
  have hself : b.setup ∈ c.setups := List.mem_map.2 ⟨b, hb, rfl⟩
  have sound := company.sound _ hself
  have good := order.good b hb
  obtain ⟨m, hm, hgathers⟩ :=
    Holdings.whole_eq good.fit.tidy b.setup.scheme sound.size_le_limit
  have hones : ∀ i, i ∈ m.mask.ones ↔ Online c.setups i := by
    intro i
    rw [← Node.mem_marks_zero, good.fit.tidy.mem_marks_iff hgathers,
      shows_iff_online good.fit.tidy good.hale.held hwhole]
    constructor
    · rintro ⟨⟨-, honline⟩, -⟩
      exact honline
    · intro honline
      obtain ⟨s, hs, hleaf⟩ := honline
      obtain ⟨a, ha, rfl⟩ := List.mem_map.1 hs
      have hlt : i < b.setup.place.size := by
        rw [← hleaf, company.size_eq hb ha]
        exact a.setup.place.leaf_lt
      exact ⟨⟨hlt, _, hs, hleaf⟩, Nat.lt_succ_of_le (b.setup.place.levelOf_le_maxLevel hlt)⟩
  have hcard : m.card = c.seats.length := by
    have hperm : m.mask.ones.Perm (c.setups.map (·.place.leaf)) := by
      apply (List.perm_ext_iff_of_nodup m.mask.nodup_ones company.nodup_leaves).2
      intro i
      rw [hones i, List.mem_map]
      exact Iff.rfl
    have hlen := hperm.length_eq
    unfold setups at hlen
    rw [List.length_map, List.length_map] at hlen
    exact hlen
  refine ⟨m, hm, hgathers.length_eq, hones, ?_, ?_⟩
  · exact Verifier.vouches_of_each (p := b.setup.place) (company.lawful _ hself) rfl
      good.backed.held hgathers
  · intro hthreshold
    rw [← good.backed.best_eq]
    apply good.current.best_eq (quiescent.running b hb) m hm
    rw [hcard]
    exact hthreshold

end

def found (founders : List (Setup κ σ × σ)) : Cluster κ σ :=
  ⟨founders.map fun f => ⟨f.1, Node.create f.1 f.2⟩, [], []⟩

theorem setups_found (founders : List (Setup κ σ × σ)) :
    (found founders).setups = founders.map (·.1) := by
  unfold setups found
  rw [List.map_map]
  rfl

theorem inOrder_found {founders : List (Setup κ σ × σ)}
    (hbacked : ∀ f ∈ founders, (Node.create f.1 f.2).Backed f.1) : InOrder (found founders) := by
  have hseat : ∀ seat ∈ (found founders).seats,
      ∃ f ∈ founders, seat = ⟨f.1, Node.create f.1 f.2⟩ := by
    intro seat hseat
    obtain ⟨f, hf, rfl⟩ := List.mem_map.1 hseat
    exact ⟨f, hf, rfl⟩
  constructor
  · intro seat h
    obtain ⟨f, hf, rfl⟩ := hseat seat h
    constructor
    · exact Node.fit_create f.1 f.2
    · exact hbacked f hf
    · exact Node.upToDate_create f.1 f.2
    · apply Node.hale_create
      rw [setups_found]
      exact ⟨f.1, List.mem_map.2 ⟨f, hf, rfl⟩, rfl⟩
  · exact nofun
  · intro seat h
    obtain ⟨f, -, rfl⟩ := hseat seat h
    exact nofun
  · intro seat h
    obtain ⟨f, -, rfl⟩ := hseat seat h
    exact nofun

section
variable {roster : Roster IdSet} {message : List UInt8}
  {founders : List (Setup IdSet Plain.Signature × Plain.Signature)}

/-- A member with its own signature of the message, whatever its settings are,
that hears everyone and evaluates by gain or not at all. -/
structure Founder (roster : Roster IdSet) (message : List UInt8)
    (f : Setup IdSet Plain.Signature × Plain.Signature) : Prop where
  created : ∃ settings order evaluator pace, settings.candidates < Word.limit ∧
    (evaluator = .byGain ∨ evaluator = .acceptAll) ∧
    Setup.create Plain.scheme roster f.1.id message settings order evaluator .never pace = .ok f.1
  verifies : Plain.scheme.verifies (.singleton f.1.id) message f.2 = true

theorem Founder.spec {f : Setup IdSet Plain.Signature × Plain.Signature} (hdense : roster.Dense)
    (founder : Founder roster message f) : f.1.Sound ∧ f.1.scheme = Plain.scheme ∧
      f.1.roster = roster ∧ f.1.message = message ∧ f.1.place.size = roster.size ∧
      f.1.evaluator.Fair ∧ f.1.exclusion = .never := by
  obtain ⟨settings, order, evaluator, pace, hword, hfair, hcreate⟩ := founder.created
  obtain ⟨hscheme, hroster, hmessage, -, -, hevaluator, hexclusion, hplace, -⟩ :=
    Setup.eq_of_create hcreate
  refine ⟨Setup.sound_of_create hdense hword hcreate, hscheme, hroster, hmessage, hplace, ?_,
    hexclusion⟩
  rw [hevaluator]
  rcases hfair with rfl | rfl
  · exact Evaluator.fair_byGain
  · exact Evaluator.fair_acceptAll

variable (hdense : roster.Dense)
include hdense

theorem company_of_founders (hsize : roster.size ≤ 2 ^ 16)
    (hnodup : (founders.map (·.1.id)).Nodup)
    (hfounders : ∀ f ∈ founders, Founder roster message f) :
    Company (founders.map (·.1)) := by
  have hspec : ∀ s ∈ founders.map (·.1), s.Sound ∧ s.scheme = Plain.scheme ∧ s.roster = roster ∧
      s.message = message ∧ s.place.size = roster.size ∧ s.evaluator.Fair ∧
      s.exclusion = .never := by
    intro s hs
    obtain ⟨f, hf, rfl⟩ := List.mem_map.1 hs
    exact (hfounders f hf).spec hdense
  constructor
  · rw [List.map_map]
    exact hnodup
  · exact fun s hs => (hspec s hs).1
  · intro s hs
    obtain ⟨-, -, -, -, hplace, -⟩ := hspec s hs
    rw [hplace]
    exact hsize
  · intro s hs
    rw [(hspec s hs).2.1]
    exact Plain.lawful_scheme
  · exact fun s hs => (hspec s hs).2.2.2.2.2.1
  · exact fun s hs => (hspec s hs).2.2.2.2.2.2
  · intro s hs t ht
    obtain ⟨-, hscheme, hroster, hmessage, -⟩ := hspec s hs
    obtain ⟨-, hscheme', hroster', hmessage', -⟩ := hspec t ht
    exact ⟨hscheme'.trans hscheme.symm, hroster'.trans hroster.symm, hmessage'.trans hmessage.symm⟩

variable (hkeyed : Plain.Keyed roster)
include hkeyed

theorem Founder.backed {f : Setup IdSet Plain.Signature × Plain.Signature}
    (founder : Founder roster message f) : (Node.create f.1 f.2).Backed f.1 := by
  obtain ⟨sound, -, -, -, hplace, -⟩ := founder.spec hdense
  have hid : 0 ≤ f.1.id.toInt ∧ f.1.id.toInt.toNat < roster.size := by
    rw [sound.leaf_eq, ← hplace]
    exact ⟨Int.natCast_nonneg _, f.1.place.leaf_lt⟩
  obtain ⟨member, hmember, hkey⟩ := Plain.exists_member hdense hkeyed hid
  obtain ⟨settings, order, evaluator, pace, -, -, hcreate⟩ := founder.created
  exact Node.backed_of_create Plain.lawful_scheme hcreate hmember (hkey ▸ founder.verifies)

/-- `m` is all that a node holds, a genuine signature of exactly the members
that have a node, and the last that the node has published if it is enough. -/
structure Gathered (setups : List (Setup IdSet Plain.Signature))
    (seat : Seat IdSet Plain.Signature) (m : Multisig Plain.Signature) : Prop where
  whole_eq : seat.node.holdings.whole Plain.scheme seat.setup.place = .ok (some m)
  length_eq : m.length = seat.setup.roster.size
  get_iff : ∀ i, m.mask.get i = true ↔ Online setups i
  genuine : m.signature.genuine = true
  mem_signers : ∀ signer, signer ∈ m.signature.signers ↔ ∃ s ∈ setups, s.id = signer
  published : seat.setup.threshold ≤ setups.length → seat.node.published.head? = some m

theorem exists_gathered {c : Cluster IdSet Plain.Signature} (company : Company c.setups)
    (order : InOrder c) (quiescent : Quiescent c) {b : Seat IdSet Plain.Signature}
    (hb : b ∈ c.seats) (hscheme : b.setup.scheme = Plain.scheme) (hroster : b.setup.roster = roster)
    (hwhole : ∀ level, Whole c.setups b level) : ∃ m, Gathered c.setups b m := by
  have hself : b.setup ∈ c.setups := List.mem_map.2 ⟨b, hb, rfl⟩
  have hplace := (company.sound _ hself).size_eq
  obtain ⟨m, hm, hlength, hones, hvouches, hfinal⟩ :=
    gathered_of_whole company order quiescent hb hwhole
  have hbound : ∀ i ∈ m.marks 0, i < b.setup.roster.size := by
    intro i hi
    have := m.mask.bounded i (Node.mem_marks_zero.1 hi)
    rw [← hplace, ← hlength]
    exact this
  obtain ⟨hgenuine, hsigners⟩ := (Verifier.vouches_plain_iff hscheme (hroster ▸ hdense)
    (hroster ▸ hkeyed) hbound).1 hvouches
  refine ⟨m, hscheme ▸ hm, hlength.trans hplace, ?_, hgenuine, ?_, ?_⟩
  · intro i
    rw [Mask.get_eq_true_iff, hones]
  · intro signer
    rw [hsigners, Node.mem_marks_zero, hones]
    constructor
    · rintro ⟨hpos, s, hs, hleaf⟩
      refine ⟨s, hs, Int32.toInt_inj.1 ?_⟩
      rw [(company.sound s hs).leaf_eq, hleaf]
      exact Int.toNat_of_nonneg hpos
    · rintro ⟨s, hs, rfl⟩
      rw [(company.sound s hs).leaf_eq]
      exact ⟨Int.natCast_nonneg _, s, hs, rfl⟩
  · unfold setups
    rw [List.length_map]
    exact hfinal

/-- Take any of the members of a dense roster of at most `2 ^ 16`, each with a
node of its own, and let anything happen but that a node stops. Nothing
crashes. If then nothing more is going to happen, and every member has a node
or every node has entered all levels that have members, then each node holds
one signature of exactly the members that have a node, and has published it if
it is enough. If every member has a node, all levels have been entered. -/
theorem gathered_plain (hsize : roster.size ≤ 2 ^ 16) (hnodup : (founders.map (·.1.id)).Nodup)
    (hfounders : ∀ f ∈ founders, Founder roster message f) (moves : List Move) :
    ∃ c, run moves (found founders) = .ok c ∧ c.setups = founders.map (·.1) ∧
      (Quiescent c →
        ((∀ i < roster.size, Online c.setups i) → ∀ seat ∈ c.seats, Started seat) ∧
        ((∀ i < roster.size, Online c.setups i) ∨ (∀ seat ∈ c.seats, Started seat) →
          ∀ seat ∈ c.seats, ∃ m, Gathered c.setups seat m)) := by
  have company := company_of_founders hdense hsize hnodup hfounders
  have order₀ : InOrder (found founders) :=
    inOrder_found fun f hf => (hfounders f hf).backed hdense hkeyed
  obtain ⟨c, hrun, order, hsetups⟩ := order₀.run (by rw [setups_found]; exact company) moves
  rw [setups_found] at hsetups
  rw [← hsetups] at company
  have hseat : ∀ seat ∈ c.seats, seat.setup.scheme = Plain.scheme ∧ seat.setup.roster = roster ∧
      seat.setup.place.size = roster.size := by
    intro seat hseat
    have hself : seat.setup ∈ c.setups := List.mem_map.2 ⟨seat, hseat, rfl⟩
    rw [hsetups] at hself
    obtain ⟨f, hf, heq⟩ := List.mem_map.1 hself
    obtain ⟨-, hscheme, hroster, -, hplace, -⟩ := (hfounders f hf).spec hdense
    rw [← heq]
    exact ⟨hscheme, hroster, hplace⟩
  refine ⟨c, hrun, hsetups, fun quiescent => ?_⟩
  have hentered : (∀ i < roster.size, Online c.setups i) → ∀ seat ∈ c.seats, ∀ level, 0 < level →
      level ≤ seat.setup.maxLevel → 0 < seat.setup.place.sizeAt level →
      (∀ lower < level, Whole c.setups seat lower) → level ∈ seat.node.started := by
    intro hall seat h level
    exact entered_of_all order quiescent (hseat seat h).2.2 hall h
  constructor
  · intro hall seat h level hpos hle hmembers
    apply hentered hall seat h level hpos hle hmembers
    intro lower _
    exact whole_of_entered company order quiescent (hentered hall) h lower
  · intro hcase seat h
    obtain ⟨hscheme, hroster, -⟩ := hseat seat h
    apply exists_gathered hdense hkeyed company order quiescent h hscheme hroster
    rcases hcase with hall | hstarted
    · exact whole_of_entered company order quiescent (hentered hall) h
    · apply whole_of_entered company order quiescent _ h
      intro seat' h' level hpos hle hmembers _
      exact hstarted seat' h' level hpos hle hmembers

end

/-- Two members that hear of each other and update once. -/
theorem gathered_plain_of_two :
    ∃ (s t : Setup IdSet Plain.Signature) (moves : List Move) (c : Cluster IdSet Plain.Signature),
      (∀ f ∈ [(s, Plain.sign 0), (t, Plain.sign 1)], Founder Plain.pair [7] f) ∧
      run moves (found [(s, Plain.sign 0), (t, Plain.sign 1)]) = .ok c ∧ Quiescent c ∧
      (∀ i < Plain.pair.size, Online c.setups i) ∧ c.setups = [s, t] ∧
      (∀ seat ∈ c.seats, Started seat) ∧ ∀ seat ∈ c.seats, ∃ m, Gathered c.setups seat m := by
  have hsetups : ∃ s t,
      Setup.create Plain.scheme Plain.pair 0 [7] {} .ascending .byGain .never .idle = .ok s ∧
      Setup.create Plain.scheme Plain.pair 1 [7] {} .ascending .acceptAll .never .idle = .ok t ∧
      s.id = 0 ∧ t.id = 1 ∧ s.place.leaf = 0 ∧ t.place.leaf = 1 :=
    ⟨_, _, rfl, rfl, rfl, rfl, rfl, rfl⟩
  obtain ⟨s, t, hs, ht, hsid, htid, hsleaf, htleaf⟩ := hsetups
  have hquiet :
      ((Setup.create Plain.scheme Plain.pair 0 [7] {} .ascending .byGain .never .idle).toOption.bind
        fun s =>
      (Setup.create Plain.scheme Plain.pair 1 [7] {} .ascending .acceptAll .never
        .idle).toOption.bind fun t =>
      (run [.prompt 0 .start, .prompt 1 .start, .deliver 1, .deliver 0, .prompt 0 .pass,
        .prompt 1 .pass, .prompt 1 .takeIn, .prompt 0 .takeIn, .prompt 0 .renew, .prompt 1 .renew,
        .deliver 0, .deliver 0, .prompt 0 .pass, .prompt 1 .pass]
        (found [(s, Plain.sign 0), (t, Plain.sign 1)])).toOption.map fun c =>
      decide (Quiescent c)) = some true := by decide +kernel
  have hfounders : ∀ f ∈ [(s, Plain.sign 0), (t, Plain.sign 1)], Founder Plain.pair [7] f := by
    intro f hf
    rcases List.mem_cons.1 hf with rfl | hf
    · constructor
      · exact ⟨_, _, _, _, by decide, .inl rfl, hsid ▸ hs⟩
      · rw [hsid]
        rfl
    · rw [List.mem_singleton.1 hf]
      constructor
      · exact ⟨_, _, _, _, by decide, .inr rfl, htid ▸ ht⟩
      · rw [htid]
        rfl
  obtain ⟨c, hrun, hmembers, hgathered⟩ := gathered_plain Plain.dense_pair Plain.keyed_pair
    (by decide) (by simp [hsid, htid]) hfounders
    [.prompt 0 .start, .prompt 1 .start, .deliver 1, .deliver 0, .prompt 0 .pass,
      .prompt 1 .pass, .prompt 1 .takeIn, .prompt 0 .takeIn, .prompt 0 .renew,
      .prompt 1 .renew, .deliver 0, .deliver 0, .prompt 0 .pass, .prompt 1 .pass]
  simp only [hs, ht, Except.toOption, Option.bind_some, hrun, Option.map_some,
    Option.some.injEq] at hquiet
  have quiescent := of_decide_eq_true hquiet
  have hall : ∀ i < Plain.pair.size, Online c.setups i := by
    intro i hi
    rw [hmembers]
    have hcases : i = 0 ∨ i = 1 := by
      change i < 2 at hi
      omega
    rcases hcases with rfl | rfl
    · exact ⟨s, List.mem_cons_self, hsleaf⟩
    · exact ⟨t, List.mem_cons_of_mem _ List.mem_cons_self, htleaf⟩
  obtain ⟨hstarted, hfinal⟩ := hgathered quiescent
  exact ⟨s, t, _, c, hfounders, hrun, quiescent, hall, hmembers, hstarted hall, hfinal (.inl hall)⟩

end Cluster

end MultisigTree
