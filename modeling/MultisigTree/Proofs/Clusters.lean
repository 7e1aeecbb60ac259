import Mathlib.Data.List.Perm.Basic
import MultisigTree.Proofs.HonestSenders
import MultisigTree.Proofs.Keeping

/-!
# Clusters in which nothing is lost

Nodes of members of good faith, and a network that delivers every letter once
to whoever has a node, in any order. Such a cluster stays in order whatever
moves are made (`Cluster.InOrder.run`): every node keeps its invariants, and
every packet ever sent to a node is in transit or covered by what that node
has (`Cluster.InOrder.arrives`).
-/
namespace MultisigTree

variable {κ σ : Type}

namespace Cluster

/-- What a node does between the packets it hears, other than stopping. -/
inductive Impulse where
  | start
  | pass
  | takeIn
  | renew
  | nextLevel
  | timeout

def Impulse.event : Impulse → Event
  | .start => .start
  | .pass => .pass
  | .takeIn => .takeIn
  | .renew => .renew
  | .nextLevel => .nextLevel
  | .timeout => .timeout

/-- What may happen in a cluster: some letter in transit arrives, or some node
does something. -/
inductive Move where
  | deliver (index : Nat)
  | prompt (id : Int32) (impulse : Impulse)

/-- A letter to a member without a node is lost. -/
def move (c : Cluster κ σ) : Move → Except Crash (Cluster κ σ)
  | .deliver index =>
      match c.transit[index]? with
      | none => .ok c
      | some letter => act { c with transit := c.transit.eraseIdx index } letter.receiver
          fun s n => n.step s (.receive letter.packet)
  | .prompt id impulse => c.act id fun s n => n.step s impulse.event

def run : List Move → Cluster κ σ → Except Crash (Cluster κ σ)
  | [], c => .ok c
  | mv :: rest, c => do run rest (← c.move mv)

/-- Setups that can work together: over one small roster, of different members,
with fair evaluators, and hearing everyone. -/
structure Company (setups : List (Setup κ σ)) : Prop where
  nodup : (setups.map (·.id)).Nodup
  sound : ∀ s ∈ setups, s.Sound
  small : ∀ s ∈ setups, s.place.size ≤ 2 ^ 16
  lawful : ∀ s ∈ setups, s.scheme.Lawful
  fair : ∀ s ∈ setups, s.evaluator.Fair
  hearing : ∀ s ∈ setups, s.exclusion = .never
  fellows : ∀ s ∈ setups, ∀ t ∈ setups, s.Fellows t

def setups (c : Cluster κ σ) : List (Setup κ σ) :=
  c.seats.map (·.setup)

/-- Member `i` has a node. -/
def Online (setups : List (Setup κ σ)) (i : Nat) : Prop :=
  ∃ s ∈ setups, s.place.leaf = i

end Cluster

structure Seat.Good (P : Nat → Prop) (seat : Seat κ σ) : Prop where
  fit : seat.node.Fit seat.setup
  backed : seat.node.Backed seat.setup
  current : seat.node.UpToDate seat.setup
  hale : seat.node.Hale seat.setup P

/-- What a node may become without forgetting anything. -/
structure Seat.Becomes (P : Nat → Prop) (seat : Seat κ σ) (node : Node κ σ) : Prop where
  good : Seat.Good P ⟨seat.setup, node⟩
  covers : ∀ level card, seat.node.Covers level card → node.Covers level card
  journal : ∃ new, node.journal = new ++ seat.node.journal ∧ ∀ receivers packet,
    .send receivers packet ∈ new →
      seat.setup.Informs node.holdings (.send receivers packet)

namespace Seat

variable {P : Nat → Prop} {seat : Seat κ σ}

theorem Good.prompt (good : seat.Good P) (sound : seat.setup.Sound)
    (hsize : seat.setup.place.size ≤ 2 ^ 16) (lawful : seat.setup.scheme.Lawful)
    (hfair : seat.setup.evaluator.Fair) (impulse : Cluster.Impulse) :
    ∃ node, seat.node.step seat.setup impulse.event = .ok node ∧ seat.Becomes P node := by
  obtain ⟨node, hstep, fit⟩ := good.fit.step sound impulse.event
  obtain ⟨hale, hcovers⟩ := good.hale.step good.fit sound hsize hfair
    (by cases impulse <;> nofun) (by cases impulse <;> nofun) hstep
  exact ⟨node, hstep, ⟨fit, good.backed.step good.fit sound lawful hstep,
    good.current.step good.fit sound hstep, hale⟩, hcovers,
    Node.journal_of_step good.fit sound hstep⟩

theorem Good.hear (good : seat.Good P) (sound : seat.setup.Sound)
    (lawful : seat.setup.scheme.Lawful) (hearing : seat.setup.exclusion = .never) {packet : Packet}
    {o : Offer σ} (hread : seat.setup.read packet = .ok o) (hverify : seat.setup.verify o = .ok ())
    (hwithin : seat.setup.place.Within P o.level.toNat o.multisig) :
    ∃ node, seat.node.step seat.setup (.receive packet) = .ok node ∧ seat.Becomes P node ∧
      node.Covers o.level.toNat o.multisig.card := by
  have hstep : seat.node.step seat.setup (.receive packet) =
      .ok (seat.node.receive seat.setup packet) := rfl
  obtain ⟨hale, -, hnew, hcovers⟩ :=
    good.hale.receive good.fit hearing hread hverify hwithin
  exact ⟨_, hstep, ⟨⟨good.fit.receive packet, good.backed.step good.fit sound lawful hstep,
    good.current.step good.fit sound hstep, hale⟩, hcovers,
    Node.journal_of_step good.fit sound hstep⟩, hnew⟩

end Seat

namespace Cluster

theorem actOn_of_ne {id : Int32} {deed : Deed κ σ} {seats : List (Seat κ σ)}
    (h : ∀ seat ∈ seats, seat.setup.id ≠ id) : actOn id deed seats = .ok (seats, []) := by
  induction seats with
  | nil => rfl
  | cons seat rest ih =>
      rw [actOn, if_neg (h seat List.mem_cons_self),
        ih fun seat' hseat => h seat' (List.mem_cons_of_mem _ hseat)]
      rfl

theorem actOn_append {id : Int32} {deed : Deed κ σ} {before after : List (Seat κ σ)}
    {seat : Seat κ σ} {node : Node κ σ} (hbefore : ∀ seat' ∈ before, seat'.setup.id ≠ id)
    (hid : seat.setup.id = id) (hdeed : deed seat.setup seat.node = .ok node) :
    actOn id deed (before ++ seat :: after) =
      .ok (before ++ { seat with node := node } :: after,
        (seat.node.actionsSince node).flatMap (Action.letters id)) := by
  induction before with
  | nil =>
      rw [List.nil_append, actOn, if_pos hid, hdeed]
      rfl
  | cons seat' rest ih =>
      rw [List.cons_append, actOn, if_neg (hbefore seat' List.mem_cons_self),
        ih fun seat'' h => hbefore seat'' (List.mem_cons_of_mem _ h)]
      rfl

end Cluster

namespace Setup

def Trusts (t : Setup κ σ) (P : Nat → Prop) (packet : Packet) : Prop :=
  ∃ o, t.read packet = .ok o ∧ t.verify o = .ok () ∧ t.place.Within P o.level.toNat o.multisig

theorem trusts_of_informs {s t : Setup κ σ} (sound : s.Sound) (sound' : t.Sound)
    (fellows : s.Fellows t) (lawful : s.scheme.Lawful) {P : Nat → Prop} {h : Holdings σ}
    (tidy : h.Tidy s.place) (hvouches : h.Each s.VouchesAt) (hwithin : h.Each (s.place.Within P))
    {receivers : List (Member κ)} {packet : Packet}
    (hinforms : s.Informs h (.send receivers packet)) {r : Member κ} (hr : r ∈ receivers)
    (hid : t.id = r.id) : t.Trusts P packet := by
  obtain ⟨level, m, hpos, hle, hm, hpayload, horigin, hbyte, hpeers⟩ := hinforms
  obtain ⟨i, hi, hlevel, hri⟩ := hpeers r hr
  have hnumber := sound.dense.toInt_id (sound.size_eq ▸ hi) hri
  have hleaf := sound'.leaf_eq
  have hti : t.place.leaf = i := by
    rw [hid] at hleaf
    omega
  obtain ⟨hread, hverify, hshows⟩ := read_of_combined sound sound'.toPlaced fellows lawful tidy
    hvouches hpos hle (hti.symm ▸ hlevel) hm hpayload
  have hpacket : packet = ⟨s.id, UInt8.ofNat level, packet.payload⟩ := by
    rw [← horigin, ← hbyte]
  rw [← hpacket] at hread
  refine ⟨_, hread, hverify, fun j hj => ?_⟩
  dsimp only at hj
  rw [sound.toNat_level hle] at hj
  obtain ⟨held, hheld, hmarks⟩ := hshows j hj
  exact hwithin _ held hheld j hmarks

end Setup

namespace Cluster

structure InOrder (c : Cluster κ σ) : Prop where
  good : ∀ seat ∈ c.seats, seat.Good (Online c.setups)
  posted : ∀ letter ∈ c.transit, ∃ seat ∈ c.seats, ∃ receivers r,
    .send receivers letter.packet ∈ seat.node.journal ∧ r ∈ receivers ∧ r.id = letter.receiver
  trusted : ∀ seat ∈ c.seats, ∀ receivers packet, .send receivers packet ∈ seat.node.journal →
    ∀ r ∈ receivers, ∀ t ∈ c.setups, t.id = r.id → t.Trusts (Online c.setups) packet
  arrives : ∀ seat ∈ c.seats, ∀ receivers packet, .send receivers packet ∈ seat.node.journal →
    ∀ r ∈ receivers, ∀ seat' ∈ c.seats, seat'.setup.id = r.id →
    ⟨seat.setup.id, r.id, packet⟩ ∈ c.transit ∨ ∀ o, seat'.setup.read packet = .ok o →
      seat'.node.Covers o.level.toNat o.multisig.card

theorem mem_letters {sender : Int32} {actions : List (Action κ σ)} {letter : Letter} :
    letter ∈ actions.flatMap (Action.letters sender) ↔ ∃ receivers packet,
      .send receivers packet ∈ actions ∧ ∃ r ∈ receivers, letter = ⟨sender, r.id, packet⟩ := by
  rw [List.mem_flatMap]
  constructor
  · rintro ⟨a, ha, hletter⟩
    cases a with
    | send receivers packet =>
        obtain ⟨r, hr, rfl⟩ := List.mem_map.1 hletter
        exact ⟨receivers, packet, ha, r, hr, rfl⟩
    | publish m => cases hletter
    | report id fault => cases hletter
  · rintro ⟨receivers, packet, ha, r, hr, rfl⟩
    exact ⟨_, ha, List.mem_map.2 ⟨r, hr, rfl⟩⟩

theorem mem_seats_iff {before after : List (Seat κ σ)} {seat seat' : Seat κ σ} :
    seat' ∈ before ++ seat :: after ↔ seat' = seat ∨ seat' ∈ before ++ after := by
  rw [List.perm_middle.mem_iff, List.mem_cons]

theorem Company.ne_of_split {c : Cluster κ σ} (company : Company c.setups)
    {before after : List (Seat κ σ)} {seat : Seat κ σ}
    (hseats : c.seats = before ++ seat :: after) :
    ∀ seat' ∈ before ++ after, seat'.setup.id ≠ seat.setup.id := by
  have hperm : (c.setups.map (·.id)).Perm
      (seat.setup.id :: (before ++ after).map (·.setup.id)) := by
    unfold setups
    rw [List.map_map, hseats]
    exact List.perm_middle.map fun seat : Seat κ σ => seat.setup.id
  have hnodup := hperm.nodup_iff.1 company.nodup
  intro seat' hseat' heq
  exact (List.nodup_cons.1 hnodup).1 (heq ▸ List.mem_map.2 ⟨seat', hseat', rfl⟩)

section
variable {c : Cluster κ σ} (company : Company c.setups) (order : InOrder c)
variable {before after : List (Seat κ σ)} {seat : Seat κ σ} {node : Node κ σ}
variable (hseats : c.seats = before ++ seat :: after)

omit company order in
include hseats in
theorem setups_replace (node : Node κ σ) (transit sent : List Letter) :
    setups ⟨before ++ { seat with node := node } :: after, transit, sent⟩ = c.setups := by
  unfold setups
  rw [hseats]
  simp only [List.map_append, List.map_cons]

include company hseats

theorem Company.mem_replaced {seat' : Seat κ σ}
    (h : seat' ∈ before ++ { seat with node := node } :: after) :
    seat' = { seat with node := node } ∨ seat' ∈ c.seats ∧ seat'.setup.id ≠ seat.setup.id := by
  rcases mem_seats_iff.1 h with h | h
  · exact .inl h
  · exact .inr ⟨hseats ▸ mem_seats_iff.2 (.inr h), company.ne_of_split hseats seat' h⟩

include order

/-- What was sent before is still in transit, or covered, or has just arrived at
the node that is replaced. -/
theorem InOrder.arrives_replaced (becomes : seat.Becomes (Online c.setups) node)
    {transit : List Letter}
    (hleft : ∀ letter ∈ c.transit, letter ∈ transit ∨ letter.receiver = seat.setup.id ∧
      ∀ o, seat.setup.read letter.packet = .ok o → node.Covers o.level.toNat o.multisig.card)
    {sender : Seat κ σ} (hsender : sender ∈ c.seats) {receivers : List (Member κ)} {packet : Packet}
    (hsend : .send receivers packet ∈ sender.node.journal) {r : Member κ} (hr : r ∈ receivers)
    {seat' : Seat κ σ} (hseat' : seat' ∈ before ++ { seat with node := node } :: after)
    (hid : seat'.setup.id = r.id) :
    ⟨sender.setup.id, r.id, packet⟩ ∈ transit ∨ ∀ o, seat'.setup.read packet = .ok o →
      seat'.node.Covers o.level.toNat o.multisig.card := by
  have hseat : seat ∈ c.seats := hseats ▸ mem_seats_iff.2 (.inl rfl)
  rcases company.mem_replaced hseats hseat' with rfl | ⟨h, hne⟩
  · rcases order.arrives sender hsender receivers packet hsend r hr seat hseat hid with h | h
    · rcases hleft _ h with h | ⟨-, h⟩
      · exact .inl h
      · exact .inr h
    · exact .inr fun o ho => becomes.covers _ _ (h o ho)
  · rcases order.arrives sender hsender receivers packet hsend r hr seat' h hid with h | h
    · rcases hleft _ h with h | ⟨h, -⟩
      · exact .inl h
      · exact absurd (hid.trans h) hne
    · exact .inr h

/-- A node that forgets nothing keeps its cluster in order, if whatever it sends
goes into transit and whatever leaves transit is covered by the node. -/
theorem InOrder.replace (becomes : seat.Becomes (Online c.setups) node)
    (transit sent : List Letter)
    (hleft : ∀ letter ∈ c.transit, letter ∈ transit ∨ letter.receiver = seat.setup.id ∧
      ∀ o, seat.setup.read letter.packet = .ok o → node.Covers o.level.toNat o.multisig.card)
    (hold : ∀ letter ∈ transit, letter ∈ c.transit ∨
      letter ∈ (seat.node.actionsSince node).flatMap (Action.letters seat.setup.id))
    (hnew : ∀ letter ∈ (seat.node.actionsSince node).flatMap (Action.letters seat.setup.id),
      letter ∈ transit) :
    InOrder ⟨before ++ { seat with node := node } :: after, transit, sent⟩ ∧
      setups ⟨before ++ { seat with node := node } :: after, transit, sent⟩ = c.setups := by
  have hsetups := setups_replace hseats node transit sent
  have hseat : seat ∈ c.seats := hseats ▸ mem_seats_iff.2 (.inl rfl)
  have hself : seat.setup ∈ c.setups := List.mem_map.2 ⟨seat, hseat, rfl⟩
  have hnode : { seat with node := node } ∈ before ++ { seat with node := node } :: after :=
    mem_seats_iff.2 (.inl rfl)
  obtain ⟨new, hjournal, hinforms⟩ := becomes.journal
  have hactions : ∀ a, a ∈ seat.node.actionsSince node ↔ a ∈ new :=
    fun a => Node.mem_actionsSince hjournal
  have hsound := company.sound _ hself
  refine ⟨⟨?_, ?_, ?_, ?_⟩, hsetups⟩
  · intro seat' hseat'
    rw [hsetups]
    rcases company.mem_replaced hseats hseat' with rfl | ⟨h, -⟩
    · exact becomes.good
    · exact order.good seat' h
  · intro letter hletter
    rcases hold letter hletter with h | h
    · obtain ⟨seat', hseat', receivers, r, hsend, hr, hid⟩ := order.posted letter h
      rw [hseats] at hseat'
      rcases mem_seats_iff.1 hseat' with rfl | h
      · refine ⟨_, hnode, receivers, r, ?_, hr, hid⟩
        rw [hjournal]
        exact List.mem_append_right _ hsend
      · exact ⟨seat', mem_seats_iff.2 (.inr h), receivers, r, hsend, hr, hid⟩
    · obtain ⟨receivers, packet, hsend, r, hr, rfl⟩ := mem_letters.1 h
      refine ⟨_, hnode, receivers, r, ?_, hr, rfl⟩
      rw [hjournal]
      exact List.mem_append_left _ ((hactions _).1 hsend)
  · intro seat' hseat' receivers packet hsend r hr t ht hid
    rw [hsetups] at ht ⊢
    rcases company.mem_replaced hseats hseat' with rfl | ⟨h, -⟩
    · dsimp only at hsend
      rw [hjournal] at hsend
      rcases List.mem_append.1 hsend with hsend | hsend
      · exact Setup.trusts_of_informs hsound (company.sound t ht) (company.fellows _ hself t ht)
          (company.lawful _ hself) becomes.good.fit.tidy becomes.good.backed.held
          becomes.good.hale.held (hinforms receivers packet hsend) hr hid
      · exact order.trusted seat hseat receivers packet hsend r hr t ht hid
    · exact order.trusted seat' h receivers packet hsend r hr t ht hid
  · intro sender hsender receivers packet hsend r hr seat' hseat' hid
    rcases company.mem_replaced hseats hsender with rfl | ⟨h, -⟩
    · dsimp only at hsend
      rw [hjournal] at hsend
      rcases List.mem_append.1 hsend with hsend | hsend
      · left
        apply hnew
        exact mem_letters.2 ⟨receivers, packet, (hactions _).2 hsend, r, hr, rfl⟩
      · exact order.arrives_replaced company hseats becomes hleft hseat hsend hr hseat' hid
    · exact order.arrives_replaced company hseats becomes hleft h hsend hr hseat' hid

end

section
variable {c : Cluster κ σ} (company : Company c.setups) (order : InOrder c)
include company order

omit company in
/-- Deeds to members without a node change nothing. -/
theorem InOrder.idle {transit : List Letter} (sent : List Letter)
    (hleft : ∀ letter ∈ c.transit, letter ∈ transit ∨
      ∀ seat ∈ c.seats, seat.setup.id ≠ letter.receiver)
    (hold : ∀ letter ∈ transit, letter ∈ c.transit) : InOrder ⟨c.seats, transit, sent⟩ := by
  refine ⟨order.good, fun letter hletter => order.posted letter (hold letter hletter),
    order.trusted, ?_⟩
  intro seat₁ hseat₁ receivers packet hsend r hr seat₂ hseat₂ hid
  rcases order.arrives seat₁ hseat₁ receivers packet hsend r hr seat₂ hseat₂ hid with h | h
  · rcases hleft _ h with h | h
    · exact .inl h
    · exact absurd hid (h seat₂ hseat₂)
  · exact .inr h

/-- So does a deed to the node of one member, if the letters that leave transit
meanwhile are to that member. -/
theorem InOrder.act (transit : List Letter) (id : Int32) (deed : Deed κ σ)
    (hdeed : ∀ seat ∈ c.seats, seat.setup.id = id → ∃ node, deed seat.setup seat.node = .ok node ∧
      seat.Becomes (Online c.setups) node ∧ ∀ letter ∈ c.transit, letter ∈ transit ∨
        ∀ o, seat.setup.read letter.packet = .ok o → node.Covers o.level.toNat o.multisig.card)
    (hleft : ∀ letter ∈ c.transit, letter ∈ transit ∨ letter.receiver = id)
    (hold : ∀ letter ∈ transit, letter ∈ c.transit) :
    ∃ c', Cluster.act { c with transit := transit } id deed = .ok c' ∧ InOrder c' ∧
      c'.setups = c.setups := by
  unfold Cluster.act
  by_cases hnone : ∀ seat ∈ c.seats, seat.setup.id ≠ id
  · dsimp only
    rw [actOn_of_ne hnone]
    refine ⟨_, rfl, ?_, rfl⟩
    rw [List.append_nil]
    apply order.idle
    · intro letter hletter
      rcases hleft letter hletter with h | h
      · exact .inl h
      · exact .inr fun seat hseat => h ▸ hnone seat hseat
    · exact hold
  · simp only [not_forall, not_not] at hnone
    obtain ⟨seat, hseat, rfl⟩ := hnone
    obtain ⟨before, after, hseats⟩ := List.append_of_mem hseat
    obtain ⟨node, hnode, becomes, hcovers⟩ := hdeed seat hseat rfl
    have hne := company.ne_of_split hseats
    dsimp only
    rw [hseats, actOn_append (fun seat' h => hne seat' (List.mem_append_left _ h)) rfl hnode]
    refine ⟨_, rfl, ?_⟩
    apply order.replace company hseats becomes
    · intro letter hletter
      rcases hleft letter hletter with h | h
      · exact .inl (List.mem_append_left _ h)
      · rcases hcovers letter hletter with h' | h'
        · exact .inl (List.mem_append_left _ h')
        · exact .inr ⟨h, h'⟩
    · intro letter hletter
      exact (List.mem_append.1 hletter).imp (hold letter) id
    · exact fun letter hletter => List.mem_append_right _ hletter

theorem InOrder.move (mv : Move) :
    ∃ c', c.move mv = .ok c' ∧ InOrder c' ∧ c'.setups = c.setups := by
  cases mv with
  | deliver index =>
      cases hletter : c.transit[index]? with
      | none => exact ⟨c, by rw [Cluster.move, hletter], order, rfl⟩
      | some letter =>
          rw [Cluster.move, hletter]
          obtain ⟨hindex, rfl⟩ := List.getElem?_eq_some_iff.1 hletter
          have hperm := List.getElem_cons_eraseIdx_perm hindex
          have hsplit : ∀ letter ∈ c.transit,
              letter = c.transit[index] ∨ letter ∈ c.transit.eraseIdx index :=
            fun letter h => List.mem_cons.1 (hperm.mem_iff.2 h)
          apply order.act company
          · -- Whoever is sent the letter trusts it.
            intro seat hseat hid
            have hself : seat.setup ∈ c.setups := List.mem_map.2 ⟨seat, hseat, rfl⟩
            obtain ⟨sender, hsender, receivers, r, hsend, hr, hrid⟩ :=
              order.posted _ (List.getElem_mem hindex)
            obtain ⟨o, hread, hverify, hwithin⟩ := order.trusted sender hsender receivers _ hsend r
              hr _ hself (hid.trans hrid.symm)
            obtain ⟨node, hstep, becomes, hcovers⟩ := (order.good seat hseat).hear
              (company.sound _ hself) (company.lawful _ hself) (company.hearing _ hself) hread
              hverify hwithin
            refine ⟨node, hstep, becomes, ?_⟩
            intro letter h
            rcases hsplit letter h with rfl | h
            · right
              intro o' ho'
              obtain rfl : o = o' := Except.ok.inj (hread.symm.trans ho')
              exact hcovers
            · exact .inl h
          · intro letter h
            rcases hsplit letter h with rfl | h
            · exact .inr rfl
            · exact .inl h
          · exact fun letter => List.mem_of_mem_eraseIdx
  | prompt id impulse =>
      apply order.act company c.transit id
      · intro seat hseat _
        have hself : seat.setup ∈ c.setups := List.mem_map.2 ⟨seat, hseat, rfl⟩
        obtain ⟨node, hstep, becomes⟩ := (order.good seat hseat).prompt (company.sound _ hself)
          (company.small _ hself) (company.lawful _ hself) (company.fair _ hself) impulse
        exact ⟨node, hstep, becomes, fun letter h => .inl h⟩
      · exact fun letter h => .inl h
      · exact fun letter h => h

end

theorem InOrder.run {c : Cluster κ σ} (company : Company c.setups) (order : InOrder c)
    (moves : List Move) :
    ∃ c', Cluster.run moves c = .ok c' ∧ InOrder c' ∧ c'.setups = c.setups := by
  induction moves generalizing c with
  | nil => exact ⟨c, rfl, order, rfl⟩
  | cons mv rest ih =>
      obtain ⟨c₁, hmove, order₁, hsetups₁⟩ := order.move company mv
      obtain ⟨c', hrun, order', hsetups⟩ := ih (hsetups₁.symm ▸ company) order₁
      refine ⟨c', ?_, order', hsetups.trans hsetups₁⟩
      rw [Cluster.run, hmove]
      exact hrun

end Cluster

end MultisigTree
