import MultisigTree.Proofs.Coverage
import MultisigTree.Proofs.Lives
import MultisigTree.Proofs.Payloads

/-!
# What a node makes of a packet

A packet carries an offer if its sender is on the level that it names and its
payload has the three parts of a multi-signature over the members of that level,
at least one of them marked (`Setup.Carries`). Exactly then the offer is read
from it, and queued if the node hears the sender; a sender of anything else is
reported. Nothing else about the node changes (`Node.receives_what_is_carried`).
-/
namespace MultisigTree

variable {κ σ : Type} {s : Setup κ σ}

namespace Setup

/-- The packet makes the offer `o`. -/
structure Carries (s : Setup κ σ) (packet : Packet) (o : Offer σ) : Prop where
  origin_eq : o.origin = packet.origin
  level_eq : o.level = packet.level
  listed : 0 ≤ packet.origin.toInt ∧ packet.origin.toInt.toNat < s.roster.size
  level_le : packet.level.toNat ≤ s.maxLevel
  hasAt : s.place.HasAt packet.level.toNat packet.origin.toInt.toNat
  length_eq : o.multisig.length = s.place.sizeAt packet.level.toNat
  card_pos : 0 < o.multisig.card
  payload_eq : ∃ mask signature,
    packet.payload = BigEndian.encode 2 mask.length ++ mask ++ signature ∧
      mask.length < 2 ^ 16 ∧ o.multisig.mask.encode = .ok mask ∧
      s.scheme.decode signature = .ok o.multisig.signature

theorem read_eq_ok_iff_carries {packet : Packet} {o : Offer σ} :
    s.read packet = .ok o ↔ s.Carries packet o := by
  rw [read_eq_ok_iff]
  constructor
  · rintro ⟨hlisted, hle, -, m, hdecode, hlen, hcard, hindex, rfl⟩
    obtain ⟨mask, signature, hpayload, hmask, hsignature⟩ := Multisig.decode_eq_ok_iff.1 hdecode
    exact ⟨rfl, rfl, hlisted, hle, (Place.indexAt_isOk_iff hlisted.1).1 hindex, hlen, hcard, mask,
      signature, hpayload, Mask.length_encode_lt hmask, hmask, hsignature⟩
  · obtain ⟨origin, level, m⟩ := o
    rintro ⟨rfl, rfl, hlisted, hle, hat, hlen, hcard, mask, signature, hpayload, -, hmask,
      hsignature⟩
    exact ⟨hlisted, hle, Place.sizeAt_pos_of_hasAt hle hat, _,
      Multisig.decode_eq_ok_iff.2 ⟨mask, signature, hpayload, hmask, hsignature⟩, hlen, hcard,
      (Place.indexAt_isOk_iff hlisted.1).2 hat, rfl⟩

end Setup

namespace Node

/-- Any run of a node over a dense roster, and any packet that then comes in. An
offer is read from it exactly if the packet carries this offer. If the node is not
stopped and does not exclude the sender, an offer that is read is put at the end of
the queue, and a packet from which none is read is reported once, with its sender
and the fault; a stopped node and one that excludes the sender do nothing. That is
all that changes. -/
theorem receives_what_is_carried {scheme : Scheme κ σ} {roster : Roster κ} (hdense : roster.Dense)
    {id : Int32} {message : List UInt8} {settings : Settings} {order : ContactOrder}
    {evaluator : Evaluator σ} {exclusion : Exclusion} {pace : Pace}
    (hword : settings.candidates < Word.limit)
    (hs : Setup.create scheme roster id message settings order evaluator exclusion pace = .ok s)
    {own : σ} {events : List Event} {n : Node κ σ}
    (hrun : run s events (create s own) = .ok n) (packet : Packet) :
    (∀ o, s.read packet = .ok o ↔ s.Carries packet o) ∧
      (n.phase ≠ .stopped → exclusion n.reports packet.origin = false →
        (∀ o, s.Carries packet o → n.step s (.receive packet) =
          .ok { n with backlog := { n.backlog with queued := n.backlog.queued ++ [o] } }) ∧
        ∀ fault, s.read packet = .error fault → n.step s (.receive packet) =
          .ok { n with journal := .report packet.origin fault :: n.journal }) ∧
      (n.phase = .stopped ∨ exclusion n.reports packet.origin = true →
        n.step s (.receive packet) = .ok n) := by
  obtain ⟨n', hrun', fit⟩ := (fit_create s own).run (Setup.sound_of_create hdense hword hs) events
  obtain rfl : n = n' := Except.ok.inj (hrun.symm.trans hrun')
  obtain ⟨-, -, -, -, -, -, hexclusion, -⟩ := Setup.eq_of_create hs
  refine ⟨fun o => Setup.read_eq_ok_iff_carries, fun hphase hfree => ?_, fun hdeaf => ?_⟩
  · have hears : n.Hears s packet := by
      rintro (hstopped | hexcluded)
      · exact hphase hstopped
      · rw [hexclusion, hfree] at hexcluded
        cases hexcluded
    refine ⟨fun o hcarries => ?_, fun fault hfault => ?_⟩
    · exact congrArg Except.ok
        (receive_of_read hears fit.phase_eq (Setup.read_eq_ok_iff_carries.2 hcarries))
    · exact congrArg Except.ok (receive_of_fault hears hfault)
  · refine congrArg Except.ok (receive_unheard fun hears => hears ?_)
    rwa [hexclusion]

/-- The first of two members excludes whom it has reported. It has heard nonsense
from someone not listed; then the second member sends its signature, and after
that the first one's own number and the one not listed are given as senders. -/
theorem receives_what_is_carried_of_two :
    ∃ (s : Setup IdSet Plain.Signature) (n : Node IdSet Plain.Signature) (o : Offer Plain.Signature),
      (Plain.pair.Dense ∧ ({} : Settings).candidates < Word.limit ∧
        Setup.create Plain.scheme Plain.pair 0 [7] {} .ascending .byGain (.barring [] true) .idle =
          .ok s ∧
        run s [.receive ⟨-1, 255, []⟩, .start] (create s (Plain.sign 0)) = .ok n) ∧
      n.phase = .running ∧ n.reports = [(-1, .originBeyond (-1) 2)] ∧
      s.Carries ⟨1, 1, [0, 3, 0, 1, 12, 1, 0, 0, 0, 1]⟩ o ∧ o.multisig.signature = Plain.sign 1 ∧
      n.step s (.receive ⟨1, 1, [0, 3, 0, 1, 12, 1, 0, 0, 0, 1]⟩) =
        .ok { n with backlog := { n.backlog with queued := n.backlog.queued ++ [o] } } ∧
      n.step s (.receive ⟨0, 1, [0, 3, 0, 1, 12, 1, 0, 0, 0, 1]⟩) =
        .ok { n with journal := .report 0 (.outsideLevel 0 (1, 2) 1) :: n.journal } ∧
      n.step s (.receive ⟨-1, 1, [0, 3, 0, 1, 12, 1, 0, 0, 0, 1]⟩) = .ok n := by
  have hgiven : ∃ (s : Setup IdSet Plain.Signature) (n : Node IdSet Plain.Signature)
      (o : Offer Plain.Signature),
      Setup.create Plain.scheme Plain.pair 0 [7] {} .ascending .byGain (.barring [] true) .idle =
          .ok s ∧
        run s [.receive ⟨-1, 255, []⟩, .start] (create s (Plain.sign 0)) = .ok n ∧
        n.phase = .running ∧ n.reports = [(-1, .originBeyond (-1) 2)] ∧
        s.read ⟨1, 1, [0, 3, 0, 1, 12, 1, 0, 0, 0, 1]⟩ = .ok o ∧
        o.multisig.signature = Plain.sign 1 ∧
        s.read ⟨0, 1, [0, 3, 0, 1, 12, 1, 0, 0, 0, 1]⟩ = .error (.outsideLevel 0 (1, 2) 1) :=
    ⟨_, _, ⟨1, 1, .ofList 1 [0], Plain.sign 1⟩, rfl, rfl, rfl, rfl, by decide +kernel, rfl,
      by decide +kernel⟩
  obtain ⟨s, n, o, hs, hrun, hphase, hreports, hread, hsigned, hrefused⟩ := hgiven
  have hreceives := receives_what_is_carried Plain.dense_pair (by decide) hs hrun
  obtain ⟨hcarried, hheard, -⟩ := hreceives ⟨1, 1, [0, 3, 0, 1, 12, 1, 0, 0, 0, 1]⟩
  obtain ⟨-, hheard', -⟩ := hreceives ⟨0, 1, [0, 3, 0, 1, 12, 1, 0, 0, 0, 1]⟩
  obtain ⟨-, -, hunheard⟩ := hreceives ⟨-1, 1, [0, 3, 0, 1, 12, 1, 0, 0, 0, 1]⟩
  rw [hreports] at hheard hheard' hunheard
  have hrunning : n.phase ≠ .stopped := by
    rw [hphase]
    decide
  have hcarries := (hcarried o).1 hread
  exact ⟨s, n, o, ⟨Plain.dense_pair, by decide, hs, hrun⟩, hphase, hreports, hcarries, hsigned,
    (hheard hrunning (by decide)).1 o hcarries, (hheard' hrunning (by decide)).2 _ hrefused,
    hunheard (.inr (by decide))⟩

end Node

end MultisigTree
