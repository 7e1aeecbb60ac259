import MultisigTree.Cluster
import MultisigTree.Proofs.Finals

/-!
# Honest senders are never blamed

Sender and receiver work out on their own which members a mask is about: the
sender takes its subtree below the level, the receiver its peers at the level,
and these are the same span. So the receiver reads from the packet exactly what
the sender aggregated and finds it genuine (`Setup.read_of_combined`), whatever
the sender heard before (`Node.sent_is_genuine`).
-/
namespace MultisigTree

variable {κ σ : Type}

namespace Setup

structure Fellows (s t : Setup κ σ) : Prop where
  scheme_eq : t.scheme = s.scheme
  roster_eq : t.roster = s.roster
  message_eq : t.message = s.message

variable {s t : Setup κ σ}

theorem Fellows.vouches_iff (fellows : Fellows s t) {lo : Nat} {m : Multisig σ} :
    t.Vouches lo m ↔ s.Vouches lo m := by
  unfold Verifier.Vouches Verifier.keyOf
  rw [fellows.scheme_eq, fellows.roster_eq, fellows.message_eq]

/-- The packet with what `s` shows below a level is read and found genuine by
everyone on that level, and marks only members that `s` shows. -/
theorem read_of_combined (sound : s.Sound) (placed : t.Placed) (fellows : Fellows s t)
    (lawful : s.scheme.Lawful) {h : Holdings σ} (tidy : h.Tidy s.place)
    (heach : h.Each s.VouchesAt) {level : Nat} (hpos : 0 < level) (hle : level ≤ s.maxLevel)
    (hlevel : s.place.levelOf t.place.leaf = level) {m : Multisig σ}
    (hm : h.combined s.scheme s.place (level - 1) = .ok (some m)) {payload : List UInt8}
    (hpayload : m.encode s.scheme = .ok payload) :
    t.read ⟨s.id, UInt8.ofNat level, payload⟩ = .ok ⟨s.id, UInt8.ofNat level, m⟩ ∧
      t.verify ⟨s.id, UInt8.ofNat level, m⟩ = .ok () ∧
      ∀ i ∈ m.marks (t.place.startOf level), h.Shows s.place i := by
  obtain ⟨w, m', hw, hm', hgathers⟩ :=
    Holdings.combined_eq tidy s.scheme sound.size_le_limit hpos (Nat.le_succ_of_le hle)
  obtain rfl : m = m' := by
    rw [hm] at hm'
    exact Option.some.inj (Except.ok.inj hm')
  have hsize : s.place.size = t.place.size := by
    rw [sound.size_eq, placed.size_eq, fellows.roster_eq]
  have hmax : t.maxLevel = s.maxLevel := by
    unfold maxLevel Place.maxLevel
    rw [hsize]
  have hbyte := sound.toNat_level hle
  have hpeers : t.place.peers level = .ok w := by
    have := Place.peers_eq_below hsize (hlevel ▸ hpos)
    rw [hlevel] at this
    rw [this]
    exact hw
  have hsizeAt : t.place.sizeAt level = m.length := by
    rw [t.place.sizeAt_eq hpeers, hgathers.length_eq]
  have hshows := (tidy.mem_marks_iff hgathers).2
    ⟨Node.shows_leaf tidy, by rw [s.place.levelOf_eq_zero_iff.2 rfl]; exact hpos⟩
  have hcard : 0 < m.card := by
    rw [← Multisig.length_marks m w.lo]
    exact List.length_pos_of_mem hshows
  have hcontains : w.Contains s.place.leaf := by
    refine (s.place.contains_below hpos (Nat.le_succ_of_le hle) hw).2 ⟨s.place.leaf_lt, ?_⟩
    rw [s.place.levelOf_eq_zero_iff.2 rfl]
    exact hpos
  have hid : s.id.toInt.toNat = s.place.leaf := by
    rw [sound.leaf_eq]
    rfl
  have hidpos : 0 ≤ s.id.toInt := by
    rw [sound.leaf_eq]
    exact Int.natCast_nonneg _
  refine ⟨?_, ?_, ?_⟩
  · rw [read_eq_ok_iff]
    dsimp only
    rw [hbyte, hmax, hsizeAt, ← placed.size_eq, ← hsize, hid, fellows.scheme_eq]
    refine ⟨⟨hidpos, s.place.leaf_lt⟩, hle, Nat.lt_of_lt_of_le hcard m.mask.card_le_length, m, ?_,
      rfl, hcard, ⟨s.place.leaf - w.lo, ?_⟩, rfl⟩
    · exact Multisig.decode_encode (lawful.decode_encode _) hpayload
    · simp only [Place.indexAt, hpeers, bind, Except.bind, hid, hidpos, hcontains, and_self,
        if_true]
      rfl
  · refine (Verifier.verify_eq_ok_iff placed (s := w) ?_).2 ⟨hgathers.length_eq, ?_⟩
    · rw [hbyte]
      exact hpeers
    · apply fellows.vouches_iff.2
      exact Verifier.vouches_of_each (p := s.place) lawful rfl heach hgathers
  · intro i hi
    rw [t.place.startOf_eq hpeers] at hi
    exact ((tidy.mem_marks_iff hgathers).1 hi).1

end Setup

namespace Node

variable {s : Setup κ σ} {n n' : Node κ σ}

theorem mem_actionsSince {new : List (Action κ σ)} (h : n'.journal = new ++ n.journal)
    {a : Action κ σ} : a ∈ n.actionsSince n' ↔ a ∈ new := by
  unfold actionsSince
  rw [h, List.length_append, Nat.add_sub_cancel, List.take_left, List.mem_reverse]

theorem journal_of_step (fit : Fit s n) (sound : s.Sound) {e : Event}
    (h : n.step s e = .ok n') :
    ∃ new, n'.journal = new ++ n.journal ∧ ∀ receivers packet,
      .send receivers packet ∈ new → s.Informs n'.holdings (.send receivers packet) := by
  obtain ⟨n₁, worked, -, hcases⟩ := fit.step_cases sound h
  obtain ⟨new, hnew, hsays⟩ := worked.journal
  have hsends : ∀ receivers packet, .send receivers packet ∈ new →
      s.Informs n₁.holdings (.send receivers packet) := by
    intro receivers packet hsend
    rcases hsays _ hsend with hinforms | ⟨id, fault, hreport⟩
    · exact hinforms
    · cases hreport
  rcases hcases with ⟨-, -, rfl⟩ | ⟨m, -, -, rfl⟩
  · exact ⟨new, hnew, hsends⟩
  · unfold concluding
    split
    · exact ⟨new, hnew, hsends⟩
    · refine ⟨.publish m :: new, congrArg (List.cons _) hnew, fun receivers packet hsend => ?_⟩
      rcases List.mem_cons.1 hsend with hpublish | hsend
      · cases hpublish
      · exact hsends receivers packet hsend

/-- Nobody who is sent something by an honest node finds fault with it: whatever
the sender has heard before, each member it sends a packet to is another member
of the level named, reads from the packet what the sender then holds below that
level, and finds it genuine. So neither reading the packet nor verifying the
offer makes the receiver report anyone. -/
theorem sent_is_genuine {scheme : Scheme κ σ} (lawful : scheme.Lawful) {roster : Roster κ}
    (hdense : roster.Dense) {id : Int32} {message : List UInt8} {settings : Settings}
    {order : ContactOrder} {evaluator : Evaluator σ} {exclusion : Exclusion} {pace : Pace}
    (hword : settings.candidates < Word.limit)
    (hs : Setup.create scheme roster id message settings order evaluator exclusion pace = .ok s)
    {member : Member κ} (hmember : roster.member? id.toInt.toNat = some member) {own : σ}
    (hown : scheme.verifies member.key message own = true) {events : List Event}
    (hrun : run s events (create s own) = .ok n) {e : Event} (hstep : n.step s e = .ok n')
    {receivers : List (Member κ)} {packet : Packet}
    (hsend : .send receivers packet ∈ n.actionsSince n') {r : Member κ} (hr : r ∈ receivers)
    {settings' : Settings} {order' : ContactOrder} {evaluator' : Evaluator σ}
    {exclusion' : Exclusion} {pace' : Pace} {t : Setup κ σ}
    (ht : Setup.create scheme roster r.id message settings' order' evaluator' exclusion' pace' =
      .ok t) :
    ∃ level m members, packet.level.toNat = level ∧
      s.place.membersAt roster level = .ok members ∧ r ∈ members ∧ r.id ≠ id ∧
      0 < level ∧ n'.holdings.combined scheme s.place (level - 1) = .ok (some m) ∧
      t.read packet = .ok ⟨id, packet.level, m⟩ ∧ t.verify ⟨id, packet.level, m⟩ = .ok () ∧
      (∀ q : Node κ σ, (q.receive t packet).reports = q.reports) ∧
      ∀ (b b' : Backlog σ) holdings done fault,
        b.pass t.toVerifier t.evaluator holdings = .ok (b', done) →
        done.verdict ≠ some (.forged ⟨id, packet.level, m⟩ fault) := by
  have sound := Setup.sound_of_create hdense hword hs
  have placed := Setup.placed_of_create hdense ht
  obtain ⟨hscheme, hroster, hmessage, hid, -, -, -, hsize, hleaf⟩ := Setup.eq_of_create hs
  obtain ⟨hscheme', hroster', hmessage', -, -, -, -, -, hleaf'⟩ := Setup.eq_of_create ht
  have fellows : Setup.Fellows s t :=
    ⟨hscheme'.trans hscheme.symm, hroster'.trans hroster.symm, hmessage'.trans hmessage.symm⟩
  have lawful' : s.scheme.Lawful := hscheme ▸ lawful
  have backed := backed_of_create lawful hs hmember hown
  obtain ⟨n₀, hrun₀, fit⟩ := (fit_create s own).run sound events
  obtain rfl : n₀ = n := Except.ok.inj (hrun₀.symm.trans hrun)
  have backed' := backed.run (fit_create s own) sound lawful' hrun
  obtain ⟨n₁, hstep₁, fit'⟩ := fit.step sound e
  obtain rfl : n₁ = n' := Except.ok.inj (hstep₁.symm.trans hstep)
  have held := (backed'.step fit sound lawful' hstep).held
  obtain ⟨new, hnew, hinforms⟩ := journal_of_step fit sound hstep
  obtain ⟨level, m, hpos, hle, hm, hpayload, horigin, hbyte, hpeers⟩ :=
    hinforms receivers packet ((mem_actionsSince hnew).1 hsend)
  obtain ⟨i, hi, hlevel, hri⟩ := hpeers r hr
  obtain ⟨w, hw⟩ := s.place.exists_peers hi hlevel
  obtain ⟨members, hmembers, hcount, hget, -⟩ :=
    Place.peer_of_membersAt sound.dense sound.size_eq hle hw
  have hnumber := sound.dense.toInt_id (sound.size_eq ▸ hi) hri
  have hti : t.place.leaf = i := by omega
  obtain ⟨hread, hverify, -⟩ := Setup.read_of_combined sound placed fellows lawful' fit'.tidy held
    hpos hle (hti.symm ▸ hlevel) hm hpayload
  have hpacket : packet = ⟨s.id, UInt8.ofNat level, packet.payload⟩ := by
    rw [← horigin, ← hbyte]
  rw [← hpacket, ← hbyte, hid] at hread
  rw [← hbyte, hid] at hverify
  refine ⟨level, m, members, ?_, hroster ▸ hmembers, ?_, ?_, hpos, hscheme ▸ hm, hread, hverify,
    fun q => ?_, fun b b' holdings done fault hpass hforged => ?_⟩
  · rw [hbyte, sound.toNat_level hle]
  · have hcontained := ((s.place.peers_spec hle hw).2.2 i).2 ⟨hi, hlevel⟩
    have hk : i - w.lo < members.size := by
      rw [hcount, s.place.sizeAt_eq hw, Span.size]
      have := hcontained.1
      have := hcontained.2
      omega
    refine Array.mem_of_getElem? (i := i - w.lo) ?_
    rw [hget _ hk, Nat.add_sub_cancel' hcontained.1]
    exact hri
  · rintro rfl
    have : i = s.place.leaf := by omega
    rw [s.place.levelOf_eq_zero_iff.2 this] at hlevel
    omega
  · unfold receive
    split
    · rfl
    · rw [hread]
      rfl
  · rw [Backlog.verify_of_forged hpass hforged] at hverify
    cases hverify

/-- The first of two members, which has heard nonsense, sends its own signature
to the second. -/
theorem sent_is_genuine_of_two :
    ∃ (s t : Setup IdSet Plain.Signature) (n n' : Node IdSet Plain.Signature) (r : Member IdSet)
      (packet : Packet) (m : Multisig Plain.Signature),
      (Setup.create Plain.scheme Plain.pair 0 [7] {} .ascending .byGain .never .idle = .ok s ∧
        run s [.receive ⟨-1, 255, []⟩] (create s (Plain.sign 0)) = .ok n ∧
        n.step s .start = .ok n' ∧ .send [r] packet ∈ n.actionsSince n' ∧
        Setup.create Plain.scheme Plain.pair r.id [7] {} .ascending .acceptAll .never .idle = .ok t) ∧
      t.read packet = .ok ⟨0, packet.level, m⟩ ∧ t.verify ⟨0, packet.level, m⟩ = .ok () := by
  have hgiven : ∃ (s t : Setup IdSet Plain.Signature) (n n' : Node IdSet Plain.Signature)
      (packet : Packet),
      Setup.create Plain.scheme Plain.pair 0 [7] {} .ascending .byGain .never .idle = .ok s ∧
        run s [.receive ⟨-1, 255, []⟩] (create s (Plain.sign 0)) = .ok n ∧
        n.step s .start = .ok n' ∧
        .send [⟨1, "second", .singleton 1⟩] packet ∈ n.actionsSince n' ∧
        Setup.create Plain.scheme Plain.pair 1 [7] {} .ascending .acceptAll .never .idle = .ok t :=
    ⟨_, _, _, _, _, rfl, rfl, rfl, .head _, rfl⟩
  obtain ⟨s, t, n, n', packet, hs, hrun, hstep, hsend, ht⟩ := hgiven
  have hown : Plain.scheme.verifies (IdSet.singleton 0) [7] (Plain.sign 0) = true := by decide
  obtain ⟨level, m, members, -, -, -, -, -, -, hread, hverify, -⟩ := sent_is_genuine
    Plain.lawful_scheme Plain.dense_pair (by decide) hs rfl hown hrun hstep hsend
    List.mem_cons_self ht
  exact ⟨s, t, n, n', _, packet, m, ⟨hs, hrun, hstep, hsend, ht⟩, hread, hverify⟩

end Node

end MultisigTree
