import MultisigTree.Proofs.Contacts

/-!
# Every member in its turn

The members of a level are handed out in one order, which depends on nothing
but the place, the roster and the order of contacts (`Place.contactList`). Each
request takes the next ones, and a request at one level does not touch another
(`Contacts.After`), so however requests come, what a level has been asked for in
all is a front part of its list (`Place.contacts_in_turn`).
-/
namespace MultisigTree

/-- A request for the next members of a level, at most `count`. -/
structure Request where
  level : Nat
  count : Nat
  deriving DecidableEq, Repr

namespace Request

def asked (requests : List Request) (level : Nat) : Nat :=
  ((requests.filter (·.level = level)).map (·.count)).sum

theorem asked_nil (level : Nat) : asked [] level = 0 := rfl

theorem asked_append (before after : List Request) (level : Nat) :
    asked (before ++ after) level = asked before level + asked after level := by
  simp [asked]

theorem asked_cons (request : Request) (after : List Request) (level : Nat) :
    asked (request :: after) level =
      (if request.level = level then request.count else 0) + asked after level := by
  unfold asked
  by_cases hlevel : request.level = level <;> simp [hlevel]

theorem asked_singleton (request : Request) (level : Nat) :
    asked [request] level = if request.level = level then request.count else 0 := by
  rw [asked_cons, asked_nil, Nat.add_zero]

variable {α : Type}

/-- What the answers to the requests at a level have brought, one after the
other. -/
def brought (requests : List Request) (answers : List (Option (List α))) (level : Nat) : List α :=
  ((requests.zip answers).filter (·.1.level = level)).flatMap (·.2.getD [])

theorem brought_cons (request : Request) (requests : List Request) (answer : Option (List α))
    (answers : List (Option (List α))) (level : Nat) :
    brought (request :: requests) (answer :: answers) level =
      (if request.level = level then answer.getD [] else []) ++ brought requests answers level := by
  unfold brought
  by_cases hlevel : request.level = level <;> simp [hlevel]

def serve (left : List α) (count : Nat) : Option (List α) :=
  if (left.take count).isEmpty then none else some (left.take count)

theorem getD_serve (left : List α) (count : Nat) :
    (serve left count).getD [] = left.take count := by
  unfold serve
  split
  · rename_i hempty
    exact (List.isEmpty_iff.1 hempty).symm
  · rfl

theorem serve_eq_none_iff {left : List α} {count : Nat} :
    serve left count = none ↔ count = 0 ∨ left = [] := by
  simp [serve, Decidable.imp_iff_not_or]

theorem serve_eq_some_iff {left taken : List α} {count : Nat} :
    serve left count = some taken ↔ taken ≠ [] ∧ taken = left.take count := by
  unfold serve
  split
  · rename_i hempty
    rw [List.isEmpty_iff] at hempty
    simp only [hempty, reduceCtorEq, false_iff, not_and]
    exact id
  · rename_i hne
    rw [List.isEmpty_iff] at hne
    grind

end Request

namespace Place

variable {κ : Type} (p : Place) (roster : Roster κ) (order : ContactOrder)

/-- The members of a level in the order in which they are contacted; nobody if
the level has no members or they cannot be listed. -/
def contactList (level : Nat) : List (Member κ) :=
  match p.membersAt roster level with
  | .error _ => []
  | .ok members => (order.positions level members.size).toList.filterMap (members[·]?)

/-- Requests one after the other, each on what the ones before have left. -/
def contactAll : List Request → Contacts →
    Except Crash (List (Option (List (Member κ))) × Contacts)
  | [], contacts => return ([], contacts)
  | request :: rest, contacts => do
      let (answer, contacts) ← p.contact roster order request.level request.count contacts
      let (answers, contacts) ← contactAll rest contacts
      return (answer :: answers, contacts)

/-- No request reaches past the last word while its level has members left. -/
def InReach (requests : List Request) : Prop :=
  ∀ before request after, requests = before ++ request :: after →
    Request.asked before request.level < (p.contactList roster order request.level).length →
    Request.asked before request.level + request.count < Word.limit

variable {p roster order} {level : Nat} {members : Array (Member κ)}

theorem contactList_of_error {fault : Fault} (h : p.membersAt roster level = .error fault) :
    p.contactList roster order level = [] := by
  simp only [contactList, h]

theorem contactList_eq (h : p.membersAt roster level = .ok members) :
    p.contactList roster order level =
      (order.positions level members.size).toList.filterMap (members[·]?) := by
  simp only [contactList, h]

theorem contactList_perm (order : ContactOrder) (h : p.membersAt roster level = .ok members) :
    (p.contactList roster order level).Perm members.toList := by
  rw [contactList_eq h, ← List.filterMap_getElem?_range members]
  exact (order.positions_perm level members.size).filterMap _

theorem length_contactList (order : ContactOrder) (h : p.membersAt roster level = .ok members) :
    (p.contactList roster order level).length = members.size :=
  (contactList_perm order h).length_eq

end Place

namespace ContactOrder

theorem size_positions (order : ContactOrder) (level count : Nat) :
    (order.positions level count).size = count := by
  have := (order.positions_perm level count).length_eq
  rwa [Array.length_toList, List.length_range] at this

theorem lt_of_mem_positions {order : ContactOrder} {level count i : Nat}
    (hi : i ∈ order.positions level count) : i < count :=
  List.mem_range.1 ((order.positions_perm level count).mem_iff.1 (Array.mem_toList_iff.2 hi))

end ContactOrder

variable {κ : Type} {p : Place} {roster : Roster κ} {order : ContactOrder}

/-- Where the cursors stand after the requests. -/
def Contacts.After (p : Place) (roster : Roster κ) (order : ContactOrder)
    (requests : List Request) (contacts : Contacts) : Prop :=
  ∀ level members, p.membersAt roster level = .ok members →
    contacts.cursorAt order level members.size =
      ⟨order.positions level members.size, min (Request.asked requests level) members.size⟩

theorem Contacts.after_nil : Contacts.After p roster order [] LevelMap.empty := by
  intro level members _
  rw [cursorAt, LevelMap.get?_empty, Request.asked_nil, Nat.zero_min]
  rfl

namespace Place

open Request

/-- The members between two positions of the list. -/
theorem select_extract {level : Nat} {members : Array (Member κ)}
    (h : p.membersAt roster level = .ok members) (start count : Nat) :
    Member.select members ((order.positions level members.size).extract start
        (min (start + count) members.size)).toList =
      .ok (((p.contactList roster order level).drop start).take count) := by
  have hsome : ∀ i ∈ (order.positions level members.size).toList, (members[i]?).isSome := by
    intro i hi
    have := ContactOrder.lt_of_mem_positions (Array.mem_toList_iff.1 hi)
    simpa using this
  have hcut : ((order.positions level members.size).extract start
      (min (start + count) members.size)).toList =
      ((order.positions level members.size).toList.drop start).take count := by
    rw [Array.toList_extract, List.extract_eq_take_drop, List.take_eq_take_iff]
    have := order.size_positions level members.size
    simp only [List.length_drop, Array.length_toList]
    omega
  have hdropped : ∀ i ∈ (order.positions level members.size).toList.drop start,
      (members[i]?).isSome := fun i hi => hsome i (List.mem_of_mem_drop hi)
  rw [hcut, Member.select_eq, List.filterMap_take hdropped, List.filterMap_drop hsome,
    contactList_eq h]
  intro i hi
  simpa using hdropped i (List.mem_of_mem_take hi)

/-- A request takes the next members of the level, and the cursor moves past
them. -/
theorem contact_of_cursorAt {level count next : Nat} {members : Array (Member κ)}
    {contacts : Contacts} (h : p.membersAt roster level = .ok members)
    (hcursor : contacts.cursorAt order level members.size =
      ⟨order.positions level members.size, next⟩) (hnext : next ≤ members.size)
    (hreach : next < members.size → next + count < Word.limit) :
    p.contact roster order level count contacts = .ok
      (serve ((p.contactList roster order level).drop next) count, contacts.insert level
        ⟨order.positions level members.size, min (next + count) members.size⟩) := by
  have hlength := length_contactList order h
  have hsize := order.size_positions level members.size
  simp only [contact, h, hcursor, hsize]
  by_cases hdone : count = 0 ∨ members.size ≤ next
  · have hnone : serve ((p.contactList roster order level).drop next) count = none := by
      rw [serve_eq_none_iff, List.drop_eq_nil_iff, hlength]
      exact hdone
    have hstill : min (next + count) members.size = next := by omega
    rw [if_pos hdone, hnone, hstill]
    rfl
  · have hfits := hreach (by omega)
    have hsome : serve ((p.contactList roster order level).drop next) count =
        some (((p.contactList roster order level).drop next).take count) := by
      rw [serve_eq_some_iff]
      refine ⟨fun hnil => ?_, rfl⟩
      rw [List.take_eq_nil_iff, List.drop_eq_nil_iff, hlength] at hnil
      exact hdone hnil
    rw [if_neg hdone, hsome]
    simp only [Word.add, if_pos hfits, bind, Except.bind, select_extract h]
    rfl

theorem contact_of_fresh {level count : Nat} {contacts : Contacts} {members : Array (Member κ)}
    (h : p.membersAt roster level = .ok members) (hfresh : contacts.get? level = none)
    (hcount : count < Word.limit) :
    p.contact roster order level count contacts = .ok
      (serve (p.contactList roster order level) count, contacts.insert level
        ⟨order.positions level members.size, min count members.size⟩) := by
  have hcursor : contacts.cursorAt order level members.size =
      ⟨order.positions level members.size, 0⟩ := by
    rw [Contacts.cursorAt, hfresh]
    rfl
  have := contact_of_cursorAt h hcursor (Nat.zero_le _)
    (by rw [Nat.zero_add]; exact fun _ => hcount)
  rwa [List.drop_zero, Nat.zero_add] at this

/-- A request is served with the next members of its level, and moves the cursor
of that level alone. -/
theorem contact_after {before : List Request} {contacts : Contacts}
    (after : contacts.After p roster order before) (request : Request)
    (hreach : asked before request.level < (p.contactList roster order request.level).length →
      asked before request.level + request.count < Word.limit) :
    ∃ contacts', p.contact roster order request.level request.count contacts = .ok
        (serve ((p.contactList roster order request.level).drop (asked before request.level))
          request.count, contacts') ∧
      contacts'.After p roster order (before ++ [request]) := by
  cases hmembers : p.membersAt roster request.level with
  | error fault =>
      refine ⟨contacts, ?_, fun level members hother => ?_⟩
      · simp [contact, hmembers, contactList_of_error hmembers, serve]
      · have hne : request.level ≠ level := by
          rintro rfl
          rw [hmembers] at hother
          cases hother
        rw [after level members hother, asked_append, asked_singleton, if_neg hne, Nat.add_zero]
  | ok members =>
      have hlength := length_contactList order hmembers
      have hcontact : p.contact roster order request.level request.count contacts = _ :=
        contact_of_cursorAt hmembers (after request.level members hmembers)
          (Nat.min_le_right _ _) (by omega)
      have hleft : (p.contactList roster order request.level).drop
          (min (asked before request.level) members.size) =
          (p.contactList roster order request.level).drop (asked before request.level) := by
        rcases Nat.le_total (asked before request.level) members.size with hle | hle
        · rw [Nat.min_eq_left hle]
        · rw [Nat.min_eq_right hle, List.drop_eq_nil_iff.2 (Nat.le_of_eq hlength),
            List.drop_eq_nil_iff.2 (hlength ▸ hle)]
      refine ⟨_, hleft ▸ hcontact, fun level others hothers => ?_⟩
      rw [Contacts.cursorAt, LevelMap.get?_insert, asked_append, asked_singleton]
      by_cases hlevel : request.level = level
      · subst hlevel
        obtain rfl : members = others := Except.ok.inj (hmembers.symm.trans hothers)
        rw [if_pos rfl, if_pos rfl, Option.getD_some]
        congr 1
        omega
      · rw [if_neg hlevel, if_neg hlevel, Nat.add_zero]
        exact after level others hothers

theorem contactAll_after {before : List Request} (requests : List Request) {contacts : Contacts}
    (after : contacts.After p roster order before)
    (hreach : ∀ done request rest, requests = done ++ request :: rest →
      asked (before ++ done) request.level <
        (p.contactList roster order request.level).length →
      asked (before ++ done) request.level + request.count < Word.limit) :
    ∃ answers contacts', p.contactAll roster order requests contacts = .ok (answers, contacts') ∧
      answers.length = requests.length ∧
      (∀ k level, brought (requests.take k) (answers.take k) level =
        ((p.contactList roster order level).drop (asked before level)).take
          (asked (requests.take k) level)) ∧
      ∀ done request rest, requests = done ++ request :: rest →
        answers[done.length]? = some (serve ((p.contactList roster order request.level).drop
          (asked (before ++ done) request.level)) request.count) := by
  induction requests generalizing before contacts with
  | nil =>
      refine ⟨[], contacts, rfl, rfl, fun k level => ?_, fun done request rest h => ?_⟩
      · rw [List.take_nil, asked_nil, List.take_zero]
        rfl
      · simp at h
  | cons request requests ih =>
      obtain ⟨contacts₁, hcontact, after₁⟩ := contact_after after request
        (by simpa using hreach [] request requests rfl)
      obtain ⟨answers, contacts', hall, hlength, hbrought, hanswers⟩ := ih after₁ (by
        intro done next rest hsplit
        simpa using hreach (request :: done) next rest (by rw [hsplit, List.cons_append]))
      refine ⟨_, contacts', by rw [contactAll, hcontact]; simp only [bind, Except.bind, hall]; rfl,
        by rw [List.length_cons, List.length_cons, hlength], fun k level => ?_, ?_⟩
      · cases k with
        | zero => simp [brought, asked]
        | succ k =>
            rw [List.take_succ_cons, List.take_succ_cons, brought_cons, hbrought, getD_serve,
              asked_append, asked_singleton, asked_cons]
            by_cases hlevel : request.level = level
            · rw [if_pos hlevel, if_pos hlevel, hlevel, List.take_add, List.drop_drop]
            · rw [if_neg hlevel, if_neg hlevel, Nat.zero_add, Nat.add_zero, List.nil_append]
      · intro done next rest hsplit
        cases done with
        | nil =>
            obtain ⟨rfl, -⟩ := List.cons.inj hsplit
            simp
        | cons first done =>
            obtain ⟨rfl, hrest⟩ := List.cons.inj hsplit
            simpa using hanswers done next rest hrest

/-- Whatever is asked for, at whatever levels and however much at a time, as long
as no sum leaves a word, every request is answered. At each level the answers,
one after the other, are a front part of one list of all its members, which
depends on neither the requests nor the answers; so nobody is named twice. An
answer names as many members as are asked for, or all that are left, and there
is none exactly if none are asked for, if the level has no members to list, or
if all have been named. -/
theorem contacts_in_turn (p : Place) (roster : Roster κ) (order : ContactOrder)
    (requests : List Request) (hreach : p.InReach roster order requests) :
    ∃ answers contacts, p.contactAll roster order requests .empty = .ok (answers, contacts) ∧
      answers.length = requests.length ∧
      (∀ level, brought requests answers level =
          (p.contactList roster order level).take (asked requests level) ∧
        ∀ members, p.membersAt roster level = .ok members →
          (p.contactList roster order level).Perm members.toList ∧
          ((members.toList.map (·.id)).Nodup →
            ((brought requests answers level).map (·.id)).Nodup)) ∧
      ∀ before request after, requests = before ++ request :: after →
        ∃ answer, answers[before.length]? = some answer ∧
          let named := brought before (answers.take before.length) request.level
          let left := (p.contactList roster order request.level).length - named.length
          (answer = none ↔ request.count = 0 ∨
            (∃ fault, p.membersAt roster request.level = .error fault) ∨ left = 0) ∧
          ∀ receivers, answer = some receivers →
            receivers ≠ [] ∧ receivers.length = min request.count left := by
  obtain ⟨answers, contacts, hall, hlength, hbrought, hanswers⟩ :=
    contactAll_after requests Contacts.after_nil hreach
  have hnamed : ∀ k level, brought (requests.take k) (answers.take k) level =
      (p.contactList roster order level).take (asked (requests.take k) level) := hbrought
  have hwhole : ∀ level, brought requests answers level =
      (p.contactList roster order level).take (asked requests level) := by
    intro level
    have := hnamed requests.length level
    rwa [List.take_length, ← hlength, List.take_length] at this
  refine ⟨answers, contacts, hall, hlength, fun level => ⟨hwhole level, fun members hmembers => ?_⟩,
    fun before request after hsplit => ⟨_, hanswers before request after hsplit, ?_⟩⟩
  · have hperm := contactList_perm order hmembers
    refine ⟨hperm, fun hnodup => ?_⟩
    have hlist : ((p.contactList roster order level).map (·.id)).Nodup :=
      (hperm.map _).nodup_iff.2 hnodup
    rw [hwhole, List.map_take]
    exact hlist.sublist (List.take_sublist _ _)
  · have hbefore := hnamed before.length request.level
    rw [hsplit, List.take_left] at hbefore
    dsimp only
    rw [hbefore, List.nil_append, List.length_take]
    generalize asked before request.level = done
    constructor
    · rw [serve_eq_none_iff, List.drop_eq_nil_iff]
      constructor
      · intro h
        omega
      · rintro (hcount | ⟨fault, hfault⟩ | hleft)
        · exact .inl hcount
        · simp [contactList_of_error hfault]
        · omega
    · intro receivers hreceivers
      obtain ⟨hne, rfl⟩ := serve_eq_some_iff.1 hreceivers
      refine ⟨hne, ?_⟩
      rw [List.length_take, List.length_drop]
      omega

section
variable (hdense : roster.Dense) (hsize : p.size = roster.size)
include hdense hsize

theorem nodup_ids {level : Nat} {members : Array (Member κ)}
    (h : p.membersAt roster level = .ok members) : (members.toList.map (·.id)).Nodup := by
  cases hs : p.peers level with
  | error fault =>
      simp only [membersAt, hs] at h
      cases h
  | ok s =>
      obtain ⟨listed, hlisted, hcount, hget⟩ := p.membersAt_eq hdense hsize hs
      obtain rfl : members = listed := Except.ok.inj (h.symm.trans hlisted)
      have hhi := (p.bounds_of_peers hs).2
      have hid : ∀ k (hk : k < members.size), members[k].id.toInt = (s.lo + k : Nat) := by
        intro k hk
        have hmember := hget k (hcount ▸ hk)
        rw [Array.getElem?_eq_getElem hk] at hmember
        rw [hcount, Span.size] at hk
        exact hdense.toInt_id (by omega) hmember.symm
      rw [List.nodup_iff_pairwise_ne, List.pairwise_iff_getElem]
      intro i j hi hj hij heq
      simp only [List.length_map, Array.length_toList] at hi hj
      simp only [List.getElem_map, Array.getElem_toList] at heq
      have := congrArg Int32.toInt heq
      rw [hid i hi, hid j hj] at this
      omega

theorem length_contactList_le (order : ContactOrder) (level : Nat) :
    (p.contactList roster order level).length ≤ 2 ^ 31 := by
  have hbound := hdense.size_le
  cases hmembers : p.membersAt roster level with
  | error fault => simp [contactList_of_error hmembers]
  | ok members =>
      rw [length_contactList order hmembers]
      cases hs : p.peers level with
      | error fault =>
          simp only [membersAt, hs] at hmembers
          cases hmembers
      | ok s =>
          obtain ⟨listed, hlisted, hcount, -⟩ := p.membersAt_eq hdense hsize hs
          obtain rfl : members = listed := Except.ok.inj (hmembers.symm.trans hlisted)
          have := (p.bounds_of_peers hs).2
          rw [hcount, Span.size]
          omega

/-- Who always asks for the same number of members, whatever that is, stays in
reach. -/
theorem inReach_of_constant {requests : List Request} (count : Nat) (hcount : count < Word.limit)
    (hsame : ∀ request ∈ requests, request.count = count) : p.InReach roster order requests := by
  have hasked : ∀ level before, (∀ request ∈ before, request.count = count) →
      asked before level = 0 ∨ count ≤ asked before level := by
    intro level before hbefore
    induction before with
    | nil => exact .inl rfl
    | cons request before ih =>
        rw [asked_cons, hbefore request List.mem_cons_self]
        have := ih fun r hr => hbefore r (List.mem_cons_of_mem _ hr)
        split <;> omega
  rintro before request after rfl hlt
  have hbound := length_contactList_le hdense hsize order request.level
  have := hasked request.level before fun r hr => hsame r (List.mem_append_left _ hr)
  rw [hsame request (by simp)]
  unfold Word.limit at hcount ⊢
  omega

end

/-- The second of six members always asks for two: at a level with two members,
twice at the last level, which has two as well, and at one there is not. -/
theorem contacts_in_turn_of_six :
    ∃ (p : Place) (order : ContactOrder) (requests : List Request), p.size = 6 ∧ p.leaf = 1 ∧
      order = .shuffled (Vector.replicate 32 7) ∧
      requests = [⟨2, 2⟩, ⟨3, 2⟩, ⟨9, 2⟩, ⟨3, 2⟩] ∧ p.InReach (Plain.roster 6) order requests ∧
      ∃ answers contacts,
        p.contactAll (Plain.roster 6) order requests .empty = .ok (answers, contacts) ∧
        ∀ level,
          brought requests answers level =
            (p.contactList (Plain.roster 6) order level).take (asked requests level) ∧
          ∀ members, p.membersAt (Plain.roster 6) level = .ok members →
            ((brought requests answers level).map (·.id)).Nodup := by
  have hsize : 6 = (Plain.roster 6).size := (Plain.size_roster 6).symm
  let p : Place := ⟨6, 1, by decide⟩
  have hreach : p.InReach (Plain.roster 6) (.shuffled (Vector.replicate 32 7))
      [⟨2, 2⟩, ⟨3, 2⟩, ⟨9, 2⟩, ⟨3, 2⟩] :=
    inReach_of_constant (Plain.dense_roster 6) hsize 2 (by decide) (by decide)
  obtain ⟨answers, contacts, hall, -, hlevels, -⟩ := contacts_in_turn p (Plain.roster 6) _ _ hreach
  refine ⟨p, _, _, rfl, rfl, rfl, rfl, hreach, answers, contacts, hall, fun level => ?_⟩
  obtain ⟨hbrought, hmembers⟩ := hlevels level
  exact ⟨hbrought, fun members h => (hmembers members h).2
    (nodup_ids (Plain.dense_roster 6) hsize h)⟩

end Place

end MultisigTree
