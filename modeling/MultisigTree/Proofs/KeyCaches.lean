import Mathlib.Data.List.Induction
import MultisigTree.Proofs.Preliminaries
import MultisigTree.Scheme.Bls

/-!
# Nobody sees the cache

Whatever a cache keeps and whatever it lets go, as long as it finds under an
encoding nothing but the key put in last under it (`Policy.Faithful`), decoding by
way of it answers like decoding anew, whatever has been decoded or refused before
(`Policy.decode_after`). The cache of the keys used last is a faithful one
(`KeyCache.faithful_empty`). It holds the keys of the encodings decoded last, each
once, the last used first, as many as there is room for
(`KeyCache.entries_after`).
-/
namespace MultisigTree

namespace KeyCache

variable {κ : Type} (width : Nat) (decoder : List UInt8 → Except EncodingFault κ)

/-- What a byte string decodes to without a cache. -/
def decodeAnew (bytes : List UInt8) : Except EncodingFault κ :=
  if bytes.length = width then decoder bytes else .error (.keyLength bytes.length)

/-- The encodings of keys among the byte strings, each once with its key, the
last one first. -/
def recent (past : List (List UInt8)) : List (List UInt8 × κ) :=
  past.foldl (fun entries bytes =>
    match decodeAnew width decoder bytes with
    | .ok key => (bytes, key) :: entries.filter (·.1 != bytes)
    | .error _ => entries) []

/-- How caches with states of type `γ` work. A look may change the cache as well. -/
structure Policy (γ κ : Type) where
  look : γ → List UInt8 → Option κ × γ
  put : γ → List UInt8 → κ → γ

namespace Policy

variable {γ : Type} (policy : Policy γ κ)

/-- `KeyCache.decode` by way of any cache. -/
def decode (c : γ) (bytes : List UInt8) : Except EncodingFault κ × γ :=
  if bytes.length ≠ width then (.error (.keyLength bytes.length), c)
  else
    match policy.look c bytes with
    | (some key, c) => (.ok key, c)
    | (none, c) =>
        match decoder bytes with
        | .ok key => (.ok key, policy.put c bytes key)
        | .error fault => (.error fault, c)

def after (c : γ) (past : List (List UInt8)) : γ :=
  past.foldl (fun c bytes => (policy.decode width decoder c bytes).2) c

inductive Reached (c : γ) : List (List UInt8 × κ) → γ → Prop
  | start : Reached c [] c
  | look {stored : List (List UInt8 × κ)} {c' : γ} (reached : Reached c stored c')
      (bytes : List UInt8) : Reached c stored (policy.look c' bytes).2
  | put {stored : List (List UInt8 × κ)} {c' : γ} (reached : Reached c stored c')
      (bytes : List UInt8) (key : κ) : Reached c ((bytes, key) :: stored) (policy.put c' bytes key)

/-- From `c` on, nothing is found under an encoding but the key put in last under
it. It may be gone as well, for a while or for good. -/
def Faithful (c : γ) : Prop :=
  ∀ stored c', policy.Reached c stored c' → ∀ bytes key,
    (policy.look c' bytes).1 = some key → stored.lookup bytes = some key

variable {width decoder} {policy} {c : γ}

/-- As long as all that was put in was decoded, what is answered is decoded, and so
is what is put in then. -/
theorem decode_of_reached (faithful : policy.Faithful c) {stored : List (List UInt8 × κ)} {c' : γ}
    (reached : policy.Reached c stored c')
    (hstored : ∀ entry ∈ stored, decodeAnew width decoder entry.1 = .ok entry.2)
    (bytes : List UInt8) :
    (policy.decode width decoder c' bytes).1 = decodeAnew width decoder bytes ∧
      ∃ stored', policy.Reached c stored' (policy.decode width decoder c' bytes).2 ∧
        ∀ entry ∈ stored', decodeAnew width decoder entry.1 = .ok entry.2 := by
  unfold Policy.decode
  by_cases hwidth : bytes.length = width
  · have hanew : decodeAnew width decoder bytes = decoder bytes := if_pos hwidth
    have hlook := faithful stored c' reached bytes
    have hreached := reached.look bytes
    rw [if_neg (not_not_intro hwidth)]
    generalize policy.look c' bytes = looked at hlook hreached
    obtain ⟨_ | key, c''⟩ := looked
    · cases hkey : decoder bytes with
      | error fault => exact ⟨(hanew.trans hkey).symm, stored, hreached, hstored⟩
      | ok key =>
          refine ⟨(hanew.trans hkey).symm, _, hreached.put bytes key, fun entry hentry => ?_⟩
          rcases List.mem_cons.1 hentry with rfl | hentry
          · exact hanew.trans hkey
          · exact hstored entry hentry
    · obtain ⟨front, back, hsplit, -⟩ := List.lookup_eq_some_iff.1 (hlook key rfl)
      have hkey := hstored (bytes, key) (by simp [hsplit])
      exact ⟨hkey.symm, stored, hreached, hstored⟩
  · have hanew : decodeAnew width decoder bytes = .error (.keyLength bytes.length) :=
      if_neg hwidth
    rw [if_pos hwidth]
    exact ⟨hanew.symm, stored, reached, hstored⟩

theorem after_concat (c : γ) (past : List (List UInt8)) (bytes : List UInt8) :
    policy.after width decoder c (past ++ [bytes]) =
      (policy.decode width decoder (policy.after width decoder c past) bytes).2 := by
  simp [after]

theorem reached_after (faithful : policy.Faithful c) (past : List (List UInt8)) :
    ∃ stored, policy.Reached c stored (policy.after width decoder c past) ∧
      ∀ entry ∈ stored, decodeAnew width decoder entry.1 = .ok entry.2 := by
  induction past using List.reverseRecOn with
  | nil => exact ⟨[], .start, nofun⟩
  | append_singleton past bytes ih =>
      obtain ⟨stored, reached, hstored⟩ := ih
      rw [after_concat]
      exact (decode_of_reached faithful reached hstored bytes).2

/-- By way of a faithful cache a byte string is decoded to what it decodes to anew,
whatever has been decoded or refused before. -/
theorem decode_after (faithful : policy.Faithful c) (past : List (List UInt8))
    (bytes : List UInt8) :
    (policy.decode width decoder (policy.after width decoder c past) bytes).1 =
      decodeAnew width decoder bytes := by
  obtain ⟨stored, reached, hstored⟩ := reached_after faithful past
  exact (decode_of_reached faithful reached hstored bytes).1

end Policy

/-- The keys used last are kept, and one that is found has been used by that. -/
def lastUsed : Policy (KeyCache κ) κ where
  look c bytes := (c.find? bytes, (c.find? bytes).elim c (c.use bytes))
  put := use

variable {width decoder}

theorem lastUsed_decode (c : KeyCache κ) (bytes : List UInt8) :
    lastUsed.decode width decoder c bytes = c.decode width decoder bytes := by
  unfold Policy.decode KeyCache.decode
  have hlook : lastUsed.look c bytes = (c.find? bytes, (c.find? bytes).elim c (c.use bytes)) := rfl
  rw [hlook]
  cases c.find? bytes <;> rfl

theorem find?_use {c : KeyCache κ} {bytes other : List UInt8} {key found : κ}
    (h : (c.use bytes key).find? other = some found) :
    other = bytes ∧ found = key ∨ other ≠ bytes ∧ c.find? other = some found := by
  have hall := (List.take_prefix _ _).lookup_eq_some h
  by_cases hbytes : other = bytes
  · rw [hbytes, List.lookup_cons_self, Option.some.injEq] at hall
    exact .inl ⟨hbytes, hall.symm⟩
  · rw [List.lookup_cons, beq_eq_false_iff_ne.2 hbytes] at hall
    exact .inr ⟨hbytes, (List.lookup_filter_of_ne hbytes c.entries).symm.trans hall⟩

/-- The keys used last are a faithful cache, of whatever capacity. -/
theorem faithful_empty (capacity : Nat) : lastUsed.Faithful (empty capacity : KeyCache κ) := by
  intro stored c reached
  induction reached with
  | start => exact nofun
  | @look stored c reached bytes ih =>
      intro other found hfound
      change ((c.find? bytes).elim c (c.use bytes)).find? other = some found at hfound
      cases hfind : c.find? bytes with
      | none =>
          rw [hfind] at hfound
          exact ih other found hfound
      | some key =>
          rw [hfind] at hfound
          rcases find?_use hfound with ⟨rfl, rfl⟩ | ⟨-, hfound⟩
          · exact ih other found hfind
          · exact ih other found hfound
  | put reached bytes key ih =>
      intro other found hfound
      rcases find?_use hfound with ⟨rfl, rfl⟩ | ⟨hne, hfound⟩
      · exact List.lookup_cons_self
      · rw [List.lookup_cons, beq_eq_false_iff_ne.2 hne]
        exact ih other found hfound

theorem recent_concat_ok {past : List (List UInt8)} {bytes : List UInt8} {key : κ}
    (h : decodeAnew width decoder bytes = .ok key) :
    recent width decoder (past ++ [bytes]) =
      (bytes, key) :: (recent width decoder past).filter (·.1 != bytes) := by
  simp [recent, h]

theorem recent_concat_error {past : List (List UInt8)} {bytes : List UInt8}
    {fault : EncodingFault} (h : decodeAnew width decoder bytes = .error fault) :
    recent width decoder (past ++ [bytes]) = recent width decoder past := by
  simp [recent, h]

theorem nodup_recent (past : List (List UInt8)) :
    ((recent width decoder past).map (·.1)).Nodup := by
  induction past using List.reverseRecOn with
  | nil => simp [recent]
  | append_singleton past bytes ih =>
      cases hanew : decodeAnew width decoder bytes with
      | error fault => rwa [recent_concat_error hanew]
      | ok key =>
          rw [recent_concat_ok hanew, List.map_cons, List.nodup_cons]
          constructor
          · simp
          · exact ih.sublist (List.filter_sublist.map _)

theorem entries_use {c : KeyCache κ} {entries : List (List UInt8 × κ)}
    (hentries : c.entries = entries.take c.capacity) (h : (entries.map (·.1)).Nodup)
    (bytes : List UInt8) (key : κ) :
    (c.use bytes key).entries =
      ((bytes, key) :: entries.filter (·.1 != bytes)).take c.capacity := by
  unfold use
  rw [hentries]
  cases c.capacity with
  | zero => rfl
  | succ room => simp only [List.take_succ_cons, List.take_filter_take h]

/-- A key that is answered has just been used, and a refusal changes nothing. -/
theorem snd_decode (c : KeyCache κ) (bytes : List UInt8) :
    (c.decode width decoder bytes).2 =
      match (c.decode width decoder bytes).1 with
      | .ok key => c.use bytes key
      | .error _ => c := by
  unfold KeyCache.decode
  split
  · rfl
  · cases c.find? bytes with
    | some key => rfl
    | none => cases decoder bytes <;> rfl

def after (width : Nat) (decoder : List UInt8 → Except EncodingFault κ) (c : KeyCache κ)
    (past : List (List UInt8)) : KeyCache κ :=
  past.foldl (fun c bytes => (c.decode width decoder bytes).2) c

theorem after_eq (c : KeyCache κ) (past : List (List UInt8)) :
    c.after width decoder past = lastUsed.after width decoder c past := by
  simp only [after, Policy.after, lastUsed_decode]

theorem decode_after (capacity : Nat) (past : List (List UInt8)) (bytes : List UInt8) :
    (((empty capacity).after width decoder past).decode width decoder bytes).1 =
      decodeAnew width decoder bytes := by
  rw [after_eq, ← lastUsed_decode]
  exact Policy.decode_after (faithful_empty capacity) past bytes

theorem entries_after (width capacity : Nat) (decoder : List UInt8 → Except EncodingFault κ)
    (past : List (List UInt8)) :
    ((empty capacity).after width decoder past).capacity = capacity ∧
      ((empty capacity).after width decoder past).entries =
        (recent width decoder past).take capacity := by
  induction past using List.reverseRecOn with
  | nil => exact ⟨rfl, List.take_nil.symm⟩
  | append_singleton past bytes ih =>
      have hafter : (empty capacity).after width decoder (past ++ [bytes]) =
          (((empty capacity).after width decoder past).decode width decoder bytes).2 := by
        simp [after]
      rw [hafter, snd_decode, decode_after]
      generalize (empty capacity).after width decoder past = c at ih
      obtain ⟨hcapacity, hentries⟩ := ih
      cases hanew : decodeAnew width decoder bytes with
      | error fault =>
          rw [recent_concat_error hanew]
          exact ⟨hcapacity, hentries⟩
      | ok key =>
          refine ⟨hcapacity, ?_⟩
          rw [recent_concat_ok hanew, ← hcapacity]
          exact entries_use (hcapacity ▸ hentries) (nodup_recent past) bytes key

end KeyCache

namespace Bls

open Curve KeyCache

def cacheAfter (past : List (List UInt8)) : KeyCache Key :=
  past.foldl (fun c bytes => (decodeKeyVia c bytes).2) cache

/-- Whatever byte strings were decoded or refused before, and however many keys
have dropped out of the cache, the answer is the one that decoding gives without
a cache. The cache holds the keys of the 10000 encodings used last. -/
theorem decode_after_any (past : List (List UInt8)) (bytes : List UInt8) :
    (decodeKeyVia (cacheAfter past) bytes).1 = decodeKey bytes ∧
      (decodeKeyVia (cacheAfter past) bytes).1 =
        (if bytes.length = 48 then
          (G1.compression.decompress? bytes).elim (.error .keyPoint) .ok
        else .error (.keyLength bytes.length)) ∧
      (cacheAfter past).entries = (recent 48 decodeKey past).take 10000 := by
  have hafter : cacheAfter past = (KeyCache.empty 10000).after keyWidth decodeKey past := rfl
  have hentries := (entries_after keyWidth 10000 decodeKey past).2
  have hanswer :
      (decodeKeyVia (cacheAfter past) bytes).1 = decodeAnew keyWidth decodeKey bytes := by
    rw [hafter, decodeKeyVia]
    exact decode_after 10000 past bytes
  have hkey : decodeAnew keyWidth decodeKey bytes = decodeKey bytes := by
    unfold decodeAnew decodeKey
    by_cases hwidth : bytes.length = keyWidth <;> simp [hwidth]
  refine ⟨hanswer.trans hkey, ?_, hafter ▸ hentries⟩
  rw [hanswer, hkey]
  unfold decodeKey keyWidth
  by_cases hwidth : bytes.length = 48
  · cases G1.compression.decompress? bytes <;> simp [hwidth]
  · simp [hwidth]

end Bls

end MultisigTree
