import MultisigTree.Ascending
import MultisigTree.BigEndian
import MultisigTree.Roster
import MultisigTree.Scheme.Basic

/-!
# The plain scheme

A scheme without cryptography, to run the protocol on. A key is the set of its
owners, a signature the set of its signers with a mark that says whether it is
genuine. A genuine signature verifies under the key whose owners are its
signers, over any message.
-/
namespace MultisigTree

/-- A finite set of member numbers. -/
structure IdSet where
  ids : List Int32
  ascending : Ascending ids
  deriving DecidableEq

namespace IdSet

def empty : IdSet := ⟨[], .nil⟩

def ofList (ids : List Int32) : IdSet :=
  ⟨AscendingList.ofList ids, .ofList ids⟩

def singleton (id : Int32) : IdSet :=
  ⟨[id], by simp [Ascending]⟩

def union (a b : IdSet) : IdSet :=
  ⟨AscendingList.union a.ids b.ids, a.ascending.union b.ascending⟩

instance : Inhabited IdSet := ⟨empty⟩

instance : Membership Int32 IdSet := ⟨fun s id => id ∈ s.ids⟩

theorem mem_union {a b : IdSet} {id : Int32} : id ∈ a.union b ↔ id ∈ a ∨ id ∈ b :=
  AscendingList.mem_union

theorem mem_ofList {ids : List Int32} {id : Int32} : id ∈ ofList ids ↔ id ∈ ids :=
  AscendingList.mem_ofList

theorem mem_singleton {a b : Int32} : a ∈ singleton b ↔ a = b :=
  List.mem_singleton

theorem ext {a b : IdSet} (h : ∀ id, id ∈ a ↔ id ∈ b) : a = b := by
  have := a.ascending.ext b.ascending h
  cases a
  cases b
  simp_all

end IdSet

namespace Plain

structure Signature where
  signers : IdSet
  genuine : Bool
  deriving DecidableEq

/-- The signature of one member. -/
def sign (id : Int32) : Signature :=
  ⟨.singleton id, true⟩

def Signature.merge (a b : Signature) : Signature :=
  ⟨a.signers.union b.signers, a.genuine && b.genuine⟩

/-- One byte says whether the signature is genuine, four more name each signer
in increasing order. -/
def Signature.encode (s : Signature) : List UInt8 :=
  (if s.genuine then 1 else 0) :: s.signers.ids.flatMap BigEndian.encodeId

/-- The member numbers of a byte string whose length is a multiple of four. -/
def decodeIds : List UInt8 → List Int32
  | a :: b :: c :: d :: rest => BigEndian.decodeId [a, b, c, d] :: decodeIds rest
  | _ => []

def Signature.decode : List UInt8 → Except SchemeFault Signature
  | [] => .error (.malformedSignature .empty)
  | mark :: bytes =>
      if bytes.length % 4 = 0 then .ok ⟨.ofList (decodeIds bytes), mark = 1⟩
      else .error (.malformedSignature (.trailing (bytes.length % 4)))

def scheme : Scheme IdSet Signature where
  neutralKey := .empty
  neutralSignature := ⟨.empty, true⟩
  mergeKeys := .union
  merge := Signature.merge
  verifies key _ s := s.genuine && s.signers = key
  encode := Signature.encode
  decode := Signature.decode

/-- Members numbered from 0 on, as many as `n` asks for, each the owner of its
key. -/
def roster (n : Nat) : Roster IdSet :=
  .build n (fun id => s!"fake-{id}") .singleton

end Plain

end MultisigTree
