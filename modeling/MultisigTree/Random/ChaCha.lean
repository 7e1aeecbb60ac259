import MultisigTree.Word

/-!
# The ChaCha20 generator

A stream of 32-bit words from a 256-bit key and a 64-bit stream number: the
twenty-round block function, run on the block numbers 0, 1, 2, …, sixteen
words a block.
-/
namespace MultisigTree.ChaCha

abbrev Key := Vector UInt8 32

abbrev Block := Vector UInt32 16

def rotate (x : UInt32) (n : UInt32) : UInt32 :=
  x <<< n ||| x >>> (32 - n)

def quarterRound (s : Block) (a b c d : Fin 16) : Block :=
  let s := s.set a (s[a] + s[b])
  let s := s.set d (rotate (s[d] ^^^ s[a]) 16)
  let s := s.set c (s[c] + s[d])
  let s := s.set b (rotate (s[b] ^^^ s[c]) 12)
  let s := s.set a (s[a] + s[b])
  let s := s.set d (rotate (s[d] ^^^ s[a]) 8)
  let s := s.set c (s[c] + s[d])
  s.set b (rotate (s[b] ^^^ s[c]) 7)

/-- Four quarter rounds on the columns, four on the diagonals. -/
def doubleRound (s : Block) : Block :=
  let s := quarterRound s 0 4 8 12
  let s := quarterRound s 1 5 9 13
  let s := quarterRound s 2 6 10 14
  let s := quarterRound s 3 7 11 15
  let s := quarterRound s 0 5 10 15
  let s := quarterRound s 1 6 11 12
  let s := quarterRound s 2 7 8 13
  quarterRound s 3 4 9 14

/-- Key bytes `4 * i` to `4 * i + 3`, the lowest first. -/
def keyWord (key : Key) (i : Fin 8) : UInt32 :=
  let byte (j : Fin 4) : UInt32 := key[4 * i.val + j.val].toUInt32
  byte 0 ||| byte 1 <<< 8 ||| byte 2 <<< 16 ||| byte 3 <<< 24

def initial (key : Key) (stream counter : UInt64) : Block :=
  #v[0x61707865, 0x3320646e, 0x79622d32, 0x6b206574,
    keyWord key 0, keyWord key 1, keyWord key 2, keyWord key 3,
    keyWord key 4, keyWord key 5, keyWord key 6, keyWord key 7,
    counter.toUInt32, (counter >>> 32).toUInt32, stream.toUInt32, (stream >>> 32).toUInt32]

def block (key : Key) (stream counter : UInt64) : Block :=
  let start := initial key stream counter
  let final := (List.range 10).foldl (fun s _ => doubleRound s) start
  start.zipWith (· + ·) final

/-- A generator: the words of the current block that are left, and the number
of the next block. -/
structure Generator where
  key : Key
  stream : UInt64
  counter : UInt64
  ready : List UInt32

def Generator.start (key : Key) (stream : UInt64) : Generator :=
  ⟨key, stream, 0, []⟩

def Generator.next (g : Generator) : UInt32 × Generator :=
  match g.ready with
  | w :: rest => (w, { g with ready := rest })
  | [] =>
      let words := block g.key g.stream g.counter
      (words[0], { g with counter := g.counter + 1, ready := words.toList.tail })

/-- After so many words the block number comes round to 0 and the words
repeat. -/
@[irreducible] def period : Nat :=
  2 ^ 68

end MultisigTree.ChaCha
