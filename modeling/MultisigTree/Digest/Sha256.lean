import MultisigTree.BigEndian

/-!
# SHA-256

The message is filled up to whole blocks of 64 bytes with a one bit, zeros and
its length in bits; the blocks are folded into eight words, one after the
other.
-/
namespace MultisigTree.Sha256

def rotate (x : UInt32) (n : UInt32) : UInt32 :=
  x >>> n ||| x <<< (32 - n)

/-- The fractions of the cube roots of the first 64 primes. -/
def roundConstants : Array UInt32 :=
  #[0x428a2f98, 0x71374491, 0xb5c0fbcf, 0xe9b5dba5, 0x3956c25b, 0x59f111f1, 0x923f82a4, 0xab1c5ed5,
    0xd807aa98, 0x12835b01, 0x243185be, 0x550c7dc3, 0x72be5d74, 0x80deb1fe, 0x9bdc06a7, 0xc19bf174,
    0xe49b69c1, 0xefbe4786, 0x0fc19dc6, 0x240ca1cc, 0x2de92c6f, 0x4a7484aa, 0x5cb0a9dc, 0x76f988da,
    0x983e5152, 0xa831c66d, 0xb00327c8, 0xbf597fc7, 0xc6e00bf3, 0xd5a79147, 0x06ca6351, 0x14292967,
    0x27b70a85, 0x2e1b2138, 0x4d2c6dfc, 0x53380d13, 0x650a7354, 0x766a0abb, 0x81c2c92e, 0x92722c85,
    0xa2bfe8a1, 0xa81a664b, 0xc24b8b70, 0xc76c51a3, 0xd192e819, 0xd6990624, 0xf40e3585, 0x106aa070,
    0x19a4c116, 0x1e376c08, 0x2748774c, 0x34b0bcb5, 0x391c0cb3, 0x4ed8aa4a, 0x5b9cca4f, 0x682e6ff3,
    0x748f82ee, 0x78a5636f, 0x84c87814, 0x8cc70208, 0x90befffa, 0xa4506ceb, 0xbef9a3f7, 0xc67178f2]

abbrev State := Vector UInt32 8

/-- The fractions of the square roots of the first eight primes. -/
def start : State :=
  #v[0x6a09e667, 0xbb67ae85, 0x3c6ef372, 0xa54ff53a, 0x510e527f, 0x9b05688c, 0x1f83d9ab, 0x5be0cd19]

/-- The message followed by a one bit, by zeros, and by its length in eight
bytes that end a block. -/
def pad (message : List UInt8) : List UInt8 :=
  let zeros := (119 - message.length % 64) % 64
  message ++ 0x80 :: (List.replicate zeros 0 ++ BigEndian.encode 8 (8 * message.length))

def words : List UInt8 → List UInt32
  | a :: b :: c :: d :: rest => UInt32.ofNat (BigEndian.decode [a, b, c, d]) :: words rest
  | _ => []

/-- The sixteen words of a block and the 48 words made of them. -/
def schedule (block : List UInt32) : Array UInt32 :=
  (List.range 48).foldl (fun w i =>
    let at_ k := w.getD (i + k) 0
    let s0 := rotate (at_ 1) 7 ^^^ rotate (at_ 1) 18 ^^^ at_ 1 >>> 3
    let s1 := rotate (at_ 14) 17 ^^^ rotate (at_ 14) 19 ^^^ at_ 14 >>> 10
    w.push (at_ 0 + s0 + at_ 9 + s1)) block.toArray

def round (s : State) (constant word : UInt32) : State :=
  let s1 := rotate s[4] 6 ^^^ rotate s[4] 11 ^^^ rotate s[4] 25
  let choice := (s[4] &&& s[5]) ^^^ (~~~ s[4] &&& s[6])
  let t1 := s[7] + s1 + choice + constant + word
  let s0 := rotate s[0] 2 ^^^ rotate s[0] 13 ^^^ rotate s[0] 22
  let majority := (s[0] &&& s[1]) ^^^ (s[0] &&& s[2]) ^^^ (s[1] &&& s[2])
  #v[t1 + s0 + majority, s[0], s[1], s[2], s[3] + t1, s[4], s[5], s[6]]

def compress (s : State) (block : List UInt32) : State :=
  let rounds := roundConstants.zip (schedule block)
  s.zipWith (· + ·) (rounds.foldl (fun s (constant, word) => round s constant word) s)

/-- Folds the blocks of sixteen words into the state, at most so many. -/
def absorb : (blocks : Nat) → State → List UInt32 → State
  | 0, s, _ => s
  | blocks + 1, s, ws => absorb blocks (compress s (ws.take 16)) (ws.drop 16)

def digest (message : List UInt8) : List UInt8 :=
  let ws := words (pad message)
  (absorb (ws.length / 16) start ws).toList.flatMap fun w => BigEndian.encode 4 w.toNat

end MultisigTree.Sha256
