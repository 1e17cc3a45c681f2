/-! # The ChaCha stream

The ChaCha stream cipher with twelve rounds, a 64-bit block counter and a zero nonce, as a source of
32-bit words. `word key n` is the `n`-th word of the stream of a key: the stream is one sequence of
words, and its division into blocks of sixteen does not show.
-/

namespace SelfWiring.Random.ChaCha

abbrev Block := Vector UInt32 16

abbrev Key := Vector UInt32 8

def rotateLeft (x : UInt32) (n : UInt32) : UInt32 := (x <<< n) ||| (x >>> (32 - n))

def quarterRound (a b c d : Fin 16) (s : Block) : Block :=
  let s := s.set a (s[a] + s[b])
  let s := s.set d (rotateLeft (s[d] ^^^ s[a]) 16)
  let s := s.set c (s[c] + s[d])
  let s := s.set b (rotateLeft (s[b] ^^^ s[c]) 12)
  let s := s.set a (s[a] + s[b])
  let s := s.set d (rotateLeft (s[d] ^^^ s[a]) 8)
  let s := s.set c (s[c] + s[d])
  s.set b (rotateLeft (s[b] ^^^ s[c]) 7)

/-- A round over the columns and a round over the diagonals. -/
def doubleRound (s : Block) : Block :=
  let s := quarterRound 0 4 8 12 s
  let s := quarterRound 1 5 9 13 s
  let s := quarterRound 2 6 10 14 s
  let s := quarterRound 3 7 11 15 s
  let s := quarterRound 0 5 10 15 s
  let s := quarterRound 1 6 11 12 s
  let s := quarterRound 2 7 8 13 s
  quarterRound 3 4 9 14 s

/-- The constants, the key, the counter with its low half first, and two zero words. -/
def initial (key : Key) (counter : UInt64) : Block :=
  (#v[0x61707865, 0x3320646e, 0x79622d32, 0x6b206574] : Vector UInt32 4) ++ key ++
    (#v[counter.toUInt32, (counter >>> 32).toUInt32, 0, 0] : Vector UInt32 4)

def block (key : Key) (counter : UInt64) : Block :=
  let start := initial key counter
  Vector.zipWith (· + ·) (Nat.repeat doubleRound 6 start) start

/-- The `n`-th word of the stream. -/
def word (key : Key) (n : Nat) : UInt32 :=
  (block key (UInt64.ofNat (n / 16))).get ⟨n % 16, Nat.mod_lt _ (by decide)⟩

end SelfWiring.Random.ChaCha
