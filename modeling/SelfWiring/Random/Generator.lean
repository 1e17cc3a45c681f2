import SelfWiring.Random.ChaCha

/-! # Draws

A generator is a ChaCha key and a place in its stream; drawing moves the place forward and never
back. A number below a bound is drawn without bias: the drawn word times the bound is split into a
high and a low half, the high half is the number, and a low half beyond the largest multiple of the
bound is drawn again.
-/

namespace SelfWiring.Random

structure Generator where
  key : ChaCha.Key
  /-- How many words of the stream have been used. -/
  position : Nat := 0

namespace Generator

/-- The step of the linear congruential generator that stretches a seed into a key. -/
def stretch (s : UInt64) : UInt64 := s * 6364136223846793005 + 11634580027462260723

/-- The output of a stretched state: its high bits mixed and rotated by the highest five. -/
def mix (s : UInt64) : UInt32 :=
  let x := (((s >>> 18) ^^^ s) >>> 27).toUInt32
  let r := (s >>> 59).toUInt32
  (x >>> r) ||| (x <<< ((32 - r) % 32))

/-- The stretched states that follow a seed. -/
def states : (n : Nat) → UInt64 → List UInt64
  | 0, _ => []
  | n + 1, s => stretch s :: states n (stretch s)

def keyWord (seed : UInt64) (i : Nat) : UInt32 := mix ((states 8 seed).getD i 0)

def ofSeed (seed : UInt64) : Generator := ⟨Vector.ofFn fun i : Fin 8 => keyWord seed i, 0⟩

def next32 (g : Generator) : UInt32 × Generator :=
  (ChaCha.word g.key g.position, { g with position := g.position + 1 })

/-- Two words, the low one first. -/
def next64 (g : Generator) : UInt64 × Generator :=
  let (low, g) := g.next32
  let (high, g) := g.next32
  (low.toUInt64 ||| (high.toUInt64 <<< 32), g)

/-- The number shifted left until its top bit of `bits` is set, less one. -/
def zone (bits n : Nat) : Nat := n * Nat.pow 2 (bits - 1 - Nat.log2 n) - 1

/-- How many draws are made before the last one is taken as it is. More than half of all draws are
good, so that the limit is never met. -/
def patience : Nat := 4096

/-- A number below `n` from draws of `bits` bits. -/
def below (bits n : Nat) (draw : Generator → Nat × Generator) : Nat → Generator → Nat × Generator
  | 0, g => let (v, g) := draw g; (v * n / Nat.pow 2 bits, g)
  | tries + 1, g =>
    let (v, g) := draw g
    if v * n % Nat.pow 2 bits ≤ zone bits n then (v * n / Nat.pow 2 bits, g)
    else below bits n draw tries g

/-- A number below `n`; zero stands for `2 ^ 64`. -/
def below64 (n : Nat) (g : Generator) : Nat × Generator :=
  let draw := fun (g : Generator) => let (v, g) := g.next64; (v.toNat, g)
  if n % 0x10000000000000000 = 0 then draw g else below 64 n draw patience g

def below32 (n : Nat) (g : Generator) : Nat × Generator :=
  below 32 n (fun g => let (v, g) := g.next32; (v.toNat, g)) patience g

/-- A list of `k` members drawn from a list, one after the other. -/
def pick (candidates : List String) : (k : Nat) → Generator → List String × Generator
  | 0, g => ([], g)
  | k + 1, g =>
    let (i, g) := g.below32 candidates.length
    let (rest, g) := pick candidates k g
    ((candidates[i]?).toList ++ rest, g)

/-- Up to `limit` members of a list. From an empty list nothing is drawn. -/
def cells (limit : UInt64) (candidates : List String) (g : Generator) : List String × Generator :=
  if candidates.isEmpty then ([], g)
  else
    let (k, g) := g.below64 (limit.toNat + 1)
    pick candidates k g

end Generator

end SelfWiring.Random
