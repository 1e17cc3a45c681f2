/-! # Scores

The scores of a sorted set are double-precision numbers, kept as their 64 bits. `rank` orders all
of them, so that negative zero comes before zero and the values that are no number come at the two
ends.
-/

namespace SelfWiring

structure Score where
  bits : UInt64
  deriving DecidableEq, Inhabited

namespace Score

/-- The bits without the sign. -/
def magnitude (s : Score) : Nat := s.bits.toNat % 0x8000000000000000

def isNegative (s : Score) : Bool := 0x8000000000000000 ≤ s.bits.toNat

/-- The place of a score in the total order of double-precision numbers. -/
def rank (s : Score) : Int := if s.isNegative then -(s.magnitude : Int) - 1 else s.magnitude

def isNaN (s : Score) : Bool := 0x7FF0000000000000 < s.magnitude

/-- The score without the sign of a negative zero. -/
def unsignedZero (s : Score) : Score := if s.magnitude = 0 then ⟨0⟩ else s

/-- The greatest clock reading: readings are signed 64-bit integers. -/
def latest : Nat := 0x7FFFFFFFFFFFFFFF

/-- The score of a clock reading in milliseconds: exact below `2 ^ 53`. -/
def ofMillis (ms : Nat) : Score :=
  let ms := min ms latest
  if ms = 0 then ⟨0⟩
  else
    let top := Nat.log2 ms
    let unit := 0x10000000000000
    ⟨UInt64.ofNat ((1023 + top) * unit + (ms * unit / Nat.pow 2 top - unit))⟩

/-- The order of sorted-set entries: by rank, then by member. -/
def leads (a b : String × Score) : Bool :=
  a.2.rank < b.2.rank || (a.2.rank == b.2.rank && !decide (b.1 < a.1))

end Score

end SelfWiring
