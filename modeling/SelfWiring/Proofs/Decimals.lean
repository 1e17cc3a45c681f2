import Mathlib.Algebra.Group.Nat.Defs
import SelfWiring.Store.Call
import SelfWiring.Text.Integer

/-!
# Decimal texts

A signed 64-bit integer is read back from its decimal text, at both ends of the range too. Hence
different integers have different texts, and the next value of a counter is one more than the value
that was stored.
-/

namespace SelfWiring.Text.Integer

theorem isDigit_of_mem_toDigits {n : Nat} {c : Char} (h : c ∈ Nat.toDigits 10 n) :
    c.isDigit = true := Nat.isDigit_of_mem_toDigits (by decide) (by decide) h

theorem le_ofDigitChars (ds : List Char) : ∀ total, total ≤ Nat.ofDigitChars 10 ds total := by
  induction ds with
  | nil => intro total; simp
  | cons c ds ih =>
    intro total
    rw [Nat.ofDigitChars_cons]
    have := ih (10 * total + (c.toNat - '0'.toNat))
    omega

theorem magnitude_of_digits {limit : Nat} {excess : Fault} (ds : List Char) :
    ∀ {total : Nat}, (∀ c ∈ ds, c.isDigit = true) → Nat.ofDigitChars 10 ds total ≤ limit →
      magnitude limit excess total ds = .ok (Nat.ofDigitChars 10 ds total) := by
  induction ds with
  | nil => intros; simp [magnitude]
  | cons c ds ih =>
    intro total hdigits hlimit
    rw [Nat.ofDigitChars_cons, Nat.mul_comm] at hlimit ⊢
    have hnext := le_ofDigitChars ds (total * 10 + (c.toNat - '0'.toNat))
    rw [magnitude, if_pos (hdigits c List.mem_cons_self)]
    show (if limit < total * 10 + (c.toNat - '0'.toNat) then _ else _) = _
    rw [if_neg (by omega)]
    exact ih (fun d hd => hdigits d (List.mem_cons_of_mem _ hd)) hlimit

theorem magnitude_toDigits {limit n : Nat} {excess : Fault} (h : n ≤ limit) :
    magnitude limit excess 0 (Nat.toDigits 10 n) = .ok n := by
  have hread : magnitude limit excess 0 (Nat.toDigits 10 n) =
      .ok (Nat.ofDigitChars 10 (Nat.toDigits 10 n) 0) :=
    magnitude_of_digits (Nat.toDigits 10 n) (fun _ => isDigit_of_mem_toDigits) (by simpa using h)
  simpa using hread

/-- A text that begins with a digit has no sign. -/
theorem read_of_isDigit {c : Char} {ds : List Char} (h : c.isDigit = true) :
    read (c :: ds) = readPositive (c :: ds) := by
  unfold read
  split <;> simp_all

theorem read_render (n : Int64) : read (render n.toInt) = .ok n := by
  have hlow := Int64.le_toInt n
  have hhigh := Int64.toInt_lt n
  obtain ⟨c, ds, hcons⟩ : ∃ c ds, Nat.toDigits 10 n.toInt.natAbs = c :: ds :=
    List.exists_cons_of_ne_nil Nat.toDigits_ne_nil
  have hc : c.isDigit = true := isDigit_of_mem_toDigits (hcons ▸ List.mem_cons_self)
  by_cases hneg : n.toInt < 0
  · have hread : read ('-' :: c :: ds) = readNegative (c :: ds) := by simp [read]
    rw [render, if_pos hneg, hcons, hread, readNegative, ← hcons, magnitude_toDigits (by omega)]
    show Except.ok (Int64.ofInt (-(n.toInt.natAbs : Nat))) = _
    rw [show -((n.toInt.natAbs : Nat) : Int) = n.toInt by omega, Int64.ofInt_toInt]
  · rw [render, if_neg hneg, hcons, read_of_isDigit hc, readPositive, ← hcons,
      magnitude_toDigits (by omega)]
    show Except.ok (Int64.ofInt (n.toInt.natAbs : Nat)) = _
    rw [show ((n.toInt.natAbs : Nat) : Int) = n.toInt by omega, Int64.ofInt_toInt]

theorem render_inj {m n : Int64} : render m.toInt = render n.toInt ↔ m = n := by
  constructor
  · intro h
    have hread := read_render m
    rw [h, read_render] at hread
    exact (Except.ok.inj hread).symm
  · intro h
    rw [h]

end SelfWiring.Text.Integer

namespace SelfWiring

@[simp] theorem read?_countText (n : Int64) : Text.Integer.read? (countText n) = some n := by
  rw [Text.Integer.read?, countText, String.toList_ofList, Text.Integer.read_render]
  rfl

@[simp] theorem nextCount_none : nextCount none = 1 := rfl

@[simp] theorem nextCount_countText (n : Int64) : nextCount (some (countText n)) = n + 1 := by
  simp [nextCount]

/-! ## Counters within 64 bits -/

theorem eq_ofNat_of_toInt {pass : Int64} {k : Nat} (hk : k < 2 ^ 63) (h : pass.toInt = k) :
    pass = Int64.ofNat k := by
  rw [← Int64.toInt_inj, Int64.toInt_ofNat_of_lt hk, h]

theorem ofNat_succ_sub_one (k : Nat) : Int64.ofNat (k + 1) - 1 = Int64.ofNat k := by
  rw [Int64.ofNat_add]
  exact Int64.add_sub_cancel _ _

theorem ofNat_lt_ofNat {j k : Nat} (hj : j < 2 ^ 63) (hk : k < 2 ^ 63) :
    Int64.ofNat j < Int64.ofNat k ↔ j < k := by
  rw [Int64.lt_iff_toInt_lt, Int64.toInt_ofNat_of_lt hj, Int64.toInt_ofNat_of_lt hk, Int.ofNat_lt]

theorem nextCount_ofNat (k : Nat) :
    nextCount (some (countText (Int64.ofNat k))) = Int64.ofNat (k + 1) := by
  rw [nextCount_countText, Int64.ofNat_add]
  rfl

/-- The text of a counter that was counted up `k` times. -/
def counted (k : Nat) : Option String := if k = 0 then none else some (countText (Int64.ofNat k))

theorem nextCount_counted (k : Nat) : nextCount (counted k) = Int64.ofNat (k + 1) := by
  unfold counted
  split
  · subst k
    rfl
  · exact nextCount_ofNat k

end SelfWiring
