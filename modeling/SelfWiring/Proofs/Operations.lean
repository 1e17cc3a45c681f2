import SelfWiring.Proofs.Cells
import SelfWiring.Proofs.Decimals

/-!
# Operations on two integers

What the arithmetic cells compute, said without the cells: the exact result, a number or a truth
value, and its text, as long as a number fits into 64 bits with a sign.
-/

namespace SelfWiring

/-- The decimal text of an integer. -/
def decimal (n : Int) : String := String.ofList (Text.Integer.render n)

/-- An exact result. -/
inductive Exact where
  | number (n : Int)
  | truth (b : Bool)
  deriving DecidableEq

inductive Operation where
  | sum
  | subtract
  | multiply
  | divide
  | greater
  | equal
  deriving DecidableEq

namespace Exact

/-- Whether a number is a signed 64-bit integer. -/
def fits : Exact → Bool
  | number n => decide (-0x8000000000000000 ≤ n ∧ n < 0x8000000000000000)
  | truth _ => true

def text : Exact → String
  | number n => decimal n
  | truth b => if b then "true" else "false"

def value : Exact → Value
  | number n => .int (.ofInt n)
  | truth b => .bool b

/-- A result that fits shows as its exact text. -/
theorem display_value {x : Exact} (h : x.fits = true) : x.value.display = x.text := by
  cases x with
  | number n =>
    simp only [fits, decide_eq_true_eq] at h
    show decimal (Int64.ofInt n).toInt = decimal n
    rw [Int64.toInt_ofInt_of_le (by omega) (by omega)]
  | truth b => rfl

end Exact

namespace Operation

/-- The exact result of an operation. A quotient is without its fraction, and there is none by
zero. -/
def answer? : Operation → Int → Int → Option Exact
  | sum, a, b => some (.number (a + b))
  | subtract, a, b => some (.number (a - b))
  | multiply, a, b => some (.number (a * b))
  | divide, a, b => if b = 0 then none else some (.number (a.tdiv b))
  | greater, a, b => some (.truth (decide (b < a)))
  | equal, a, b => some (.truth (decide (a = b)))

/-- The exact result, if there is one that fits. -/
def result? (op : Operation) (a b : Int) : Option Exact := (op.answer? a b).filter Exact.fits

theorem display_of_result {op : Operation} {a b : Int} {x : Exact} (h : op.result? a b = some x) :
    x.value.display = x.text :=
  Exact.display_value (Option.mem_filter_iff.mp h).2

/-- What stands in the way of a result. -/
def objection (op : Operation) (b : Int) : Objection :=
  if op = divide ∧ b = 0 then .divisionByZero else .overflow

def cell : Operation → Cell
  | sum => Cell.sum
  | subtract => Cell.subtract
  | multiply => Cell.multiply
  | divide => Cell.divide
  | greater => Cell.greater
  | equal => Cell.equal

/-- What the cell of an operation comes to. -/
def outcome (op : Operation) (a b : Int) : Except Objection (List Value) :=
  match op.result? a b with
  | some x => .ok [x.value]
  | none => .error (op.objection b)

theorem cell_mem_arithmetic (op : Operation) : op.cell ∈ Cell.arithmetic := by
  cases op <;> simp [cell, Cell.arithmetic]

/-- A number is a result as long as it fits. -/
theorem map_bounded (n : Int) : (Cell.bounded n).map (fun v => [v]) =
    match (some (Exact.number n)).filter Exact.fits with
    | some x => .ok [x.value]
    | none => .error .overflow := by
  unfold Cell.bounded
  simp only [Option.filter, Exact.fits, decide_eq_true_eq]
  split <;> rfl

variable {σ : Type} [Store σ] [FaultFree σ]

/-- The cells of the operations compute the exact results that fit, and object to all others. -/
theorem cell_reaches (op : Operation) (a b : Int64) (ctx : Context) (n : Net) :
    Action.Reaches σ (op.cell.call ctx [.int a, .int b]) n
      ((op.outcome a.toInt b.toInt).mapError (.domain op.cell.name)) n := by
  have hbinary : ∀ (name : String) (output : Kind) (fallible : Bool)
      (f : Int → Int → Except Objection Value),
      (f a.toInt b.toInt).map (fun v => [v]) = op.outcome a.toInt b.toInt →
      Action.Reaches σ ((Cell.binary name output fallible f).call ctx [.int a, .int b]) n
        ((op.outcome a.toInt b.toInt).mapError (.domain name)) n := by
    intro name output fallible f hf
    rw [← hf]
    exact Cell.pure_reaches name _ _ (Cell.onPair f) ctx [.int a, .int b] n
  cases op with
  | sum | subtract | multiply => exact hbinary _ _ _ _ (map_bounded _)
  | divide =>
    apply hbinary
    by_cases hb : b.toInt = 0
    · simp [Cell.divideInts, outcome, result?, answer?, objection, hb, Except.map]
    · have hresult := map_bounded (a.toInt.tdiv b.toInt)
      simpa [Cell.divideInts, outcome, result?, answer?, objection, hb] using hresult
  | greater | equal => exact hbinary _ _ _ _ rfl

variable {op : Operation} {a b : Int64}

theorem cell_of_some {x : Exact} (h : op.result? a.toInt b.toInt = some x) (ctx : Context)
    (n : Net) : Action.Reaches σ (op.cell.call ctx [.int a, .int b]) n (.ok [x.value]) n := by
  have hreaches := op.cell_reaches (σ := σ) a b ctx n
  unfold outcome at hreaches
  rw [h] at hreaches
  exact hreaches

theorem cell_of_none (h : op.result? a.toInt b.toInt = none) (ctx : Context) (n : Net) :
    Action.Reaches σ (op.cell.call ctx [.int a, .int b]) n
      (.error (.domain op.cell.name (op.objection b.toInt))) n := by
  have hreaches := op.cell_reaches (σ := σ) a b ctx n
  unfold outcome at hreaches
  rw [h] at hreaches
  exact hreaches

theorem accepts (op : Operation) (a b : Int64) :
    op.cell.signature.accepts [.int a, .int b] = true := by
  cases op <;> rfl

end Operation

example : Operation.divide.result? (-2 ^ 63) (-1) = none := by decide
example : (Operation.divide.result? (-7) 2).map Exact.text = some "-3" := by decide

end SelfWiring
