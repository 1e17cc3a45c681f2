import Mathlib.Algebra.BigOperators.Intervals
import Mathlib.Algebra.Order.BigOperators.Group.Finset
import Mathlib.Data.ENat.Lattice
import SelfWiring.Retry

/-!
# The retry loop, attempt by attempt

The loop is rehearsed with an operation whose outcomes are written down beforehand, one for each
call, without end. What the loop does is kept as a list of moves, so that the number of the calls,
the length of every pause and the order of both can be read off it. The delays are those of exact
arithmetic: neither the saturating product nor the width of the numbers shows in them.
-/

namespace SelfWiring.RetryPolicy

variable (p : RetryPolicy)

/-! ## Delays -/

theorem toNat_saturatingMul (a b : UInt64) :
    (saturatingMul a b).toNat = min (a.toNat * b.toNat) 0xFFFFFFFFFFFFFFFF := by
  unfold saturatingMul
  split
  case isTrue hfits =>
    rw [UInt64.toNat_mul, Nat.mod_eq_of_lt hfits, min_eq_left (by omega)]
  case isFalse hfits =>
    rw [min_eq_right (by omega)]
    rfl

theorem toNat_two_pow {doublings : Nat} (h : doublings < 64) :
    ((2 : UInt64) ^ doublings).toNat = 2 ^ doublings := by
  induction doublings with
  | zero => rfl
  | succ doublings ih =>
    have hlt : 2 ^ (doublings + 1) < 2 ^ 64 := Nat.pow_lt_pow_right (by decide) h
    rw [UInt64.pow_succ, UInt64.toNat_mul, ih (Nat.lt_of_succ_lt h)]
    exact Nat.mod_eq_of_lt hlt

theorem toNat_min (a b : UInt64) : (min a b).toNat = min a.toNat b.toNat := by
  rw [show min a b = if a ≤ b then a else b from rfl]
  split
  case isTrue h => exact (min_eq_left (UInt64.le_iff_toNat_le.mp h)).symm
  case isFalse h =>
    have hlt : b.toNat ≤ a.toNat := Nat.le_of_not_le fun hle => h (UInt64.le_iff_toNat_le.mpr hle)
    exact (min_eq_right hlt).symm

/-- The delays, in exact arithmetic. -/
theorem toNat_delay (attempt : UInt32) : (p.delay attempt).toNat =
    min (p.base.toNat * 2 ^ min (max attempt.toNat 1 - 1) 31) p.longest.toNat := by
  have hdoublings : max attempt.toNat 1 - 1 = attempt.toNat - 1 := by omega
  have hlongest : p.longest.toNat ≤ 0xFFFFFFFFFFFFFFFF := Nat.le_of_lt_succ p.longest.toNat_lt
  unfold delay
  rw [toNat_min, toNat_saturatingMul, toNat_two_pow (by omega), min_assoc,
    min_eq_right hlongest, hdoublings]

theorem delay_le_longest (attempt : UInt32) : p.delay attempt ≤ p.longest := by
  rw [UInt64.le_iff_toNat_le, toNat_delay]
  exact min_le_right _ _

theorem delay_mono {attempt later : UInt32} (h : attempt ≤ later) :
    p.delay attempt ≤ p.delay later := by
  have hle : attempt.toNat ≤ later.toNat := UInt32.le_iff_toNat_le.mp h
  rw [UInt64.le_iff_toNat_le, toNat_delay, toNat_delay]
  gcongr
  · decide

/-! ## Rehearsals -/

/-- What the loop does. -/
inductive Move where
  | call
  | sleep (ms : Nat)
  deriving DecidableEq

namespace Move

def ms : Move → Nat
  | call => 0
  | sleep ms => ms

/-- The time slept in the course of some moves. -/
def slept (moves : List Move) : Nat := (moves.map ms).sum

end Move

variable {α : Type} (script : Nat → Except StoreError α)

/-- An operation that comes to the next outcome of a script. -/
def perform : StateM (List Move) (Except StoreError α) :=
  fun moves => (script (moves.count .call), moves ++ [.call])

def pause (ms : UInt64) : StateM (List Move) Unit :=
  fun moves => ((), moves ++ [.sleep ms.toNat])

/-- The result of the loop over a script, and the moves that led to it. -/
def rehearse : Except StoreError α × List Move :=
  (p.run (perform script) pause).run []

/-- An outcome after which the loop goes on. -/
def Transient : Except StoreError α → Prop
  | .ok _ => False
  | .error e => e.isTransient = true

/-- The position of the first outcome that is not a transient failure, counted from 1, if there is
one. -/
noncomputable def settledAt : ℕ∞ := ⨅ k : {k // ¬ Transient (script k)}, (k.1 + 1 : ℕ∞)

/-- Some retries, each after the delay of the attempt that failed before it. -/
def retries (attempt : Nat) : (count : Nat) → List Move
  | 0 => []
  | count + 1 => .sleep (p.delay (.ofNat attempt)).toNat :: .call :: retries (attempt + 1) count

variable {script}

theorem succ_le_settledAt {count : Nat} (h : ∀ k < count, Transient (script k)) :
    (count + 1 : ℕ∞) ≤ settledAt script := by
  refine le_iInf fun ⟨k, hk⟩ => ?_
  have hle : count ≤ k := Nat.le_of_not_lt fun hlt => hk (h k hlt)
  exact_mod_cast Nat.succ_le_succ hle

theorem settledAt_eq {count : Nat} (h : ∀ k < count, Transient (script k))
    (hsettled : ¬ Transient (script count)) : settledAt script = (count + 1 : ℕ∞) :=
  le_antisymm (iInf_le _ (⟨count, hsettled⟩ : {k // ¬ Transient (script k)}))
    (succ_le_settledAt h)

theorem count_retries (attempt count : Nat) : (p.retries attempt count).count .call = count := by
  induction count generalizing attempt with
  | zero => rfl
  | succ count ih => simp [retries, ih]

theorem slept_retries (attempt count : Nat) : Move.slept (p.retries attempt count) =
    ∑ k ∈ Finset.range count, (p.delay (.ofNat (attempt + k))).toNat := by
  induction count generalizing attempt with
  | zero => rfl
  | succ count ih =>
    have hrest := ih (attempt + 1)
    unfold Move.slept at hrest ⊢
    rw [Finset.sum_range_succ', retries, List.map_cons, List.map_cons, List.sum_cons,
      List.sum_cons, hrest, Nat.add_comm]
    simp [Move.ms, Nat.add_comm, Nat.add_left_comm]

theorem getLast_retries (attempt count : Nat) :
    (Move.call :: p.retries attempt count).getLast? = some .call := by
  induction count generalizing attempt with
  | zero => rfl
  | succ count ih =>
    rw [retries, List.getLast?_cons_cons, List.getLast?_cons_cons]
    exact ih (attempt + 1)

variable (script)

theorem run_loop_of_settled (left : Nat) (attempt : UInt32) {moves : List Move}
    (h : ¬ Transient (script (moves.count .call))) :
    (p.loop (perform script) pause (left + 1) attempt).run moves =
      (script (moves.count .call), moves ++ [.call]) := by
  have hperform : (perform script).run moves =
      (script (moves.count .call), moves ++ [.call]) := rfl
  rw [loop, StateT.run_bind, hperform]
  generalize script (moves.count .call) = outcome at h ⊢
  rcases outcome with failure | a
  · show StateT.run (if failure.isTransient then _ else _) _ = _
    rw [if_neg (show ¬ failure.isTransient = true from h)]
    rfl
  · rfl

theorem run_loop_of_transient (left : Nat) (attempt : UInt32) {moves : List Move}
    (h : Transient (script (moves.count .call))) :
    (p.loop (perform script) pause (left + 1) attempt).run moves =
      (p.loop (perform script) pause left (attempt + 1)).run
        (moves ++ [.call] ++ [.sleep (p.delay attempt).toNat]) := by
  have hperform : (perform script).run moves =
      (script (moves.count .call), moves ++ [.call]) := rfl
  rw [loop, StateT.run_bind, hperform]
  generalize script (moves.count .call) = outcome at h ⊢
  rcases outcome with failure | a
  · show StateT.run (if failure.isTransient then _ else _) _ = _
    rw [if_pos (show failure.isTransient = true from h), StateT.run_bind]
    rfl
  · exact h.elim

/-- The loop goes on for as long as the outcomes are transient failures and retries are left. -/
theorem run_loop (left : Nat) : ∀ (attempt : UInt32) (calls : Nat) (moves : List Move),
    moves.count .call = calls → attempt.toNat = calls + 1 → calls + left < 2 ^ 32 - 1 →
    ∃ count ≤ left, (∀ k, calls ≤ k → k < calls + count → Transient (script k)) ∧
      (count < left → ¬ Transient (script (calls + count))) ∧
      (p.loop (perform script) pause left attempt).run moves =
        (script (calls + count), moves ++ .call :: p.retries (calls + 1) count) := by
  induction left with
  | zero =>
    rintro attempt calls moves rfl - -
    exact ⟨0, le_refl 0, fun k hk hlt => absurd hlt (Nat.not_lt.mpr hk), nofun, rfl⟩
  | succ left ih =>
    rintro attempt calls moves rfl hattempt hwidth
    by_cases htransient : Transient (script (moves.count .call))
    · have hcalls : (moves ++ [Move.call] ++ [Move.sleep (p.delay attempt).toNat]).count .call =
          moves.count .call + 1 := by simp
      -- the attempts are never so many that counting them starts anew
      have hnext : (attempt + 1).toNat = moves.count .call + 1 + 1 := by
        rw [UInt32.toNat_add, hattempt, show (1 : UInt32).toNat = 1 from rfl]
        exact Nat.mod_eq_of_lt (by omega)
      obtain ⟨count, hcount, hbefore, hafter, hrun⟩ := ih _ _ _ hcalls hnext (by omega)
      have hposition : moves.count .call + 1 + count = moves.count .call + (count + 1) := by omega
      rw [hposition] at hbefore hafter hrun
      refine ⟨count + 1, Nat.succ_le_succ hcount, fun k hk hlt => ?_,
        fun hlt => hafter (Nat.lt_of_succ_lt_succ hlt), ?_⟩
      · rcases Nat.eq_or_lt_of_le hk with rfl | hk
        · exact htransient
        · exact hbefore k hk hlt
      · rw [p.run_loop_of_transient script left attempt htransient, hrun, retries, ← hattempt,
          UInt32.ofNat_toNat, List.append_assoc, List.append_assoc]
        rfl
    · exact ⟨0, Nat.zero_le _, fun k hk hlt => absurd hlt (Nat.not_lt.mpr hk), fun _ => htransient,
        p.run_loop_of_settled script left attempt htransient⟩

/-- **The loop does exactly what its policy says.** Over any script, it calls as often as it takes
to come to an outcome that is no transient failure, but not more often than the policy allows. It
returns the outcome of the last call, and sleeps between two calls only, for the delays of the
attempts that failed. -/
theorem run_exact :
    (∃ calls : Nat,
      (calls : ℕ∞) = min (settledAt script) (max p.maxAttempts.toNat 1 : Nat) ∧
      (p.rehearse script).1 = script (calls - 1) ∧
      (p.rehearse script).2 = .call :: p.retries 1 (calls - 1) ∧
      (p.rehearse script).2.count .call = calls ∧
      (p.rehearse script).2.getLast? = some .call ∧
      Move.slept (p.rehearse script).2 =
        ∑ attempt ∈ Finset.Ico 1 calls, (p.delay (.ofNat attempt)).toNat ∧
      Move.slept (p.rehearse script).2 ≤ (max p.maxAttempts.toNat 1 - 1) * p.longest.toNat) ∧
    ∀ attempt : UInt32,
      (p.delay attempt).toNat =
        min (p.base.toNat * 2 ^ min (max attempt.toNat 1 - 1) 31) p.longest.toNat ∧
      p.delay attempt ≤ p.longest ∧
      ∀ later, attempt ≤ later → p.delay attempt ≤ p.delay later := by
  refine ⟨?_, fun attempt => ⟨p.toNat_delay attempt, p.delay_le_longest attempt,
    fun later h => p.delay_mono h⟩⟩
  have hwidth : p.maxAttempts.toNat < 2 ^ 32 := p.maxAttempts.toNat_lt
  obtain ⟨count, hcount, hbefore, hafter, hrun⟩ :=
    run_loop p script (p.maxAttempts.toNat - 1) 1 0 [] rfl rfl (by omega)
  have hrehearse : p.rehearse script = (script count, .call :: p.retries 1 count) := by
    rw [Nat.zero_add] at hrun
    exact hrun
  have hbefore' : ∀ k < count, Transient (script k) := fun k hk =>
    hbefore k (Nat.zero_le k) (by omega)
  have hcalls : ((count + 1 : Nat) : ℕ∞) =
      min (settledAt script) (max p.maxAttempts.toNat 1 : Nat) := by
    rcases Nat.lt_or_ge count (p.maxAttempts.toNat - 1) with hlt | hge
    · have hsettled : ¬ Transient (script count) := by simpa using hafter hlt
      have hle : count + 1 ≤ max p.maxAttempts.toNat 1 := by omega
      rw [settledAt_eq hbefore' hsettled, min_eq_left (by exact_mod_cast hle)]
      rfl
    · have heq : max p.maxAttempts.toNat 1 = count + 1 := by omega
      rw [heq, min_eq_right (by exact_mod_cast succ_le_settledAt hbefore')]
  have hslept : Move.slept (.call :: p.retries 1 count) =
      ∑ attempt ∈ Finset.Ico 1 (count + 1), (p.delay (.ofNat attempt)).toNat := by
    rw [Finset.sum_Ico_eq_sum_range, Nat.add_sub_cancel, ← p.slept_retries 1 count]
    exact Nat.zero_add _
  refine ⟨count + 1, hcalls, ?_⟩
  rw [hrehearse, Nat.add_sub_cancel]
  refine ⟨rfl, rfl, ?_, p.getLast_retries 1 count, hslept, ?_⟩
  · rw [List.count_cons_self, p.count_retries]
  · calc Move.slept (.call :: p.retries 1 count)
        = ∑ attempt ∈ Finset.Ico 1 (count + 1), (p.delay (.ofNat attempt)).toNat := hslept
      _ ≤ ∑ _attempt ∈ Finset.Ico 1 (count + 1), p.longest.toNat :=
          Finset.sum_le_sum fun attempt _ =>
            UInt64.le_iff_toNat_le.mp (p.delay_le_longest (.ofNat attempt))
      _ = count * p.longest.toNat := by simp
      _ ≤ (max p.maxAttempts.toNat 1 - 1) * p.longest.toNat :=
          Nat.mul_le_mul_right _ (by omega)

/-- A script of transient failures only is followed to the last permitted attempt. -/
example : ((⟨4, 10, 30⟩ : RetryPolicy).rehearse fun k =>
    (.error (.transient (toString k)) : Except StoreError Unit)) =
      (.error (.transient "3"),
        [.call, .sleep 10, .call, .sleep 20, .call, .sleep 30, .call]) := by rfl

end SelfWiring.RetryPolicy
