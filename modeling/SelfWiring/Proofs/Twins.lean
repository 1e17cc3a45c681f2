import Mathlib.Tactic.Choose
import SelfWiring.Proofs.Flaky
import SelfWiring.Proofs.Routine
import SelfWiring.Proofs.Store.Blank

/-!
# Retries that go unnoticed

Calls that fail for a transient reason are retried, and the retries take time. Two programs are
twins if they do the same whatever the clock says, up to the scores that they write into traces.
Where a program runs on a store that lets some attempts fail, but never all attempts of one call,
and its twin runs on a store without failures, the two end alike: with the same result, and in
worlds that differ in the scores of traces and in the time only.
-/

namespace SelfWiring

/-! ## Twins -/

/-- Effects that neither look at the clock nor touch scores. What other processes do is left out. -/
def Effect.Ageless : Effect → Prop
  | .store c => c.Ageless
  | .elsewhere _ | .clock => False
  | _ => True

/-- Programs that do the same but for the clock readings that they write into traces. -/
inductive Program.Twin {α : Type} : Program α → Program α → Prop
  | done (a : α) : Twin (.done a) (.done a)
  | perform {e : Effect} {next next' : e.Answer → Program α} (he : e.Ageless)
      (h : ∀ answer, Twin (next answer) (next' answer)) : Twin (.perform e next) (.perform e next')
  | clock {next next' : Nat → Program α} (h : ∀ now now', Twin (next now) (next' now')) :
      Twin (.perform .clock next) (.perform .clock next')
  | trace {key member : String} {score score' : Score}
      {next next' : Except StoreError Unit → Program α} (hkey : Key.isTrace key = true)
      (hscore : score.isNaN = false) (hscore' : score'.isNaN = false)
      (h : ∀ answer, Twin (next answer) (next' answer)) :
      Twin (.perform (.store (.zadd key member score)) next)
        (.perform (.store (.zadd key member score')) next')

/-- A program for which the clock matters in traces only. -/
def Program.Timeless {α : Type} (p : Program α) : Prop := Program.Twin p p

def Action.Timeless {ε α : Type} (a : Action ε α) : Prop := Program.Timeless a.run

namespace Program

variable {α β : Type} {p q : Program α}

theorem Twin.bind {f g : α → Program β} (h : Twin p q) (hf : ∀ a, Twin (f a) (g a)) :
    Twin (p.bind f) (q.bind g) := by
  induction h with
  | done a => exact hf a
  | perform he _ ih => exact .perform he ih
  | clock _ ih => exact .clock ih
  | trace hkey hscore hscore' _ ih => exact .trace hkey hscore hscore' ih

theorem Only.timeless (h : Only Effect.Ageless p) : p.Timeless := by
  induction p with
  | done a => exact .done a
  | perform e next ih => exact .perform h.1 fun answer => ih answer (h.2 answer)

theorem Timeless.bind {f : α → Program β} (h : p.Timeless) (hf : ∀ a, (f a).Timeless) :
    (p.bind f).Timeless := Twin.bind h hf

end Program

namespace Action

variable {ε ε' α β : Type} {a : Action ε α}

theorem timeless_pure (x : α) : Timeless (pure x : Action ε α) := .done _

theorem timeless_throw (e : ε) : Timeless (throw e : Action ε α) := .done _

theorem timeless_ofExcept (r : Except ε α) : Timeless (liftM r : Action ε α) := .done _

theorem Only.timeless (h : Only Effect.Ageless a) : Timeless a := Program.Only.timeless h

theorem Timeless.bind {f : α → Action ε β} (h : Timeless a) (hf : ∀ x, Timeless (f x)) :
    Timeless (a >>= f) := by
  refine Program.Timeless.bind h fun r => ?_
  cases r with
  | ok x => exact hf x
  | error e => exact .done _

theorem timeless_lift {p : Program α} (h : p.Timeless) :
    Timeless (ExceptT.lift p : Action ε α) := Program.Timeless.bind h fun _ => .done _

theorem Timeless.adapt (h : Timeless a) (g : ε → ε') :
    Timeless (ExceptT.adapt g a : Action ε' α) := Program.Timeless.bind h fun _ => .done _

theorem Timeless.observe (h : Timeless a) : Timeless (observe a : Action ε' (Except ε α)) :=
  timeless_lift h

end Action

/-! ## Calls that are retried -/

namespace Flaky

variable {σ : Type}

/-- All failures are transient. -/
def Fleeting (s : Flaky σ) : Prop :=
  ∀ k failure, s.failures k = some failure → failure.isTransient = true

/-- Of the attempts so far, no stretch of as many as given failed throughout. A call that is
attempted up to that often succeeds then, and a stretch of failures lies within one call, since a
call begins where the one before it has succeeded. -/
def Spared (s : Flaky σ) (attempts : Nat) : Prop :=
  ∀ k < s.calls, ∃ i < attempts, s.failures (k + i) = none

end Flaky

namespace World

variable {σ : Type} [Store σ]

theorem answer_flaky (e : Effect) (w : World (Flaky σ)) :
    (w.answer e).2.store.failures = w.store.failures ∧
      w.store.calls ≤ (w.answer e).2.store.calls := by
  cases e
  case store c =>
    show (Flaky.perform c w.store).2.failures = _ ∧ _ ≤ (Flaky.perform c w.store).2.calls
    unfold Flaky.perform
    split <;> exact ⟨rfl, Nat.le_succ _⟩
  all_goals exact ⟨rfl, Nat.le_refl _⟩

/-- The schedule stays, and the count of calls only grows. -/
theorem run_flaky {α : Type} (p : Program α) : ∀ w : World (Flaky σ),
    (w.run p).2.store.failures = w.store.failures ∧ w.store.calls ≤ (w.run p).2.store.calls := by
  induction p with
  | done a => exact fun w => ⟨rfl, Nat.le_refl _⟩
  | perform e next ih =>
    intro w
    obtain ⟨hschedule, hcalls⟩ := w.answer_flaky e
    obtain ⟨hschedule', hcalls'⟩ := ih (w.answer e).1 (w.answer e).2
    exact ⟨hschedule'.trans hschedule, Nat.le_trans hcalls hcalls'⟩

theorem calls_lt_run_store {α : Type} (c : StoreCall)
    (next : Except StoreError c.Answer → Program α) (w : World (Flaky σ)) :
    w.store.calls < (w.run (.perform (.store c) next)).2.store.calls := by
  refine Nat.lt_of_lt_of_le ?_ (run_flaky (next (w.answer (.store c)).1) _).2
  show w.store.calls < (Flaky.perform c w.store).2.calls
  unfold Flaky.perform
  split <;> exact Nat.lt_succ_self _

theorem calls_lt_run_retried {α : Type} (policy : RetryPolicy) (c : StoreCall)
    (k : Except StoreError c.Answer → Program α) (left : Nat) (attempt : UInt32)
    (w : World (Flaky σ)) :
    w.store.calls < (w.run ((policy.loop (Program.effect (.store c))
      (fun ms => Program.sleep ms.toNat) left attempt).bind k)).2.store.calls := by
  cases left <;> exact calls_lt_run_store c _ w

variable [Blanking σ]

/-- Where one of the attempts that are left succeeds, a retried call comes to what the call comes to
on the store behind the schedule. Only the time and the count of calls tell of the failures. -/
theorem run_loop_of_spared (policy : RetryPolicy) (c : StoreCall) : ∀ (left : Nat)
    (attempt : UInt32) (w : World (Flaky σ)), Blanking.InOrder w.store.below → w.store.Fleeting →
    (∃ i ≤ left, w.store.failures (w.store.calls + i) = none) →
    ∃ calls now, w.run (policy.loop (Program.effect (.store c)) (fun ms => Program.sleep ms.toNat)
        left attempt) =
      ((Store.perform c w.store.below).1, { w with
        store := { w.store with below := (Store.perform c w.store.below).2, calls }, now }) := by
  intro left
  induction left with
  | zero =>
    rintro attempt w - - ⟨i, hi, hnone⟩
    obtain rfl := Nat.le_zero.mp hi
    exact ⟨w.store.calls + 1, w.now, answer_of_none hnone⟩
  | succ left ih =>
    rintro attempt w horder hfleeting ⟨i, hi, hnone⟩
    show ∃ calls now, w.run (Program.bind (Program.effect (.store c)) _) = _
    rcases hfails : w.store.failures w.store.calls with _ | failure
    · have hanswer : w.run (Program.effect (.store c)) = _ := answer_of_none hfails
      refine ⟨w.store.calls + 1, w.now, ?_⟩
      rw [run_bind, hanswer]
      rcases hperform : (Store.perform c w.store.below).1 with e | a
      · -- a failure of the store itself is never worth a second attempt
        have hlasting : e.isTransient = false := by
          cases e with
          | transient reason => exact absurd hperform (Blanking.steady c reason horder)
          | notFound _ | backend _ | codec _ => rfl
        simp only [hlasting]
        rfl
      · rfl
    · have hanswer : w.run (Program.effect (.store c)) = _ := answer_of_some hfails
      obtain ⟨i, rfl⟩ : ∃ j, i = j + 1 := by
        cases i with
        | zero => exact absurd (hfails.symm.trans hnone) (by simp)
        | succ j => exact ⟨j, rfl⟩
      let w' : World (Flaky σ) :=
        { w with store := { w.store with calls := w.store.calls + 1 }
                 now := w.now + min (policy.delay attempt).toNat longestWait }
      obtain ⟨calls, now, hrest⟩ := ih (attempt + 1) w' horder hfleeting
        ⟨i, Nat.le_of_succ_le_succ hi, by rw [← hnone, Nat.add_comm i, ← Nat.add_assoc]⟩
      refine ⟨calls, now, ?_⟩
      rw [run_bind, hanswer]
      simp only [hfleeting _ _ hfails]
      exact hrest

/-- A world over a schedule and a world without one are alike: they differ in the scores of traces
and in the time only. -/
structure Near (w : World (Flaky σ)) (v : World σ) : Prop where
  store : Blanking.blank w.store.below = Blanking.blank v.store
  inOrder : Blanking.InOrder w.store.below
  minted : w.minted = v.minted
  generator : w.generator = v.generator
  events : w.events = v.events

/-- The schedule that lets no call fail. -/
def withoutFaults (w : World (Flaky σ)) : World (Flaky σ) :=
  { w with store := { w.store with failures := fun _ => none } }

theorem near_below {w : World (Flaky σ)} (h : Blanking.InOrder w.store.below) : w.Near w.below :=
  ⟨rfl, h, rfl, rfl, rfl⟩

theorem near_answer {e : Effect} (he : e.Ageless) (hstore : ∀ c, e ≠ .store c)
    {w : World (Flaky σ)} {v : World σ} (h : w.Near v) :
    (w.answer e).1 = (v.answer e).1 ∧ (w.answer e).2.Near (v.answer e).2 := by
  obtain ⟨hblank, horder, hminted, hgenerator, hevents⟩ := h
  cases e
  case store c => exact absurd rfl (hstore c)
  case elsewhere | clock => exact he.elim
  case mint =>
    refine ⟨congrArg Identifier.render hminted, hblank, horder, ?_, hgenerator, hevents⟩
    exact congrArg (· + 1) hminted
  case draw limit candidates =>
    unfold answer
    dsimp only
    rw [hgenerator]
    exact ⟨rfl, hblank, horder, hminted, rfl, hevents⟩
  case publish event =>
    refine ⟨rfl, hblank, horder, hminted, hgenerator, ?_⟩
    exact congrArg (· ++ [event]) hevents
  all_goals exact ⟨rfl, hblank, horder, hminted, hgenerator, hevents⟩

theorem near_store {c : StoreCall} (hc : c.Ageless) {w : World (Flaky σ)} {v : World σ}
    (h : w.Near v) : (Store.perform c w.store.below).1 = (Store.perform c v.store).1 ∧
      Blanking.blank (Store.perform c w.store.below).2 =
        Blanking.blank (Store.perform c v.store).2 := by
  have hboth := (Blanking.perform_blank w.store.below hc).symm.trans
    (h.store ▸ Blanking.perform_blank v.store hc)
  exact Prod.mk.inj hboth

theorem near_zadd {key : String} (member : String) {score score' : Score}
    (hkey : Key.isTrace key = true) (hscore : score.isNaN = false) (hscore' : score'.isNaN = false)
    {w : World (Flaky σ)} {v : World σ} (h : w.Near v) :
    (Store.perform (.zadd key member score) w.store.below).1 =
        (Store.perform (.zadd key member score') v.store).1 ∧
      Blanking.blank (Store.perform (.zadd key member score) w.store.below).2 =
        Blanking.blank (Store.perform (.zadd key member score') v.store).2 := by
  have hboth := (Blanking.zadd_blank member w.store.below hkey hscore).symm.trans
    (h.store ▸ Blanking.zadd_blank member v.store hkey hscore')
  exact Prod.mk.inj hboth

/-- A retried call, and what follows it, in a run whose calls are spared. -/
theorem run_retried {α : Type} (policy : RetryPolicy) (c : StoreCall)
    (k : Except StoreError c.Answer → Program α) {w : World (Flaky σ)}
    (horder : Blanking.InOrder w.store.below) (hfleeting : w.store.Fleeting)
    (hspared : (w.run ((policy.run (Program.effect (.store c))
      fun ms => Program.sleep ms.toNat).bind k)).2.store.Spared (max 1 policy.maxAttempts.toNat)) :
    ∃ calls now, w.run ((policy.run (Program.effect (.store c))
        fun ms => Program.sleep ms.toNat).bind k) =
      World.run (k (Store.perform c w.store.below).1) { w with
        store := { w.store with below := (Store.perform c w.store.below).2, calls }, now } := by
  have hlater := calls_lt_run_retried policy c k (policy.maxAttempts.toNat - 1) 1 w
  obtain ⟨i, hi, hnone⟩ := hspared _ hlater
  rw [(run_flaky _ w).1] at hnone
  obtain ⟨calls, now, hrun⟩ := run_loop_of_spared policy c (policy.maxAttempts.toNat - 1) 1 w horder
    hfleeting ⟨i, by omega, hnone⟩
  refine ⟨calls, now, ?_⟩
  rw [run_bind]
  exact congrArg (fun r => run (k r.1) r.2) hrun

end World

/-- A program whose calls are retried on a flaky store ends like its twin on a store without
failures, as long as all failures are transient and no call fails at every attempt. -/
theorem Program.Twin.run_near {σ : Type} [Store σ] [Blanking σ] {α : Type} {p q : Program α}
    (h : Program.Twin p q) (policy : RetryPolicy) : ∀ {w : World (Flaky σ)} {v : World σ},
    w.Near v → w.store.Fleeting →
    (w.run (p.withRetries policy)).2.store.Spared (max 1 policy.maxAttempts.toNat) →
    (w.run (p.withRetries policy)).1 = (v.run q).1 ∧
      (w.run (p.withRetries policy)).2.Near (v.run q).2 := by
  induction h with
  | done a => exact fun hnear _ _ => ⟨rfl, hnear⟩
  | @perform e next next' he _ ih =>
    intro w v hnear hfleeting hspared
    by_cases hstore : ∃ c, e = .store c
    · obtain ⟨c, rfl⟩ := hstore
      obtain ⟨calls, now, hrun⟩ := World.run_retried policy c
        (fun answer => (next answer).withRetries policy) hnear.inOrder hfleeting hspared
      obtain ⟨hanswer, hblank⟩ := World.near_store he hnear
      have hrun : w.run ((Program.perform (.store c) next).withRetries policy) = _ := hrun
      rw [hrun] at hspared ⊢
      rw [hanswer] at hspared ⊢
      exact ih _ ⟨hblank, Blanking.inOrder_perform c hnear.inOrder, hnear.minted, hnear.generator,
        hnear.events⟩ hfleeting hspared
    · have hother : ∀ c, e ≠ .store c := fun c hc => hstore ⟨c, hc⟩
      have hretries : (Program.perform e next).withRetries policy =
          .perform e fun answer => (next answer).withRetries policy := by
        cases e <;> first | rfl | exact absurd rfl (hother _)
      obtain ⟨hanswer, hnear'⟩ := World.near_answer he hother hnear
      have hfleeting' : (w.answer e).2.store.Fleeting := by
        intro k failure hk
        rw [(w.answer_flaky e).1] at hk
        exact hfleeting k failure hk
      rw [hretries] at hspared ⊢
      have hrun : v.run (.perform e next') =
          World.run (next' (w.answer e).1) (v.answer e).2 := by
        rw [hanswer]
        rfl
      rw [hrun]
      exact ih (w.answer e).1 hnear' hfleeting' hspared
  | clock _ ih =>
    intro w v hnear hfleeting hspared
    exact ih w.now v.now hnear hfleeting hspared
  | @trace key member score score' next next' hkey hscore hscore' _ ih =>
    intro w v hnear hfleeting hspared
    obtain ⟨calls, now, hrun⟩ := World.run_retried policy (.zadd key member score)
      (fun answer => (next answer).withRetries policy) hnear.inOrder hfleeting hspared
    obtain ⟨hanswer, hblank⟩ := World.near_zadd member hkey hscore hscore' hnear
    have hrun : w.run ((Program.perform (.store (.zadd key member score)) next).withRetries policy)
      = _ := hrun
    rw [hrun] at hspared ⊢
    rw [hanswer] at hspared ⊢
    exact ih _ ⟨hblank, Blanking.inOrder_perform _ hnear.inOrder, hnear.minted, hnear.generator,
      hnear.events⟩ hfleeting hspared

/-! ## Retried programs -/

namespace Program

variable {α β : Type}

/-- A program that is a timeless one with its calls retried. -/
def Retried (policy : RetryPolicy) (q : Program α) : Prop :=
  ∃ p : Program α, p.Timeless ∧ q = p.withRetries policy

variable {policy : RetryPolicy} {q : Program α}

theorem retried_pure (a : α) : Retried policy (pure a : Program α) := ⟨.done a, .done a, rfl⟩

theorem Retried.bind {f : α → Program β} (h : Retried policy q) (hf : ∀ a, Retried policy (f a)) :
    Retried policy (q >>= f) := by
  obtain ⟨p, hp, rfl⟩ := h
  choose g hg hfg using hf
  refine ⟨p.bind g, Timeless.bind hp hg, ?_⟩
  rw [withRetries_bind]
  exact congrArg _ (funext hfg)

variable {σ : Type} [Store σ] [Blanking σ]

/-- Whether calls fail now and then makes no difference to what a retried program comes to. -/
theorem Retried.run_withoutFaults (h : Retried policy q) {w : World (Flaky σ)}
    (horder : Blanking.InOrder w.store.below) (hfleeting : w.store.Fleeting)
    (hspared : (w.run q).2.store.Spared (max 1 policy.maxAttempts.toNat)) :
    (w.run q).1 = (w.withoutFaults.run q).1 ∧
      ∃ v : World σ, (w.run q).2.Near v ∧ (w.withoutFaults.run q).2.Near v := by
  obtain ⟨p, hp, rfl⟩ := h
  have hfaultless : w.withoutFaults.store.Fleeting := fun k failure hk => nomatch hk
  have hcalls : (w.withoutFaults.run (p.withRetries policy)).2.store.Spared
      (max 1 policy.maxAttempts.toNat) := by
    intro k _
    refine ⟨0, Nat.lt_of_lt_of_le Nat.zero_lt_one (Nat.le_max_left _ _), ?_⟩
    rw [(World.run_flaky _ w.withoutFaults).1]
    rfl
  obtain ⟨hresult, hnear⟩ := hp.run_near policy (World.near_below horder) hfleeting hspared
  obtain ⟨hresult', hnear'⟩ :=
    hp.run_near policy (w := w.withoutFaults) (World.near_below horder) hfaultless hcalls
  exact ⟨hresult.trans hresult'.symm, (w.below.run p).2, hnear, hnear'⟩

end Program

end SelfWiring
