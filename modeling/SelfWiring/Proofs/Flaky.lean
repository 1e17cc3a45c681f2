import SelfWiring.Proofs.Draws
import SelfWiring.Proofs.Net

/-!
# Stores whose calls can fail

A flaky store is a store without faults behind a schedule that lets calls fail. A call that fails
never reaches the store behind it, and may fail with any error. `Program.Endures inv p post s` says
that, whichever of its calls fail, `p` keeps `inv` at every step on the way from `s`, and that it
ends as `post` says. What a program endures it endures with retries as well: a call that is retried
is a call that has failed without effect before it comes to something.
-/

namespace SelfWiring

structure Flaky (σ : Type) where
  below : σ
  /-- How the calls fail, in their order. -/
  failures : Nat → Option StoreError
  /-- How many calls there were. -/
  calls : Nat := 0

namespace Flaky

def perform {σ : Type} [Store σ] (c : StoreCall) (s : Flaky σ) :
    Except StoreError c.Answer × Flaky σ :=
  match s.failures s.calls with
  | some failure => (.error failure, { s with calls := s.calls + 1 })
  | none => ((Store.perform c s.below).1,
      { s with below := (Store.perform c s.below).2, calls := s.calls + 1 })

/-- No call fails any more. -/
def Reliable {σ : Type} (s : Flaky σ) : Prop := ∀ k, s.calls ≤ k → s.failures k = none

end Flaky

instance {σ : Type} [Store σ] : Store (Flaky σ) where
  perform := Flaky.perform
  elsewhere c s := { s with below := Store.elsewhere c s.below }

namespace World

variable {σ : Type} [Store σ]

theorem answer_store {τ : Type} [Store τ] (c : StoreCall) (w : World τ) : w.answer (.store c) =
    ((Store.perform c w.store).1, { w with store := (Store.perform c w.store).2 }) := rfl

theorem answer_of_some {c : StoreCall} {w : World (Flaky σ)} {failure : StoreError}
    (h : w.store.failures w.store.calls = some failure) :
    w.answer (.store c) =
      (.error failure, { w with store := { w.store with calls := w.store.calls + 1 } }) := by
  have hperform : Store.perform c w.store =
      (.error failure, { w.store with calls := w.store.calls + 1 }) := by
    show Flaky.perform c w.store = _
    unfold Flaky.perform
    rw [h]
  rw [answer_store, hperform]

theorem answer_of_none {c : StoreCall} {w : World (Flaky σ)}
    (h : w.store.failures w.store.calls = none) :
    w.answer (.store c) = ((Store.perform c w.store.below).1,
      { w with store := { w.store with
        below := (Store.perform c w.store.below).2, calls := w.store.calls + 1 } }) := by
  have hperform : Store.perform c w.store = ((Store.perform c w.store.below).1,
      { w.store with below := (Store.perform c w.store.below).2, calls := w.store.calls + 1 }) := by
    show Flaky.perform c w.store = _
    unfold Flaky.perform
    rw [h]
  rw [answer_store, hperform]

end World

/-! ## What an effect comes to -/

/-- What the effects of a program work on: what the store holds, and the supply of identifiers. -/
structure Holding where
  contents : Contents
  /-- How many identifiers were minted. -/
  minted : Nat

/-- Calls of which stores without faults say what they do. -/
def StoreCall.Settled : StoreCall → Prop
  | .len _ | .setAdd _ _ | .zrange _ | .randomKey _ | .countKeys _ => False
  | _ => True

/-- What a call that succeeds answers, and what is held after it. -/
def StoreCall.Does (s : Contents) : (c : StoreCall) → c.Answer → Contents → Prop
  | .get key, value, after => s.text key = some value ∧ after = s
  | .set key value, _, after => after = s.putText key value
  | .incr key, count, after => count = nextCount (s.text key) ∧
      after = s.putText key (countText (nextCount (s.text key)))
  | .push list value, _, after => after = s.putList list (s.list list ++ [value])
  | .pop list, item, after => item = (s.list list).head? ∧
      (after = s ∨ after = s.putList list (s.list list).tail)
  | .setInit key members, created, after =>
      (s.set key = none ∧ created = true ∧ after = s.putSet key (addMembers [] members)) ∨
        ((s.set key).isSome = true ∧ created = false ∧ after = s)
  | .setMembers key, members, after => s.set key = some members ∧ after = s
  | .zadd _ _ _, _, after => after = s
  | _, _, _ => True

/-- What a call comes to that may fail: a call that fails has no effect. -/
def StoreCall.ComesTo (c : StoreCall) (s : Contents) : Except StoreError c.Answer → Contents → Prop
  | .ok answer, after => c.Does s answer after
  | .error _, after => c.Settled → after = s

def Effect.ComesTo : (e : Effect) → Holding → e.Answer → Holding → Prop
  | .store c, s, answer, t => ∃ after, c.ComesTo s.contents answer after ∧
      t = { s with contents := after }
  | .elsewhere _, _, _, _ => True
  | .mint, s, id, t => id = Identifier.render s.minted ∧ t = { s with minted := s.minted + 1 }
  | .draw _ candidates, s, drawn, t => (∀ c ∈ drawn, c ∈ candidates) ∧ t = s
  | .publish _, s, _, t | .clock, s, _, t | .sleep _, s, _, t | .signal _, s, _, t
  | .await _ _, s, _, t | .stop _, s, _, t | .stopping, s, _, t | .join, s, _, t => t = s

/-- A call that has failed can come to whatever it could have come to before. -/
theorem Effect.ComesTo.again {c : StoreCall} {s t u : Holding} {failure : StoreError}
    {answer : Except StoreError c.Answer} (h : Effect.ComesTo (.store c) s (.error failure) t)
    (h' : Effect.ComesTo (.store c) t answer u) : Effect.ComesTo (.store c) s answer u := by
  obtain ⟨after, hfailed, rfl⟩ := h
  obtain ⟨after', hanswer, rfl⟩ := h'
  refine ⟨after', ?_, rfl⟩
  by_cases hsettled : c.Settled
  · rw [show after = s.contents from hfailed hsettled] at hanswer
    exact hanswer
  · -- nothing is said about these calls
    cases answer with
    | error e => exact fun h => absurd h hsettled
    | ok a => cases c <;> first | exact trivial | exact absurd trivial hsettled

section

variable {σ : Type} [Store σ] [FaultFree σ]

theorem FaultFree.comesTo (c : StoreCall) (s : σ) : c.ComesTo (FaultFree.contents s)
    (Store.perform c s).1 (FaultFree.contents (Store.perform c s).2) := by
  have hperforms : ∀ {answer : Except StoreError c.Answer} {after : Contents},
      Performs FaultFree.contents c s answer after → c.ComesTo (FaultFree.contents s) answer after →
        c.ComesTo (FaultFree.contents s) (Store.perform c s).1
          (FaultFree.contents (Store.perform c s).2) := by
    rintro answer after ⟨hanswer, hafter⟩ hcomes
    rw [hanswer, hafter]
    exact hcomes
  cases c
  case get key =>
    apply hperforms (FaultFree.get key s)
    cases h : (FaultFree.contents s).text key with
    | some value => exact ⟨h, rfl⟩
    | none => exact fun _ => rfl
  case setMembers key =>
    apply hperforms (FaultFree.setMembers key s)
    cases h : (FaultFree.contents s).set key with
    | some members => exact ⟨h, rfl⟩
    | none => exact fun _ => rfl
  case setInit key members =>
    cases h : (FaultFree.contents s).set key with
    | some present =>
      apply hperforms (FaultFree.setInit_some key members s present h)
      exact Or.inr ⟨by rw [h]; rfl, rfl, rfl⟩
    | none =>
      apply hperforms (FaultFree.setInit_none key members s h)
      exact Or.inl ⟨h, rfl, rfl⟩
  case pop list =>
    cases h : (FaultFree.contents s).list list with
    | nil =>
      apply hperforms (FaultFree.pop_nil list s h)
      exact ⟨by rw [h]; rfl, Or.inl rfl⟩
    | cons head rest =>
      apply hperforms (FaultFree.pop_cons list s head rest h)
      exact ⟨by rw [h]; rfl, Or.inr (by rw [h]; rfl)⟩
  case set key value => exact hperforms (FaultFree.set key value s) rfl
  case incr key => exact hperforms (FaultFree.incr key s) ⟨rfl, rfl⟩
  case push list value => exact hperforms (FaultFree.push list value s) rfl
  case zadd key member score =>
    rw [FaultFree.zadd key member score s]
    cases (Store.perform (.zadd key member score) s).1 with
    | ok _ => exact rfl
    | error _ => exact fun _ => rfl
  all_goals
    unfold StoreCall.ComesTo
    split
    · exact trivial
    · exact fun h => h.elim

namespace World

/-- The world behind the schedule. -/
def below (w : World (Flaky σ)) : World σ :=
  { store := w.store.below, minted := w.minted, generator := w.generator, events := w.events,
    now := w.now }

def holding (w : World (Flaky σ)) : Holding := ⟨w.below.contents, w.minted⟩

theorem answer_comesTo (e : Effect) (w : World (Flaky σ)) :
    e.ComesTo w.holding (w.answer e).1 (w.answer e).2.holding := by
  cases e
  case store c =>
    show Effect.ComesTo (.store c) w.holding (Flaky.perform c w.store).1
      (holding { w with store := (Flaky.perform c w.store).2 })
    unfold Flaky.perform
    split
    · exact ⟨w.below.contents, fun _ => rfl, rfl⟩
    · exact ⟨_, FaultFree.comesTo c w.store.below, rfl⟩
  case elsewhere c => exact trivial
  case mint => exact ⟨rfl, rfl⟩
  case draw limit candidates => exact ⟨fun _ hc => Random.Generator.mem_cells hc, rfl⟩
  all_goals rfl

omit [FaultFree σ] in
/-- Where no call fails any more, the schedule makes no difference. -/
theorem run_of_reliable {α : Type} (p : Program α) :
    ∀ w : World (Flaky σ), w.store.Reliable →
      (w.run p).1 = (w.below.run p).1 ∧ (w.run p).2.below = (w.below.run p).2 := by
  induction p with
  | done a => intro w _; exact ⟨rfl, rfl⟩
  | perform e next ih =>
    intro w hreliable
    have hanswer : (w.answer e).1 = (w.below.answer e).1 ∧
        (w.answer e).2.below = (w.below.answer e).2 ∧ (w.answer e).2.store.Reliable := by
      cases e
      case store c =>
        have hperform : Store.perform c w.store = ((Store.perform c w.store.below).1,
            { w.store with below := (Store.perform c w.store.below).2
                           calls := w.store.calls + 1 }) := by
          show Flaky.perform c w.store = _
          unfold Flaky.perform
          rw [hreliable _ (Nat.le_refl _)]
        unfold World.answer
        simp only [hperform]
        exact ⟨rfl, rfl, fun k hk => hreliable k (Nat.le_of_succ_le hk)⟩
      all_goals exact ⟨rfl, rfl, hreliable⟩
    obtain ⟨hfirst, hbelow, hrest⟩ := hanswer
    have hstep : w.below.run (.perform e next) =
        run (next (w.answer e).1) (w.answer e).2.below := by
      rw [hfirst, hbelow]
      rfl
    rw [hstep]
    exact ih _ _ hrest

/-- The worlds that a program passes through. The last of them is the one in which it ends. -/
def stages {τ : Type} [Store τ] {α : Type} : Program α → World τ → List (World τ)
  | .done _, w => [w]
  | .perform e next, w => w :: stages (next (w.answer e).1) (w.answer e).2

theorem run_mem_stages {τ : Type} [Store τ] {α : Type} (p : Program α) :
    ∀ w : World τ, (w.run p).2 ∈ w.stages p := by
  induction p with
  | done a => intro w; exact List.mem_singleton_self w
  | perform e next ih =>
    intro w
    exact List.mem_cons_of_mem _ (ih (w.answer e).1 (w.answer e).2)

end World

end

/-! ## Enduring failures -/

/-- Whatever the effects of a program come to, `inv` holds throughout, and `post` in the end. -/
def Program.Endures {α : Type} (inv : Holding → Prop) : Program α → (α → Holding → Prop) →
    Holding → Prop
  | .done a, post, s => inv s ∧ post a s
  | .perform e next, post, s => inv s ∧ ∀ answer t, e.ComesTo s answer t →
      Endures inv (next answer) post t

namespace Program

variable {α β : Type} {inv : Holding → Prop} {p : Program α} {s : Holding}

theorem Endures.begin {post : α → Holding → Prop} (h : Endures inv p post s) : inv s := by
  cases p with
  | done a => exact h.1
  | perform e next => exact h.1

theorem Endures.imp {post post' : α → Holding → Prop} (h : Endures inv p post s)
    (himp : ∀ a t, inv t → post a t → post' a t) : Endures inv p post' s := by
  induction p generalizing s with
  | done a => exact ⟨h.1, himp a s h.1 h.2⟩
  | perform e next ih => exact ⟨h.1, fun answer t hcomes => ih answer (h.2 answer t hcomes)⟩

theorem Endures.weaken {post : α → Holding → Prop} (h : Endures inv p post s)
    {inv' : Holding → Prop} (hweaken : ∀ t, inv t → inv' t) : Endures inv' p post s := by
  induction p generalizing s with
  | done a => exact ⟨hweaken s h.1, h.2⟩
  | perform e next ih =>
    exact ⟨hweaken s h.1, fun answer t hcomes => ih answer (h.2 answer t hcomes)⟩

theorem Endures.bind {f : α → Program β} {post : α → Holding → Prop} {post' : β → Holding → Prop}
    (h : Endures inv p post s) (hf : ∀ a t, inv t → post a t → Endures inv (f a) post' t) :
    Endures inv (p.bind f) post' s := by
  induction p generalizing s with
  | done a => exact hf a s h.1 h.2
  | perform e next ih => exact ⟨h.1, fun answer t hcomes => ih answer (h.2 answer t hcomes)⟩

theorem endures_effect {e : Effect} {post : e.Answer → Holding → Prop} (h : inv s)
    (hpost : ∀ answer t, e.ComesTo s answer t → inv t ∧ post answer t) :
    Endures inv (effect e) post s := ⟨h, hpost⟩

/-- A retried call comes to nothing that it could not have come to at once. -/
theorem endures_loop (policy : RetryPolicy) (c : StoreCall)
    {k : Except StoreError c.Answer → Program β} {post : β → Holding → Prop} (left : Nat) :
    ∀ (attempt : UInt32) (s : Holding), Endures inv (.perform (.store c) k) post s →
      Endures inv ((policy.loop (effect (.store c)) (fun ms => sleep ms.toNat) left attempt).bind k)
        post s := by
  induction left with
  | zero => exact fun _ _ h => h
  | succ left ih =>
    intro attempt s h
    refine ⟨h.1, fun answer t hcomes => ?_⟩
    have hdone := h.2 answer t hcomes
    cases answer with
    | ok a => exact hdone
    | error failure =>
      show Endures inv (Program.bind (if failure.isTransient then _ else _) k) post t
      split
      · refine ⟨hdone.begin, ?_⟩
        rintro _ _ rfl
        exact ih _ _ ⟨hdone.begin, fun answer u hagain => h.2 answer u (hcomes.again hagain)⟩
      · exact hdone

theorem Endures.withRetries {post : α → Holding → Prop} (h : Endures inv p post s)
    (policy : RetryPolicy) : Endures inv (p.withRetries policy) post s := by
  induction p generalizing s with
  | done a => exact h
  | perform e next ih =>
    cases e
    case store c =>
      apply endures_loop
      exact ⟨h.1, fun answer t hcomes => ih answer (h.2 answer t hcomes)⟩
    all_goals exact ⟨h.1, fun answer t hcomes => ih answer (h.2 answer t hcomes)⟩

/-- What a program endures holds of every world that it passes through, whatever calls fail. -/
theorem Endures.stages {σ : Type} [Store σ] [FaultFree σ] {post : α → Holding → Prop} :
    ∀ {w : World (Flaky σ)}, Endures inv p post w.holding → ∀ v ∈ w.stages p, inv v.holding := by
  induction p with
  | done a =>
    intro w h v hv
    rw [List.mem_singleton.mp hv]
    exact h.1
  | perform e next ih =>
    intro w h v hv
    rcases List.mem_cons.mp hv with rfl | hv
    · exact h.1
    · exact ih _ (h.2 _ _ (w.answer_comesTo e)) v hv

end Program

/-- Whatever the effects of an action come to, every step on the way is related to the beginning,
and `post` holds in the end if the action succeeds. -/
def Action.Endures {ε α : Type} (R : Holding → Holding → Prop) (a : Action ε α)
    (post : α → Holding → Prop) (s : Holding) : Prop :=
  Program.Endures (R s) a.run (fun r t => ∀ x, r = .ok x → post x t) s

namespace Action

variable {ε ε' α β : Type} {R : Holding → Holding → Prop} {a : Action ε α} {s : Holding}

theorem Endures.imp {post post' : α → Holding → Prop} (h : Endures R a post s)
    (himp : ∀ x t, R s t → post x t → post' x t) : Endures R a post' s :=
  Program.Endures.imp h fun _ t hR hpost x hx => himp x t hR (hpost x hx)

theorem endures_pure {post : α → Holding → Prop} {x : α} (h : R s s) (hpost : post x s) :
    Endures R (pure x : Action ε α) post s :=
  ⟨h, fun _ hx => Except.ok.inj hx ▸ hpost⟩

theorem endures_throw {post : α → Holding → Prop} (h : R s s) (e : ε) :
    Endures R (throw e : Action ε α) post s :=
  ⟨h, fun _ hx => nomatch hx⟩

theorem endures_ofExcept (h : R s s) (r : Except ε α) :
    Endures R (liftM r : Action ε α) (fun x t => t = s ∧ r = .ok x) s :=
  ⟨h, fun _ hx => ⟨rfl, hx⟩⟩

/-- What fails goes no further. -/
theorem Endures.bind [IsTrans Holding R] {f : α → Action ε β} {post : α → Holding → Prop}
    {post' : β → Holding → Prop} (h : Endures R a post s)
    (hf : ∀ x t, R s t → post x t → Endures R (f x) post' t) : Endures R (a >>= f) post' s := by
  show Program.Endures (R s) (Program.bind a.run (ExceptT.bindCont f)) _ s
  refine Program.Endures.bind h ?_
  intro r t hR hpost
  cases r with
  | ok x => exact (hf x t hR (hpost x rfl)).weaken fun _ => IsTrans.trans _ _ _ hR
  | error e => exact ⟨hR, fun _ hx => nomatch hx⟩

theorem endures_lift {p : Program α} {post : α → Holding → Prop}
    (h : Program.Endures (R s) p post s) : Endures R (ExceptT.lift p : Action ε α) post s :=
  Program.Endures.bind h fun _ _ hR hpost => ⟨hR, fun _ hx => Except.ok.inj hx ▸ hpost⟩

theorem Endures.adapt {post : α → Holding → Prop} (h : Endures R a post s) (g : ε → ε') :
    Endures R (ExceptT.adapt g a : Action ε' α) post s := by
  refine Program.Endures.bind h ?_
  intro r t hR hpost
  cases r with
  | ok x => exact ⟨hR, fun _ hx => Except.ok.inj hx ▸ hpost x rfl⟩
  | error e => exact ⟨hR, fun _ hx => nomatch hx⟩

/-- A failure that is looked at takes nothing back. -/
theorem Endures.observe {post : α → Holding → Prop} (h : Endures R a post s) :
    Endures R (observe a : Action ε' (Except ε α)) (fun _ _ => True) s :=
  endures_lift (Program.Endures.imp h fun _ _ _ _ => trivial)

theorem Endures.withRetries {post : α → Holding → Prop} (h : Endures R a post s)
    (policy : RetryPolicy) : Endures R (a.withRetries policy) post s :=
  Program.Endures.withRetries h policy

/-! ## Calls -/

theorem endures_call {c : StoreCall} {post : c.Answer → Holding → Prop} (hsettled : c.Settled)
    (h : R s s) (hpost : ∀ answer after, c.Does s.contents answer after →
      R s { s with contents := after } ∧ post answer { s with contents := after }) :
    Endures R (call c) post s := by
  refine ⟨h, ?_⟩
  rintro answer t ⟨after, hcomes, rfl⟩
  cases answer with
  | ok x =>
    obtain ⟨hR, hx⟩ := hpost x after hcomes
    exact ⟨hR, fun _ hy => Except.ok.inj hy ▸ hx⟩
  | error failure =>
    rw [show after = s.contents from hcomes hsettled]
    exact ⟨h, fun _ hx => nomatch hx⟩

/-- A lookup that finds nothing, or fails as if there were nothing, changes nothing. -/
theorem endures_orAbsent {c : StoreCall} {post : Option c.Answer → Holding → Prop}
    (hsettled : c.Settled) (h : R s s) (hnone : post none s)
    (hsome : ∀ answer after, c.Does s.contents answer after →
      R s { s with contents := after } ∧ post (some answer) { s with contents := after }) :
    Endures R (orAbsent (call c)) post s := by
  refine ⟨h, ?_⟩
  rintro answer t ⟨after, hcomes, rfl⟩
  cases answer with
  | ok x =>
    obtain ⟨hR, hx⟩ := hsome x after hcomes
    exact ⟨hR, fun _ hy => Except.ok.inj hy ▸ hx⟩
  | error failure =>
    rw [show after = s.contents from hcomes hsettled]
    show Program.Endures (R s) (ExceptT.run (if failure.isNotFound then _ else _)) _ s
    split
    · exact ⟨h, fun _ hy => Except.ok.inj hy ▸ hnone⟩
    · exact ⟨h, fun _ hx => nomatch hx⟩

end Action

/-! ## What an action comes to -/

/-- The world after some calls. -/
def World.after {σ : Type} (w : World (Flaky σ)) (below : σ) (calls : Nat) : World (Flaky σ) :=
  { w with store := { w.store with below, calls := w.store.calls + calls } }

namespace Action

variable {τ : Type} [Store τ] {policy : RetryPolicy} {ε ε' α β : Type} {a : Action ε α}

/-- What an action whose calls are retried comes to in a world. -/
def Comes (policy : RetryPolicy) (a : Action ε α) (w : World τ) (r : Except ε α) (v : World τ) :
    Prop := w.run (a.withRetries policy).run = (r, v)

variable {w m v : World τ} {r : Except ε α}

theorem comes_pure (x : α) (w : World τ) : Comes policy (pure x : Action ε α) w (.ok x) w := rfl

theorem comes_ofExcept {x r : Except ε α} (h : x = r) (w : World τ) :
    Comes policy (liftM x : Action ε α) w r w := h ▸ rfl

theorem Comes.run_bind (h : Comes policy a w r v) (f : Except ε α → Program β) :
    w.run (Program.withRetries policy (Program.bind a.run f)) =
      v.run ((f r).withRetries policy) := by
  rw [Program.withRetries_bind, World.run_bind, show w.run (a.run.withRetries policy) = _ from h]

theorem Comes.bind {f : α → Action ε β} {x : α} {r : Except ε β} (h : Comes policy a w (.ok x) m)
    (hf : Comes policy (f x) m r v) : Comes policy (a >>= f) w r v :=
  (h.run_bind (ExceptT.bindCont f)).trans hf

theorem Comes.bind_error {f : α → Action ε β} {e : ε} (h : Comes policy a w (.error e) v) :
    Comes policy (a >>= f) w (.error e) v := h.run_bind (ExceptT.bindCont f)

theorem Comes.adapt (h : Comes policy a w r v) (g : ε → ε') :
    Comes policy (ExceptT.adapt g a : Action ε' α) w (r.mapError g) v :=
  h.run_bind fun r => pure (r.mapError g)

theorem Comes.observe (h : Comes policy a w r v) :
    Comes policy (observe a : Action ε' (Except ε α)) w (.ok r) v :=
  h.run_bind fun r => pure (Except.ok r)

/-- A call that does not fail for a transient reason is not attempted again. -/
theorem comes_call {c : StoreCall} {answer : Except StoreError c.Answer}
    (h : w.answer (.store c) = (answer, v))
    (hsteady : ∀ reason, answer ≠ .error (.transient reason)) :
    Comes policy (call c) w answer v := by
  have hloop := policy.run_loop_of_steady (c := c) (w := w) (by rw [h]; exact hsteady)
    (policy.maxAttempts.toNat - 1) 1
  show w.run (Program.bind _ _) = _
  rw [World.run_bind, RetryPolicy.run, hloop, h]
  rfl

/-! ### Calls -/

variable {σ : Type} [Store σ] {w : World (Flaky σ)} {c : StoreCall}

theorem comes_call_of_none [FaultFree σ] (policy : RetryPolicy)
    {answer : Except StoreError c.Answer} {contents : Contents}
    (h : w.store.failures w.store.calls = none)
    (hperforms : Performs FaultFree.contents c w.store.below answer contents) :
    ∃ below, FaultFree.contents below = contents ∧
      Comes policy (call c) w answer (w.after below 1) := by
  obtain ⟨rfl, rfl⟩ := hperforms
  exact ⟨_, rfl, comes_call (World.answer_of_none h) fun reason =>
    FaultFree.steady c w.store.below reason⟩

theorem comes_call_of_some (policy : RetryPolicy) (c : StoreCall) {failure : StoreError}
    (h : w.store.failures w.store.calls = some failure)
    (hlasting : ∀ reason, failure ≠ .transient reason) :
    Comes policy (call c) w (.error failure) (w.after w.store.below 1) := by
  refine comes_call (World.answer_of_some h) fun reason heq => ?_
  exact hlasting reason (Except.error.inj heq)

end Action

end SelfWiring
