import SelfWiring.Proofs.Net
import SelfWiring.Proofs.Views

/-!
# What programs do to a network

`Program.Ensures p n Q` says that `p`, run alone in a world with the network `n`, ends with a result
and a network that satisfy `Q`; `Program.Reaches` names the one result and the one network that `p`
ends with. For actions there are the same two notions, with good and bad results. Programs are put
together from effects, so what a program does follows from what its parts do.
-/

namespace SelfWiring

variable (σ : Type) [Store σ] [FaultFree σ]

def Program.Ensures {α : Type} (p : Program α) (n : Net) (Q : α → Net → Prop) : Prop :=
  ∀ w : World σ, w.net = n → Q (w.run p).1 (w.run p).2.net

def Program.Reaches {α : Type} (p : Program α) (n : Net) (a : α) (m : Net) : Prop :=
  Program.Ensures σ p n fun a' m' => a' = a ∧ m' = m

def Action.Ensures {ε α : Type} (a : Action ε α) (n : Net) (Q : Except ε α → Net → Prop) : Prop :=
  Program.Ensures σ a.run n Q

def Action.Reaches {ε α : Type} (a : Action ε α) (n : Net) (r : Except ε α) (m : Net) : Prop :=
  Program.Reaches σ a.run n r m

variable {σ}

/-! ## Rules -/

namespace Program

variable {α β : Type} {p : Program α} {n m : Net}

theorem Ensures.imp {Q R : α → Net → Prop} (h : Ensures σ p n Q) (hQR : ∀ a m, Q a m → R a m) :
    Ensures σ p n R := Brings.imp h hQR

theorem Reaches.ensures {a : α} {R : α → Net → Prop} (h : Reaches σ p n a m) (hR : R a m) :
    Ensures σ p n R :=
  h.imp fun _ _ ⟨ha, hm⟩ => ha ▸ hm ▸ hR

theorem reaches_pure (a : α) (n : Net) : Reaches σ (pure a) n a n := fun _ hw => ⟨rfl, hw⟩

theorem Ensures.bind {f : α → Program β} {Q : α → Net → Prop} {R : β → Net → Prop}
    (h : Ensures σ p n Q) (hf : ∀ a m, Q a m → Ensures σ (f a) m R) : Ensures σ (p >>= f) n R :=
  Brings.bind h hf

theorem Reaches.bind {f : α → Program β} {a : α} {R : β → Net → Prop} (h : Reaches σ p n a m)
    (hf : Ensures σ (f a) m R) : Ensures σ (p >>= f) n R := by
  refine Ensures.bind h ?_
  rintro _ _ ⟨rfl, rfl⟩
  exact hf

end Program

namespace Action

variable {ε ε' α β : Type} {a : Action ε α} {n m : Net}

theorem Ensures.imp {Q R : Except ε α → Net → Prop} (h : Ensures σ a n Q)
    (hQR : ∀ r m, Q r m → R r m) : Ensures σ a n R := Program.Ensures.imp h hQR

theorem Reaches.ensures {r : Except ε α} {R : Except ε α → Net → Prop} (h : Reaches σ a n r m)
    (hR : R r m) : Ensures σ a n R := Program.Reaches.ensures h hR

theorem reaches_pure (x : α) (n : Net) : Reaches σ (pure x : Action ε α) n (.ok x) n :=
  Program.reaches_pure (Except.ok x) n

theorem reaches_throw (e : ε) (n : Net) : Reaches σ (throw e : Action ε α) n (.error e) n :=
  Program.reaches_pure (Except.error e) n

/-- The rest of an action runs after a good result only. -/
theorem Ensures.bind {f : α → Action ε β} {Q : Except ε α → Net → Prop}
    {R : Except ε β → Net → Prop} (h : Ensures σ a n Q)
    (hok : ∀ x m, Q (.ok x) m → Ensures σ (f x) m R)
    (herror : ∀ e m, Q (.error e) m → R (.error e) m) : Ensures σ (a >>= f) n R :=
  Brings.bind h hok herror

theorem Reaches.bind {f : α → Action ε β} {x : α} {R : Except ε β → Net → Prop}
    (h : Reaches σ a n (.ok x) m) (hf : Ensures σ (f x) m R) : Ensures σ (a >>= f) n R := by
  refine Ensures.bind h ?_ ?_
  · rintro _ _ ⟨hx, rfl⟩
    rw [Except.ok.inj hx]
    exact hf
  · rintro _ _ ⟨he, _⟩
    exact absurd he (by simp)

theorem Reaches.andThen {f : α → Action ε β} {x : α} {r : Except ε β} {k : Net}
    (h : Reaches σ a n (.ok x) m) (hf : Reaches σ (f x) m r k) : Reaches σ (a >>= f) n r k :=
  h.bind hf

theorem Reaches.bind_error {f : α → Action ε β} {e : ε} (h : Reaches σ a n (.error e) m) :
    Reaches σ (a >>= f) n (.error e) m := by
  refine Ensures.bind h ?_ ?_
  · rintro _ _ ⟨hx, _⟩
    exact absurd hx (by simp)
  · rintro _ _ ⟨he, rfl⟩
    exact ⟨congrArg _ (Except.error.inj he), rfl⟩

/-- A program inside an action never fails. -/
theorem ensures_lift {p : Program α} {Q : α → Net → Prop} (h : Program.Ensures σ p n Q) :
    Ensures σ (ExceptT.lift p : Action ε α) n fun r m => ∃ x, r = .ok x ∧ Q x m := by
  show Brings World.net (ExceptT.lift p) n fun r m => ∃ x, r = Except.ok x ∧ Q x m
  exact brings_lift (Program.Brings.imp h fun x _ hx => ⟨x, rfl, hx⟩)

theorem reaches_lift {p : Program α} {x : α} (h : Program.Reaches σ p n x m) :
    Reaches σ (ExceptT.lift p : Action ε α) n (.ok x) m :=
  (ensures_lift h).imp fun _ _ ⟨_, hr, hx, hm⟩ => ⟨hx ▸ hr, hm⟩

/-- A result inside an action is the result of the action. -/
theorem reaches_ofExcept {x r : Except ε α} (h : x = r) (n : Net) :
    Reaches σ (liftM x : Action ε α) n r n := h ▸ Program.reaches_pure x n

theorem ensures_adapt {g : ε → ε'} {Q : Except ε α → Net → Prop} (h : Ensures σ a n Q) :
    Ensures σ (ExceptT.adapt g a : Action ε' α) n fun r m => ∃ r', r = r'.mapError g ∧ Q r' m := by
  show Brings World.net (ExceptT.adapt g a) n fun r m => ∃ r', r = r'.mapError g ∧ Q r' m
  exact brings_adapt (Brings.imp h fun r _ hr => ⟨r, rfl, hr⟩)

theorem reaches_adapt {g : ε → ε'} {r : Except ε α} (h : Reaches σ a n r m) :
    Reaches σ (ExceptT.adapt g a : Action ε' α) n (r.mapError g) m :=
  (ensures_adapt h).imp fun _ _ ⟨_, hr, hr', hm⟩ => ⟨hr' ▸ hr, hm⟩

theorem reaches_observe {r : Except ε α} (h : Reaches σ a n r m) :
    Reaches σ (observe a : Action ε' (Except ε α)) n (.ok r) m := reaches_lift h

theorem reaches_orAbsent_ok {a : Action StoreError α} {x : α} (h : Reaches σ a n (.ok x) m) :
    Reaches σ (orAbsent a) n (.ok (some x)) m :=
  (reaches_observe h).andThen (reaches_pure (some x) m)

theorem reaches_orAbsent_notFound {a : Action StoreError α} {key : String}
    (h : Reaches σ a n (.error (.notFound key)) m) : Reaches σ (orAbsent a) n (.ok none) m :=
  (reaches_observe h).andThen (reaches_pure none m)

theorem ensures_withRetries {Q : Except ε α → Net → Prop} (policy : RetryPolicy)
    (h : Ensures σ a n Q) : Ensures σ (a.withRetries policy) n Q := by
  intro w hw
  show Q (w.run (Program.withRetries policy a.run)).1
    (w.run (Program.withRetries policy a.run)).2.net
  rw [World.run_withRetries]
  exact h w hw

end Action

/-! ## Effects -/

namespace Program

variable {n : Net}

theorem reaches_mint (n : Net) : Reaches σ mint n n.fresh n.mint := by
  rintro w rfl
  exact ⟨rfl, rfl⟩

theorem reaches_publish (e : Event) (n : Net) : Reaches σ (publish e) n () (n.announce e) := by
  rintro w rfl
  exact ⟨rfl, rfl⟩

theorem reaches_signal (queue : String) (n : Net) : Reaches σ (signal queue) n () n := by
  rintro w rfl
  exact ⟨rfl, rfl⟩

theorem ensures_clock (n : Net) : Ensures σ clock n fun _ m => m = n := by
  rintro w rfl
  rfl

end Program

namespace Action

/-- A call is known by its answer and by what is held after it. -/
theorem reaches_call {c : StoreCall} {n m : Net} {answer : Except StoreError c.Answer}
    (h : ∀ w : World σ, w.net = n → ∃ after,
      Performs FaultFree.contents c w.store answer after ∧
        Net.ofContents after w.minted w.events = m) :
    Reaches σ (call c) n answer m := by
  intro w hw
  obtain ⟨after, ⟨hanswer, hafter⟩, hm⟩ := h w hw
  refine ⟨hanswer, ?_⟩
  rw [← hm, ← hafter]
  rfl

theorem reaches_get (k : Key) (hk : k.Regular) (n : Net) :
    Reaches σ (call (.get k.render)) n (answerFor k.render (n.text k)) n := by
  apply reaches_call
  rintro w rfl
  refine ⟨_, ?_, rfl⟩
  rw [World.net_text w k hk]
  exact FaultFree.get k.render w.store

theorem reaches_get_some (k : Key) (hk : k.Regular) {n : Net} {value : String}
    (h : n.text k = some value) : Reaches σ (call (.get k.render)) n (.ok value) n := by
  have hget := reaches_get (σ := σ) k hk n
  rw [h] at hget
  exact hget

theorem reaches_get_none (k : Key) (hk : k.Regular) {n : Net} (h : n.text k = none) :
    Reaches σ (call (.get k.render)) n (.error (.notFound k.render)) n := by
  have hget := reaches_get (σ := σ) k hk n
  rw [h] at hget
  exact hget

theorem reaches_set (k : Key) (hk : k.Regular) (value : String) (n : Net) :
    Reaches σ (call (.set k.render value)) n (.ok ()) (n.write k value) := by
  apply reaches_call
  rintro w rfl
  exact ⟨_, FaultFree.set k.render value w.store, Net.ofContents_putText hk value⟩

theorem reaches_incr (k : Key) (hk : k.Regular) (n : Net) :
    Reaches σ (call (.incr k.render)) n (.ok (nextCount (n.text k)))
      (n.write k (countText (nextCount (n.text k)))) := by
  apply reaches_call
  rintro w rfl
  refine ⟨_, ?_, Net.ofContents_putText hk _⟩
  rw [World.net_text w k hk]
  exact FaultFree.incr k.render w.store

theorem reaches_push_outputs (session output : String) (n : Net) :
    Reaches σ (call (.push (Key.outputs session).render output)) n (.ok ())
      (n.deliver session output) := by
  apply reaches_call
  rintro w rfl
  exact ⟨_, FaultFree.push _ output w.store, Net.ofContents_deliver session output⟩

theorem reaches_push_payload (p : Payload) (n : Net) :
    Reaches σ (Queue.push Key.eventQueue.render p.encode) n (.ok ()) (n.enqueue p) := by
  have hpush : Reaches σ (call (.push Key.eventQueue.render p.encode)) n (.ok ())
    (n.enqueue p) := by
    apply reaches_call
    rintro w rfl
    exact ⟨_, FaultFree.push _ p.encode w.store, Net.ofContents_enqueue p⟩
  exact hpush.andThen (reaches_lift (Program.reaches_signal _ _))

theorem reaches_setInit {producer : String} {n : Net} (h : n.next producer = none)
    (successors : List String) :
    Reaches σ (call (.setInit (Key.connections producer).render successors)) n (.ok true)
      (n.wire producer (addMembers [] successors)) := by
  apply reaches_call
  rintro w rfl
  exact ⟨_, FaultFree.setInit_none _ successors w.store h, Net.ofContents_putSet producer _⟩

theorem reaches_setMembers (producer : String) (n : Net) :
    Reaches σ (call (.setMembers (Key.connections producer).render)) n
      (answerFor (Key.connections producer).render (n.next producer)) n := by
  apply reaches_call
  rintro w rfl
  exact ⟨_, FaultFree.setMembers _ w.store, rfl⟩

theorem ensures_zadd (key member : String) (score : Score) (n : Net) :
    Ensures σ (call (.zadd key member score)) n fun _ m => m = n := by
  rintro w rfl
  exact congrArg (fun s => Net.ofContents s w.minted w.events)
    (FaultFree.zadd key member score w.store)

end Action

end SelfWiring
