import SelfWiring.Proofs.References
import SelfWiring.Proofs.Routine

/-!
# What programs may come to

A scene is what the calls of a program work on, together with the events announced so far. A program
yields a result and a scene if it may end so where any of its calls can fail. What a run on a flaky
store comes to is yielded, and what is yielded with retries is yielded without them, so that a proof
can take a program apart, effect by effect, and look at what each effect may have come to.
-/

namespace SelfWiring

structure Scene extends Holding where
  events : List Event

namespace Scene

def outputs (s : Scene) (session : String) : List String :=
  s.contents.list (Key.outputs session).render

def write (s : Scene) (k : Key) (value : String) : Scene :=
  { s with toHolding := s.toHolding.write k value }

/-- The scene with an item more at the end of a list. -/
def append (s : Scene) (list item : String) : Scene :=
  { s with contents := s.contents.putList list (s.contents.list list ++ [item]) }

def announce (s : Scene) (e : Event) : Scene := { s with events := s.events ++ [e] }

theorem write_text {k : Key} (hk : k.Kept) (s : Scene) (value : String) (k' : Key) :
    (s.write k value).text k' = if k' = k then some value else s.text k' := by
  show (s.toHolding.write k value).text k' = _
  rw [Holding.write_text hk, Function.update_apply]

theorem append_list (s : Scene) (list item l : String) : (s.append list item).contents.list l =
    if l = list then s.contents.list list ++ [item] else s.contents.list l :=
  Function.update_apply s.contents.list list _ l

end Scene

/-- The events that an effect announces. -/
def Effect.announced : Effect → List Event
  | .publish e => [e]
  | _ => []

/-- What an effect comes to in a scene. -/
structure Effect.Passes (e : Effect) (s : Scene) (answer : e.Answer) (t : Scene) : Prop where
  comesTo : e.ComesTo s.toHolding answer t.toHolding
  events : t.events = s.events ++ e.announced

/-- An effect that holds everything in place and announces nothing. -/
theorem Effect.Passes.eq {e : Effect} {s t : Scene} {answer : e.Answer} (h : e.Passes s answer t)
    (hheld : t.toHolding = s.toHolding) (he : e.announced = []) : t = s := by
  obtain ⟨held, events⟩ := t
  obtain rfl : held = s.toHolding := hheld
  obtain rfl : events = s.events := h.events.trans (by rw [he, List.append_nil])
  rfl

/-- A call fails without effect, or does what it does. -/
theorem Effect.Passes.of_store {c : StoreCall} {s t : Scene} {r : Except StoreError c.Answer}
    (h : Effect.Passes (.store c) s r t) (hc : c.Settled) :
    (∃ failure, r = .error failure ∧ t = s) ∨
      ∃ x after, r = .ok x ∧ c.Does s.contents x after ∧ t = { s with contents := after } := by
  obtain ⟨after, hcomes, hheld⟩ := h.comesTo
  have ht : t = { s with contents := after } := by
    obtain ⟨held, events⟩ := t
    obtain rfl : held = { s.toHolding with contents := after } := hheld
    exact congrArg (Scene.mk _) (h.events.trans (List.append_nil _))
  cases r with
  | error failure =>
    refine Or.inl ⟨failure, rfl, ht.trans ?_⟩
    rw [show after = s.contents from hcomes hc]
  | ok x => exact Or.inr ⟨x, after, rfl, hcomes, ht⟩

/-! ## Programs -/

namespace Program

variable {α β : Type}

/-- A program may end with a result in a scene. -/
inductive Yields : Program α → Scene → α → Scene → Prop
  | done (a : α) (s : Scene) : Yields (.done a) s a s
  | perform {e : Effect} {next : e.Answer → Program α} {s t u : Scene} {answer : e.Answer} {a : α}
      (first : e.Passes s answer t) (rest : Yields (next answer) t a u) :
      Yields (.perform e next) s a u

theorem Yields.of_bind {p : Program α} {f : α → Program β} {s u : Scene} {b : β}
    (h : Yields (p.bind f) s b u) : ∃ a t, p.Yields s a t ∧ (f a).Yields t b u := by
  induction p generalizing s with
  | done a => exact ⟨a, s, .done a s, h⟩
  | perform e next ih =>
    cases h with
    | perform first rest =>
      obtain ⟨a, t, hp, hf⟩ := ih _ rest
      exact ⟨a, t, .perform first hp, hf⟩

theorem Yields.of_effect {e : Effect} {s t : Scene} {answer : e.Answer}
    (h : (effect e).Yields s answer t) : e.Passes s answer t := by
  cases h with
  | perform first rest =>
    cases rest
    exact first

/-- A call that has failed is as good as new. -/
theorem Yields.again {c : StoreCall} {k : Except StoreError c.Answer → Program α} {s t u : Scene}
    {failure : StoreError} {a : α} (hfailed : Effect.Passes (.store c) s (.error failure) t)
    (h : (Program.perform (.store c) k).Yields t a u) :
    (Program.perform (.store c) k).Yields s a u := by
  cases h with
  | perform first rest =>
    refine .perform ⟨hfailed.comesTo.again first.comesTo, ?_⟩ rest
    rw [first.events, hfailed.events]
    exact congrArg (· ++ _) (List.append_nil _)

theorem Yields.of_loop (policy : RetryPolicy) (c : StoreCall)
    {k : Except StoreError c.Answer → Program α} {a : α} {u : Scene} (left : Nat) :
    ∀ (attempt : UInt32) (s : Scene), ((policy.loop (effect (.store c))
      (fun ms => sleep ms.toNat) left attempt).bind k).Yields s a u →
      (Program.perform (.store c) k).Yields s a u := by
  induction left with
  | zero => exact fun _ _ h => h
  | succ left ih =>
    intro attempt s h
    cases h with
    | @perform _ _ _ t _ answer _ first rest =>
      cases answer with
      | ok x => exact .perform first rest
      | error failure =>
        have rest : (Program.bind (if failure.isTransient then _ else _) k).Yields t a u := rest
        split at rest
        · -- the delay changes nothing
          cases rest with
          | perform waited rest =>
            rw [waited.eq waited.comesTo rfl] at rest
            exact Yields.again first (ih _ _ rest)
        · exact .perform first rest

theorem Yields.of_withRetries {policy : RetryPolicy} {p : Program α} {s t : Scene} {a : α}
    (h : (p.withRetries policy).Yields s a t) : p.Yields s a t := by
  induction p generalizing s with
  | done a => exact h
  | perform e next ih =>
    cases e
    case store c =>
      cases Yields.of_loop policy c _ _ _ h with
      | perform first rest => exact .perform first (ih _ rest)
    all_goals
      cases h with
      | perform first rest => exact .perform first (ih _ rest)

/-- Where every effect that a program can perform relates the scene before to the scene after, the
program does. -/
theorem Only.relates {E : Effect → Prop} {R : Scene → Scene → Prop} (hrefl : ∀ s, R s s)
    (htrans : ∀ {s t u}, R s t → R t u → R s u)
    (hstep : ∀ {e : Effect} {s t : Scene} {answer : e.Answer}, E e → e.Passes s answer t → R s t)
    {p : Program α} (h : Only E p) {s t : Scene} {a : α} (hp : p.Yields s a t) : R s t := by
  induction hp with
  | done a s => exact hrefl s
  | perform first _ ih => exact htrans (hstep h.1 first) (ih (h.2 _))

end Program

/-! ## Actions -/

/-- An action may end with a result, good or bad, in a scene. -/
def Action.Yields {ε α : Type} (a : Action ε α) (s : Scene) (r : Except ε α) (t : Scene) : Prop :=
  Program.Yields a.run s r t

namespace Action

variable {ε ε' α β : Type} {a : Action ε α} {s t : Scene} {r : Except ε α}

theorem Yields.of_pure {x : α} (h : Yields (pure x : Action ε α) s r t) : r = .ok x ∧ t = s := by
  cases h
  exact ⟨rfl, rfl⟩

theorem Yields.of_throw {e : ε} (h : Yields (throw e : Action ε α) s r t) :
    r = .error e ∧ t = s := by
  cases h
  exact ⟨rfl, rfl⟩

/-- Either the first action fails and ends it all, or the second one takes over. -/
theorem Yields.of_bind {f : α → Action ε β} {r : Except ε β} (h : Yields (a >>= f) s r t) :
    (∃ e, Yields a s (.error e) t ∧ r = .error e) ∨
      ∃ x m, Yields a s (.ok x) m ∧ Yields (f x) m r t := by
  obtain ⟨result, m, ha, hf⟩ := Program.Yields.of_bind (f := ExceptT.bindCont f) h
  cases result with
  | ok x => exact Or.inr ⟨x, m, ha, hf⟩
  | error e =>
    cases hf
    exact Or.inl ⟨e, ha, rfl⟩

theorem Yields.of_bind_except {x : Except ε α} {f : α → Action ε β} {r : Except ε β}
    (h : Yields (liftM x >>= f) s r t) :
    (∃ e, x = .error e ∧ r = .error e ∧ t = s) ∨ ∃ y, x = .ok y ∧ Yields (f y) s r t := by
  cases x with
  | ok y => exact Or.inr ⟨y, rfl, h⟩
  | error e =>
    cases h
    exact Or.inl ⟨e, rfl, rfl, rfl⟩

theorem Yields.of_lift {p : Program α} (h : Yields (ExceptT.lift p : Action ε α) s r t) :
    ∃ x, p.Yields s x t ∧ r = .ok x := by
  obtain ⟨x, m, hp, hdone⟩ := Program.Yields.of_bind h
  cases hdone
  exact ⟨x, hp, rfl⟩

theorem Yields.of_adapt {g : ε → ε'} {r : Except ε' α}
    (h : Yields (ExceptT.adapt g a : Action ε' α) s r t) :
    ∃ r', Yields a s r' t ∧ r = r'.mapError g := by
  obtain ⟨r', m, ha, hdone⟩ := Program.Yields.of_bind h
  cases hdone
  exact ⟨r', ha, rfl⟩

theorem Yields.of_bind_adapt {g : ε → ε'} {f : α → Action ε' β} {r : Except ε' β}
    (h : Yields (ExceptT.adapt g a >>= f) s r t) :
    (∃ e, Yields a s (.error e) t ∧ r = .error (g e)) ∨
      ∃ x m, Yields a s (.ok x) m ∧ Yields (f x) m r t := by
  rcases h.of_bind with ⟨e, ha, rfl⟩ | ⟨x, m, ha, hf⟩
  all_goals obtain ⟨r', ha, hr⟩ := ha.of_adapt
  · cases r' with
    | ok x => exact nomatch hr
    | error e' => exact Or.inl ⟨e', ha, congrArg _ (Except.error.inj hr)⟩
  · cases r' with
    | ok x' => exact Or.inr ⟨x, m, Except.ok.inj hr ▸ ha, hf⟩
    | error e' => exact nomatch hr

/-! ### Calls -/

theorem Yields.of_call {c : StoreCall} {r : Except StoreError c.Answer}
    (h : Yields (call c) s r t) (hc : c.Settled) : (∃ failure, r = .error failure ∧ t = s) ∨
      ∃ x after, r = .ok x ∧ c.Does s.contents x after ∧ t = { s with contents := after } :=
  (Program.Yields.of_effect h).of_store hc

theorem Yields.of_get {key : String} {r : Except StoreError String}
    (h : Yields (call (.get key)) s r t) : t = s := by
  rcases h.of_call trivial with ⟨_, _, ht⟩ | ⟨_, _, _, ⟨_, rfl⟩, ht⟩
  · exact ht
  · exact ht

/-- A lookup in the course of an action. -/
theorem Yields.of_bind_get {key : String} {g : StoreError → ε} {f : String → Action ε β}
    {r : Except ε β} (h : Yields (ExceptT.adapt g (call (.get key)) >>= f) s r t) :
    (∃ failure, r = .error (g failure) ∧ t = s) ∨ ∃ value, Yields (f value) s r t := by
  rcases h.of_bind_adapt with ⟨failure, hget, rfl⟩ | ⟨value, m, hget, hf⟩
  · exact Or.inl ⟨failure, rfl, Yields.of_get hget⟩
  · exact Or.inr ⟨value, Yields.of_get hget ▸ hf⟩

theorem Yields.of_incr {k : Key} {r : Except StoreError Int64}
    (h : Yields (call (.incr k.render)) s r t) : (∃ failure, r = .error failure ∧ t = s) ∨
      (r = .ok (nextCount (s.text k)) ∧ t = s.write k (countText (nextCount (s.text k)))) := by
  rcases h.of_call trivial with hfailed | ⟨_, _, hr, ⟨rfl, rfl⟩, ht⟩
  · exact Or.inl hfailed
  · exact Or.inr ⟨hr, ht⟩

/-- A count in the course of an action. -/
theorem Yields.of_bind_incr {k : Key} {g : StoreError → ε} {f : Int64 → Action ε β}
    {r : Except ε β} (h : Yields (ExceptT.adapt g (call (.incr k.render)) >>= f) s r t) :
    (∃ failure, r = .error (g failure) ∧ t = s) ∨
      Yields (f (nextCount (s.text k))) (s.write k (countText (nextCount (s.text k)))) r t := by
  rcases h.of_bind_adapt with ⟨failure, hincr, rfl⟩ | ⟨count, m, hincr, hf⟩
  · rcases Yields.of_incr hincr with ⟨_, _, ht⟩ | ⟨hr, _⟩
    · exact Or.inl ⟨failure, rfl, ht⟩
    · exact nomatch hr
  · rcases Yields.of_incr hincr with ⟨_, hr, _⟩ | ⟨hr, rfl⟩
    · exact nomatch hr
    · rw [Except.ok.inj hr] at hf
      exact Or.inr hf

theorem Yields.of_push {list item : String} {r : Except StoreError Unit}
    (h : Yields (call (.push list item)) s r t) :
    (∃ failure, r = .error failure ∧ t = s) ∨ (r = .ok () ∧ t = s.append list item) := by
  rcases h.of_call trivial with hfailed | ⟨_, _, hr, rfl, ht⟩
  · exact Or.inl hfailed
  · exact Or.inr ⟨hr, ht⟩

theorem Yields.of_queue_push {list item : String} {r : Except StoreError Unit}
    (h : Yields (Queue.push list item) s r t) :
    (∃ failure, r = .error failure ∧ t = s) ∨ (r = .ok () ∧ t = s.append list item) := by
  rcases h.of_bind with ⟨failure, hpush, rfl⟩ | ⟨_, m, hpush, hsignal⟩
  · rcases hpush.of_push with ⟨_, _, rfl⟩ | ⟨hr, _⟩
    · exact Or.inl ⟨failure, rfl, rfl⟩
    · exact nomatch hr
  · obtain ⟨_, hp, rfl⟩ := hsignal.of_lift
    rw [hp.of_effect.eq hp.of_effect.comesTo rfl]
    exact hpush.of_push.imp (fun ⟨_, hr, _⟩ => nomatch hr) fun ⟨_, hm⟩ => ⟨rfl, hm⟩

/-! ### Other effects -/

theorem Yields.of_mint {r : Except ε String} (h : Yields (ExceptT.lift Program.mint) s r t) :
    ∃ id, r = .ok id ∧ t = { s with minted := s.minted + 1 } := by
  obtain ⟨id, hmint, rfl⟩ := h.of_lift
  obtain ⟨⟨-, hheld⟩, hevents⟩ := hmint.of_effect
  obtain ⟨held, events⟩ := t
  obtain rfl : held = { s.toHolding with minted := s.minted + 1 } := hheld
  exact ⟨id, rfl, congrArg _ (hevents.trans (List.append_nil _))⟩

theorem Yields.of_publish {e : Event} {r : Except ε Unit}
    (h : Yields (ExceptT.lift (Program.publish e)) s r t) : r = .ok () ∧ t = s.announce e := by
  obtain ⟨_, hpublish, rfl⟩ := h.of_lift
  obtain ⟨hheld, hevents⟩ := hpublish.of_effect
  obtain ⟨held, events⟩ := t
  obtain rfl : held = s.toHolding := hheld
  exact ⟨rfl, congrArg _ hevents⟩

end Action

namespace World

variable {σ : Type} [Store σ] [FaultFree σ]

def scene (w : World (Flaky σ)) : Scene := ⟨w.holding, w.events⟩

theorem answer_passes (e : Effect) (w : World (Flaky σ)) :
    e.Passes w.scene (w.answer e).1 (w.answer e).2.scene := by
  refine ⟨w.answer_comesTo e, ?_⟩
  cases e
  case publish => rfl
  all_goals exact (List.append_nil _).symm

theorem run_yields {α : Type} (p : Program α) :
    ∀ w : World (Flaky σ), p.Yields w.scene (w.run p).1 (w.run p).2.scene := by
  induction p with
  | done a => exact fun w => .done a w.scene
  | perform e next ih => exact fun w => .perform (w.answer_passes e) (ih _ _)

end World

end SelfWiring
