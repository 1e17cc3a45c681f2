import SelfWiring.Proofs.Hops

/-!
# What draws nothing

Only the exploration of a behaviour draws from the random generator. No cell does, accepting a
submission does not, and neither does a payload whose behaviour has been connected already.
-/

namespace SelfWiring

variable (σ : Type) [Store σ] [FaultFree σ]

/-- A program that leaves the generator as it was, where it runs alone in a world with the network
given. -/
def Program.Drawless {α : Type} (p : Program α) (n : Net) : Prop :=
  ∀ w : World σ, w.net = n → (w.run p).2.generator = w.generator

def Action.Drawless {ε α : Type} (a : Action ε α) (n : Net) : Prop :=
  Program.Drawless σ a.run n

variable {σ}

/-! ## Rules -/

namespace Program

variable {α β : Type} {p : Program α} {n : Net}

theorem drawless_pure (a : α) (n : Net) : Drawless σ (pure a) n := fun _ _ => rfl

theorem drawless_effect {e : Effect} (he : ∀ limit candidates, e ≠ .draw limit candidates)
    (n : Net) : Drawless σ (effect e) n := by
  intro w _
  cases e
  case draw limit candidates => exact absurd rfl (he limit candidates)
  all_goals rfl

theorem Drawless.bind {f : α → Program β} {Q : α → Net → Prop} (h : Drawless σ p n)
    (hp : Ensures σ p n Q) (hf : ∀ a m, Q a m → Drawless σ (f a) m) :
    Drawless σ (p >>= f) n := by
  intro w hw
  show (w.run (p.bind f)).2.generator = w.generator
  rw [World.run_bind, hf _ _ (hp w hw) _ rfl]
  exact h w hw

theorem Drawless.andThen {f : α → Program β} (h : Drawless σ p n)
    (hf : ∀ a m, Drawless σ (f a) m) : Drawless σ (p >>= f) n :=
  h.bind (Q := fun _ _ => True) (fun _ _ => trivial) fun a m _ => hf a m

end Program

namespace Action

variable {ε ε' α β : Type} {a : Action ε α} {n : Net}

theorem drawless_pure (x : α) (n : Net) : Drawless σ (pure x : Action ε α) n :=
  Program.drawless_pure (Except.ok x) n

theorem drawless_throw (e : ε) (n : Net) : Drawless σ (throw e : Action ε α) n :=
  Program.drawless_pure (Except.error e) n

theorem drawless_ofExcept (x : Except ε α) (n : Net) : Drawless σ (liftM x : Action ε α) n :=
  Program.drawless_pure x n

theorem Drawless.bind {f : α → Action ε β} {Q : Except ε α → Net → Prop} (h : Drawless σ a n)
    (ha : Ensures σ a n Q) (hf : ∀ x m, Q (.ok x) m → Drawless σ (f x) m) :
    Drawless σ (a >>= f) n := by
  show Program.Drawless σ (a.run >>= fun r => ExceptT.bindCont f r) n
  refine Program.Drawless.bind h ha ?_
  intro r m hr
  cases r with
  | ok x => exact hf x m hr
  | error e => exact Program.drawless_pure (Except.error e) m

theorem Drawless.andThen {f : α → Action ε β} (h : Drawless σ a n)
    (hf : ∀ x m, Drawless σ (f x) m) : Drawless σ (a >>= f) n :=
  h.bind (Q := fun _ _ => True) (fun _ _ => trivial) fun x m _ => hf x m

theorem drawless_lift {p : Program α} (h : Program.Drawless σ p n) :
    Drawless σ (ExceptT.lift p : Action ε α) n :=
  Program.Drawless.andThen h fun x m => Program.drawless_pure (Except.ok x) m

theorem Drawless.adapt (h : Drawless σ a n) (g : ε → ε') :
    Drawless σ (ExceptT.adapt g a : Action ε' α) n :=
  Program.Drawless.andThen h fun _ m => Program.drawless_pure _ m

theorem drawless_call (c : StoreCall) (n : Net) : Drawless σ (call c) n :=
  Program.drawless_effect (by simp) n

theorem Drawless.orAbsent {a : Action StoreError α} (h : Drawless σ a n) :
    Drawless σ (orAbsent a) n := by
  refine (drawless_lift h).andThen ?_
  intro r m
  cases r with
  | ok x => exact drawless_pure (some x) m
  | error e =>
    dsimp only
    split
    · exact drawless_pure none m
    · exact drawless_throw e m

theorem Drawless.withRetries (h : Drawless σ a n) (policy : RetryPolicy) :
    Drawless σ (a.withRetries policy) n := by
  intro w hw
  show (w.run (Program.withRetries policy a.run)).2.generator = w.generator
  rw [World.run_withRetries]
  exact h w hw

theorem drawless_mint (n : Net) : Drawless σ (ExceptT.lift Program.mint : Action ε String) n :=
  drawless_lift (Program.drawless_effect (by simp) n)

theorem drawless_publish (e : Event) (n : Net) :
    Drawless σ (ExceptT.lift (Program.publish e) : Action ε Unit) n :=
  drawless_lift (Program.drawless_effect (by simp) n)

theorem drawless_push (queue item : String) (n : Net) : Drawless σ (Queue.push queue item) n :=
  (drawless_call _ n).andThen fun _ m => drawless_lift (Program.drawless_effect (by simp) m)

end Action

open SelfWiring.Action

/-! ## The learned graph -/

namespace Graph

variable (n : Net)

theorem connections_drawless (producer : String) : Drawless σ (connections producer) n :=
  (drawless_call _ n).orAbsent

theorem completeTree_drawless (tree : String) : Drawless σ (completeTree tree) n :=
  (drawless_call _ n).andThen fun _ m => drawless_pure _ m

theorem isComplete_drawless (tree : String) : Drawless σ (isComplete tree) n :=
  (drawless_call _ n).orAbsent.andThen fun _ m => drawless_pure _ m

theorem track_drawless (p : Payload) : Drawless σ (track p) n := by
  unfold track
  split
  · exact drawless_pure () n
  · refine (drawless_lift (Program.drawless_effect (by simp) n)).andThen ?_
    exact fun now m => drawless_call _ m

theorem informationIdFor_drawless (text : String) : Drawless σ (informationIdFor text) n := by
  refine (drawless_call _ n).orAbsent.andThen fun found m => ?_
  cases found with
  | some id => exact drawless_pure id m
  | none =>
    refine (drawless_mint m).andThen fun id m => ?_
    refine (drawless_call _ m).andThen fun _ m => ?_
    refine (drawless_call _ m).andThen fun _ m => ?_
    exact drawless_pure id m

theorem entryBehaviour_drawless (information cell : String) :
    Drawless σ (entryBehaviour information cell) n := by
  refine (drawless_call _ n).orAbsent.andThen fun found m => ?_
  cases found with
  | some id => exact drawless_pure id m
  | none =>
    refine (drawless_mint m).andThen fun id m => ?_
    refine (drawless_call _ m).andThen fun _ m => ?_
    refine (drawless_call _ m).andThen fun _ m => ?_
    exact drawless_pure id m

end Graph

/-! ## Cells -/

namespace Cell

variable (ctx : Context) (args : List Value) (n : Net)

theorem pure_drawless (name : String) (signature : Signature) (metadata : List (String × String))
    (f : List Value → Except Objection (List Value)) :
    Drawless σ ((Cell.pure name signature metadata f).call ctx args) n := by
  unfold Cell.pure
  dsimp only
  cases f args with
  | ok results => exact drawless_pure results n
  | error objection => exact drawless_throw _ n

theorem input_drawless : Drawless σ (input.call ctx args) n := by
  refine (drawless_ofExcept _ n).andThen fun text m => ?_
  refine ((Graph.informationIdFor_drawless m text).adapt _).andThen fun _ m => ?_
  exact drawless_pure args m

theorem splitFeatures_drawless (default : String) :
    Drawless σ ((splitFeatures default).call ctx args) n := by
  refine (drawless_ofExcept _ n).andThen fun text m => ?_
  refine Drawless.andThen (Drawless.adapt ?_ _) fun separator m => ?_
  · refine (drawless_call _ m).orAbsent.andThen fun found m => ?_
    cases found <;> exact drawless_pure _ m
  · split
    · exact drawless_pure _ m
    · exact drawless_throw _ m

theorem deliver_drawless (output : String) : Drawless σ (deliver ctx output) n := by
  unfold deliver
  split
  · exact drawless_throw _ n
  · refine Drawless.andThen (Drawless.adapt ?_ _) fun claimed m => ?_
    · unfold claimAnswer
      split
      · exact drawless_pure true n
      · exact Graph.completeTree_drawless n _
    · split
      · exact ((drawless_call _ m).adapt _).andThen fun _ m => drawless_publish _ m
      · exact drawless_pure _ m

theorem queueRestart_drawless (tree : String) : Drawless σ (queueRestart ctx tree) n := by
  unfold queueRestart
  split
  · exact drawless_throw _ n
  · refine ((drawless_call _ n).adapt _).andThen fun text m => ?_
    refine ((drawless_call _ m).adapt _).andThen fun first m => ?_
    refine ((drawless_call _ m).adapt _).andThen fun cell m => ?_
    refine (drawless_mint m).andThen fun id m => ?_
    exact (drawless_push _ _ m).adapt _

theorem retraverse_drawless (limit : UInt32) (tree : String) :
    Drawless σ (retraverse limit ctx tree) n := by
  refine ((drawless_call _ n).adapt _).andThen fun misses m => ?_
  split
  · exact drawless_pure none m
  · refine ((drawless_call _ m).adapt _).andThen fun attempt m => ?_
    split
    · exact drawless_throw _ m
    · exact (queueRestart_drawless ctx m tree).andThen fun _ m => drawless_pure _ m

theorem conclude_drawless (limit : UInt32) (output : String) :
    Drawless σ (conclude limit ctx output) n := by
  unfold conclude
  split
  · exact (deliver_drawless ctx n output).andThen fun _ m => drawless_pure _ m
  · split
    · exact drawless_throw _ n
    · refine (retraverse_drawless ctx n limit _).andThen fun attempt m => ?_
      cases attempt with
      | some attempt => exact drawless_throw _ m
      | none => exact drawless_pure _ m

theorem output_drawless (limit : UInt32) : Drawless σ ((output limit).call ctx args) n := by
  cases args with
  | nil => exact drawless_throw _ n
  | cons v vs =>
    refine Drawless.andThen (Drawless.adapt ?_ _) fun answered m => ?_
    · unfold isAnswered
      split
      · exact drawless_pure false n
      · exact Graph.isComplete_drawless n _
    · split
      · exact drawless_pure _ m
      · exact conclude_drawless ctx m limit _

theorem standard_drawless {config : Config} {c : Cell} (hc : c ∈ standard config) :
    Drawless σ (c.call ctx args) n := by
  simp only [standard, arithmetic, List.cons_append, List.nil_append, List.mem_cons,
    List.not_mem_nil, or_false] at hc
  rcases hc with rfl | rfl | rfl | rfl | rfl | rfl | rfl | rfl | rfl
  · exact input_drawless ctx args n
  · exact splitFeatures_drawless ctx args n config.separator
  · exact pure_drawless ctx args n _ _ _ _
  · exact pure_drawless ctx args n _ _ _ _
  · exact pure_drawless ctx args n _ _ _ _
  · exact pure_drawless ctx args n _ _ _ _
  · exact pure_drawless ctx args n _ _ _ _
  · exact pure_drawless ctx args n _ _ _ _
  · exact output_drawless ctx args n config.maxRetraversals

end Cell

/-! ## Accepting and processing -/

namespace Engine

variable {e : Engine} {n : Net} {p : Payload} {cell : Cell}

theorem accept_drawless (s : Submission) (n : Net) : Drawless σ (accept s) n := by
  refine (drawless_mint n).andThen fun tree m => ?_
  refine ((Graph.informationIdFor_drawless m s.input).adapt _).andThen fun information m => ?_
  refine ((Graph.entryBehaviour_drawless m information _).adapt _).andThen fun behaviour m => ?_
  refine ((drawless_call _ m).adapt _).andThen fun _ m => ?_
  refine (drawless_mint m).andThen fun id m => ?_
  refine ((drawless_push _ _ m).adapt _).andThen fun _ m => ?_
  exact (drawless_publish _ m).andThen fun _ m => drawless_pure tree m

theorem queueAll_drawless (p : Payload) (producer : String) (behaviours : List String) :
    ∀ n : Net, Drawless σ (queueAll p producer behaviours) n := by
  induction behaviours with
  | nil => exact drawless_pure ()
  | cons b behaviours ih =>
    intro n
    refine (drawless_call _ n).andThen fun cell m => ?_
    refine (drawless_mint m).andThen fun id m => ?_
    exact (drawless_push _ _ m).andThen fun _ m => ih m

/-- Connections that are stored need no draw. -/
theorem successors_drawless (r : Registry) (limit : UInt64) {producer : String}
    (h : (n.next producer).isSome = true) (args : List Value) :
    Drawless σ (successors r limit producer args) n := by
  obtain ⟨behaviours, hnext⟩ := Option.isSome_iff_exists.mp h
  refine (Graph.connections_drawless n producer).bind (Graph.connections_of_some hnext) ?_
  rintro found m ⟨hfound, _⟩
  rw [Except.ok.inj hfound]
  exact drawless_pure behaviours m

theorem forward_drawless (r : Registry) (limit : UInt64) {producer : String}
    (hproducer : p.context.behaviour = some producer) (h : (n.next producer).isSome = true) :
    Drawless σ (forward r limit p) n := by
  unfold forward
  rw [hproducer]
  refine ((successors_drawless r limit h p.args).adapt _).andThen fun behaviours m => ?_
  refine ((queueAll_drawless p producer behaviours m).adapt _).andThen fun _ m => ?_
  exact drawless_pure _ m

/-- Results are passed on without a draw if the cell is terminal or the connections are stored. -/
theorem passOn_drawless (results : Payload) {producer : String}
    (hproducer : results.context.behaviour = some producer)
    (h : cell.terminal = false → (n.next producer).isSome = true) (behaviour : String) :
    Drawless σ (e.passOn cell behaviour results) n := by
  unfold passOn
  split
  · exact drawless_pure _ n
  · rename_i hterminal
    refine (forward_drawless _ _ hproducer (h (by simpa using hterminal))).andThen fun k m => ?_
    dsimp only
    split
    · exact (drawless_publish _ m).andThen fun _ m => drawless_pure _ m
    · exact drawless_pure _ m

theorem calculate_drawless (hcall : ∀ n, Drawless σ (cell.call p.context p.args) n) (n : Net) :
    Drawless σ (cell.calculate p) n := by
  refine ((hcall n).adapt _).andThen fun results m => ?_
  split
  · exact drawless_pure _ m
  · exact drawless_throw _ m

theorem process_drawless {R : Except EngineError Payload → Net → Prop}
    (hcell : e.cellFor p = .ok cell) (hcall : ∀ n, Drawless σ (cell.call p.context p.args) n)
    (haccepted : cell.signature.accepts p.args = true)
    (hcalculate : Ensures σ (cell.calculate p) n R)
    (hpassed : ∀ results m, R (.ok results) m →
      Drawless σ (e.passOn cell p.destination results) m) : Drawless σ (e.process p) n := by
  refine (drawless_ofExcept _ n).bind (reaches_ofExcept hcell n) ?_
  rintro _ _ ⟨hfound, rfl⟩
  obtain rfl := Except.ok.inj hfound
  refine (drawless_ofExcept _ _).bind (reaches_ofExcept (activate_of_accepts haccepted) _)
    ?_
  rintro _ _ ⟨hfits, rfl⟩
  obtain rfl := Except.ok.inj hfits
  refine (calculate_drawless hcall _).bind hcalculate fun results m hresults => ?_
  refine (hpassed results m hresults).andThen fun outcome m => ?_
  refine (drawless_lift (Graph.track_drawless m results)).andThen fun _ m => ?_
  exact drawless_pure outcome m

theorem handle_drawless (h : Drawless σ (e.process p) n) :
    Program.Drawless σ (e.handle p) n := by
  refine Program.Drawless.andThen (h.withRetries e.config.retryPolicy) fun r m => ?_
  cases r with
  | ok outcome => exact Program.drawless_pure () m
  | error failure =>
    show Program.Drawless σ (announce p failure) m
    unfold announce
    split <;> exact Program.drawless_effect (by simp) m

end Engine

end SelfWiring
