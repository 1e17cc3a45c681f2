import SelfWiring.Cell.Standard
import SelfWiring.Proofs.Processing

/-!
# Which effects programs perform

`Program.Only E p` says that every effect that `p` can perform, whatever it is answered, is one of
`E`. Everything the engine does by itself is routine: it looks things up, makes identifiers, draws
cells, records what it learns, queues payloads, and announces events. Only the output cell does
more, and only the tracing of edges looks at the clock.
-/

namespace SelfWiring

/-- All effects that a program can perform satisfy `E`. -/
def Program.Only {α : Type} (E : Effect → Prop) : Program α → Prop
  | .done _ => True
  | .perform e next => E e ∧ ∀ answer, Only E (next answer)

def Action.Only {ε α : Type} (E : Effect → Prop) (a : Action ε α) : Prop := Program.Only E a.run

/-! ## Rules -/

namespace Program

variable {α β : Type} {E : Effect → Prop} {p : Program α}

theorem only_effect {e : Effect} (h : E e) : Only E (effect e) := ⟨h, fun _ => trivial⟩

theorem Only.imp {E' : Effect → Prop} (h : Only E p) (himp : ∀ e, E e → E' e) : Only E' p := by
  induction p with
  | done a => exact trivial
  | perform e next ih => exact ⟨himp e h.1, fun answer => ih answer (h.2 answer)⟩

theorem Only.bind {f : α → Program β} (h : Only E p) (hf : ∀ a, Only E (f a)) :
    Only E (p.bind f) := by
  induction p with
  | done a => exact hf a
  | perform e next ih => exact ⟨h.1, fun answer => ih answer (h.2 answer)⟩

end Program

namespace Action

variable {ε ε' α β : Type} {E : Effect → Prop} {a : Action ε α}

theorem only_pure (x : α) : Only E (pure x : Action ε α) := trivial

theorem only_throw (e : ε) : Only E (throw e : Action ε α) := trivial

theorem only_ofExcept (r : Except ε α) : Only E (liftM r : Action ε α) := trivial

theorem Only.imp {E' : Effect → Prop} (h : Only E a) (himp : ∀ e, E e → E' e) : Only E' a :=
  Program.Only.imp h himp

theorem Only.bind {f : α → Action ε β} (h : Only E a) (hf : ∀ x, Only E (f x)) :
    Only E (a >>= f) := by
  refine Program.Only.bind h fun r => ?_
  cases r with
  | ok x => exact hf x
  | error e => exact trivial

theorem only_lift {p : Program α} (h : Program.Only E p) :
    Only E (ExceptT.lift p : Action ε α) :=
  Program.Only.bind h fun _ => trivial

theorem Only.adapt (h : Only E a) (g : ε → ε') : Only E (ExceptT.adapt g a : Action ε' α) :=
  Program.Only.bind h fun _ => trivial

theorem only_call {c : StoreCall} (h : E (.store c)) : Only E (call c) := Program.only_effect h

theorem Only.orAbsent {a : Action StoreError α} (h : Only E a) : Only E (orAbsent a) := by
  refine (only_lift h).bind fun r => ?_
  cases r with
  | ok x => exact only_pure (some x)
  | error e =>
    dsimp only
    split
    · exact only_pure none
    · exact only_throw e

end Action

/-! ## Routine effects -/

/-- Keys of what is learned about behaviours, texts and trees. -/
def Key.Learned : Key → Prop
  | .binding _ | .firstBehaviour _ | .information _ | .informationId _ => True
  | .entry i c => (Key.entry i c).Regular
  | _ => False

theorem Key.Learned.regular {k : Key} (hk : k.Learned) : k.Regular := by
  cases k <;> first | exact trivial | exact hk

/-- The effects of an engine whose output cell is at rest. Payloads that are queued satisfy
`Queued`. -/
def Effect.Routine (Queued : Payload → Prop) : Effect → Prop
  | .store (.get _) | .store (.setMembers _) => True
  | .store (.setInit key _) => ∃ b, key = (Key.connections b).render
  | .store (.set key _) => ∃ k : Key, k.Learned ∧ key = k.render
  | .store (.push list item) =>
    list = Key.eventQueue.render ∧ ∃ p : Payload, Queued p ∧ item = p.encode
  | .mint | .draw _ _ | .publish _ | .signal _ => True
  | _ => False

/-- The effects of the output cell. -/
def Effect.Concluding : Effect → Prop
  | .store (.get _) | .store (.push _ _) => True
  | .store (.incr key) => ∃ k : Key, k.Regular ∧ key = k.render
  | .mint | .publish _ | .signal _ => True
  | _ => False

open SelfWiring.Action

variable {Queued : Payload → Prop}

namespace Action

theorem only_get (key : String) : Only (Effect.Routine Queued) (call (.get key)) :=
  only_call trivial

theorem only_set {k : Key} (hk : k.Learned) (value : String) :
    Only (Effect.Routine Queued) (call (.set k.render value)) :=
  only_call ⟨k, hk, rfl⟩

theorem only_mint {ε : Type} :
    Only (Effect.Routine Queued) (ExceptT.lift Program.mint : Action ε String) :=
  only_lift (Program.only_effect trivial)

theorem only_publish {ε : Type} (e : Event) :
    Only (Effect.Routine Queued) (ExceptT.lift (Program.publish e) : Action ε Unit) :=
  only_lift (Program.only_effect trivial)

theorem only_push {p : Payload} (hp : Queued p) :
    Only (Effect.Routine Queued) (Queue.push Key.eventQueue.render p.encode) :=
  (only_call ⟨rfl, p, hp, rfl⟩).bind fun _ => only_lift (Program.only_effect trivial)

end Action

/-! ## The learned graph -/

namespace Graph

theorem connections_only (producer : String) :
    Only (Effect.Routine Queued) (connections producer) :=
  (only_call trivial).orAbsent

theorem bindAll_only (successors : List (String × String)) :
    Only (Effect.Routine Queued) (bindAll successors) := by
  induction successors with
  | nil => exact only_pure ()
  | cons q rest ih => exact (only_set (k := .binding q.1) trivial q.2).bind fun _ => ih

theorem connect_only (producer : String) (successors : List (String × String)) :
    Only (Effect.Routine Queued) (connect producer successors) :=
  (bindAll_only successors).bind fun _ =>
    (only_call ⟨producer, rfl⟩).bind fun _ => only_call trivial

theorem informationIdFor_only (text : String) :
    Only (Effect.Routine Queued) (informationIdFor text) := by
  refine (only_get _).orAbsent.bind fun found => ?_
  cases found with
  | some id => exact only_pure id
  | none =>
    refine only_mint.bind fun id => ?_
    refine (only_set (k := .information id) trivial text).bind fun _ => ?_
    exact (only_set (k := .informationId text) trivial id).bind fun _ => only_pure id

theorem entryBehaviour_only (information : String) {cell : String}
    (hcell : (Key.entry information cell).Regular) :
    Only (Effect.Routine Queued) (entryBehaviour information cell) := by
  refine (only_get _).orAbsent.bind fun found => ?_
  cases found with
  | some id => exact only_pure id
  | none =>
    refine only_mint.bind fun id => ?_
    refine (only_set (k := .binding id) trivial cell).bind fun _ => ?_
    exact (only_set (k := .entry information cell) hcell id).bind fun _ => only_pure id

end Graph

/-! ## Cells -/

namespace Cell

variable (ctx : Context) (args : List Value)

theorem pure_only {E : Effect → Prop} (name : String) (signature : Signature)
    (metadata : List (String × String)) (f : List Value → Except Objection (List Value)) :
    Only E ((Cell.pure name signature metadata f).call ctx args) := by
  unfold Cell.pure
  dsimp only
  cases f args with
  | ok results => exact only_pure results
  | error objection => exact only_throw _

theorem input_only : Only (Effect.Routine Queued) (input.call ctx args) := by
  refine (only_ofExcept _).bind fun text => ?_
  exact ((Graph.informationIdFor_only text).adapt _).bind fun _ => only_pure args

theorem splitFeatures_only (default : String) :
    Only (Effect.Routine Queued) ((splitFeatures default).call ctx args) := by
  refine (only_ofExcept _).bind fun text => ?_
  refine Only.bind (Only.adapt ?_ _) fun separator => ?_
  · refine (only_get _).orAbsent.bind fun found => ?_
    cases found <;> exact only_pure _
  · split
    · exact only_pure _
    · exact only_throw _

theorem standard_only {config : Config} {c : Cell} (hc : c ∈ standard config) :
    c = output config.maxRetraversals ∨ Only (Effect.Routine Queued) (c.call ctx args) := by
  simp only [standard, arithmetic, List.cons_append, List.nil_append, List.mem_cons,
    List.not_mem_nil, or_false] at hc
  rcases hc with rfl | rfl | rfl | rfl | rfl | rfl | rfl | rfl | rfl
  · exact Or.inr (input_only ctx args)
  · exact Or.inr (splitFeatures_only ctx args config.separator)
  · exact Or.inr (pure_only ctx args _ _ _ _)
  · exact Or.inr (pure_only ctx args _ _ _ _)
  · exact Or.inr (pure_only ctx args _ _ _ _)
  · exact Or.inr (pure_only ctx args _ _ _ _)
  · exact Or.inr (pure_only ctx args _ _ _ _)
  · exact Or.inr (pure_only ctx args _ _ _ _)
  · exact Or.inl rfl

/-! ### The output cell -/

theorem deliver_only (ctx : Context) (output : String) :
    Only Effect.Concluding (deliver ctx output) := by
  unfold deliver
  split
  · exact only_throw _
  · refine Only.bind (Only.adapt ?_ _) fun claimed => ?_
    · unfold claimAnswer
      split
      · exact only_pure true
      · exact (only_call ⟨.done _, trivial, rfl⟩).bind fun _ => only_pure _
    · split
      · exact ((only_call trivial).adapt _).bind fun _ => only_lift (Program.only_effect trivial)
      · exact only_pure _

theorem queueRestart_only (ctx : Context) (tree : String) :
    Only Effect.Concluding (queueRestart ctx tree) := by
  unfold queueRestart
  split
  · exact only_throw _
  · refine ((only_call trivial).adapt _).bind fun text => ?_
    refine ((only_call trivial).adapt _).bind fun first => ?_
    refine ((only_call trivial).adapt _).bind fun cell => ?_
    refine (only_lift (Program.only_effect trivial)).bind fun id => ?_
    refine Only.adapt ?_ _
    exact (only_call trivial).bind fun _ => only_lift (Program.only_effect trivial)

theorem retraverse_only (limit : UInt32) (ctx : Context) (tree : String) :
    Only Effect.Concluding (retraverse limit ctx tree) := by
  refine ((only_call ⟨.misses tree ctx.pass, trivial, rfl⟩).adapt _).bind fun misses => ?_
  split
  · exact only_pure none
  · refine ((only_call ⟨.retraversals tree, trivial, rfl⟩).adapt _).bind fun attempt => ?_
    split
    · exact only_throw _
    · exact (queueRestart_only ctx tree).bind fun _ => only_pure _

theorem conclude_only (limit : UInt32) (ctx : Context) (output : String) :
    Only Effect.Concluding (conclude limit ctx output) := by
  unfold conclude
  split
  · exact (deliver_only ctx output).bind fun _ => only_pure _
  · split
    · exact only_throw _
    · refine (retraverse_only limit ctx _).bind fun attempt => ?_
      cases attempt with
      | some attempt => exact only_throw _
      | none => exact only_pure _

theorem output_only (limit : UInt32) (ctx : Context) (args : List Value) :
    Only Effect.Concluding ((output limit).call ctx args) := by
  cases args with
  | nil => exact only_throw _
  | cons v vs =>
    refine Only.bind (Only.adapt ?_ _) fun answered => ?_
    · unfold isAnswered
      split
      · exact only_pure false
      · exact (only_call trivial).orAbsent.bind fun _ => only_pure _
    · split
      · exact only_pure _
      · exact conclude_only limit ctx _

end Cell

/-! ## Accepting and processing -/

namespace Engine

theorem mem_of_cellFor {e : Engine} {p : Payload} {cell : Cell} (h : e.cellFor p = .ok cell) :
    cell ∈ e.registry.cells := by
  obtain ⟨_, _, hcell⟩ := exists_name_of_cellFor h
  exact Registry.mem_of_get? hcell

theorem eq_of_activate {cell : Cell} {p q : Payload} (h : cell.activate p = .ok q) : q = p := by
  unfold Cell.activate at h
  split at h
  · exact (Except.ok.inj h).symm
  · exact absurd h (by simp)

theorem mintAll_only (cells : List String) :
    Program.Only (Effect.Routine Queued) (mintAll cells) := by
  induction cells with
  | nil => exact trivial
  | cons cell rest ih =>
    exact Program.Only.bind (Program.only_effect trivial) fun _ => ih.bind fun _ => trivial

theorem explore_only (r : Registry) (limit : UInt64) (producer : String) (args : List Value) :
    Only (Effect.Routine Queued) (explore r limit producer args) := by
  refine (only_lift (Program.only_effect trivial)).bind fun drawn => ?_
  exact (only_lift (mintAll_only drawn)).bind fun minted => Graph.connect_only producer minted

theorem successors_only (r : Registry) (limit : UInt64) (producer : String) (args : List Value) :
    Only (Effect.Routine Queued) (successors r limit producer args) := by
  refine (Graph.connections_only producer).bind fun found => ?_
  cases found with
  | some stored => exact only_pure stored
  | none => exact explore_only r limit producer args

theorem queueAll_only {p : Payload} {producer : String}
    (hqueued : ∀ id behaviour cell, Queued (successorPayload p producer id behaviour cell)) :
    ∀ behaviours, Only (Effect.Routine Queued) (queueAll p producer behaviours)
  | [] => only_pure ()
  | behaviour :: rest => by
    refine (only_get _).bind fun cell => only_mint.bind fun id => ?_
    exact (only_push (hqueued id behaviour cell)).bind fun _ => queueAll_only hqueued rest

/-- What is queued for the following behaviours has the context of the results, up to the parts in
which the behaviours differ. -/
theorem passOn_only (e : Engine) (cell : Cell) (behaviour : String) {results : Payload}
    (hqueued : ∀ producer id behaviour cell,
      Queued (successorPayload results producer id behaviour cell)) :
    Only (Effect.Routine Queued) (e.passOn cell behaviour results) := by
  unfold passOn forward
  split
  · exact only_pure _
  · refine Only.bind ?_ fun n => ?_
    · split
      · exact only_throw _
      · refine ((successors_only _ _ _ _).adapt _).bind fun behaviours => ?_
        exact ((queueAll_only (hqueued _) behaviours).adapt _).bind fun _ => only_pure _
    · dsimp only
      split
      · exact (only_publish _).bind fun _ => only_pure _
      · exact only_pure _

theorem accept_only {s : Submission}
    (hqueued : ∀ id tree information behaviour,
      Queued (firstPayload s id tree information behaviour)) :
    Only (Effect.Routine Queued) (accept s) := by
  refine only_mint.bind fun tree => ?_
  refine ((Graph.informationIdFor_only s.input).adapt _).bind fun information => ?_
  have hcell : (Key.entry information (entryCell s)).Regular := entryCell_regular s
  refine ((Graph.entryBehaviour_only information hcell).adapt _).bind fun behaviour => ?_
  refine ((only_set (k := .firstBehaviour tree) trivial behaviour).adapt _).bind fun _ => ?_
  refine only_mint.bind fun id => ?_
  refine ((only_push (hqueued id tree information behaviour)).adapt _).bind fun _ => ?_
  exact (only_publish _).bind fun _ => only_pure tree

theorem announce_only (p : Payload) (failure : EngineError) :
    Program.Only (Effect.Routine Queued) (announce p failure) := by
  unfold announce
  split <;> exact Program.only_effect trivial

end Engine

end SelfWiring
