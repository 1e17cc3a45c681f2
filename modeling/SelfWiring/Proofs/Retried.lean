import SelfWiring.Proofs.Safety
import SelfWiring.Proofs.Twins

/-!
# Runs of an engine whose calls are retried

Accepting and processing look at the clock for the traces only, and no standard cell looks at it.
So a run of an engine on a store that lets attempts fail ends like the run in which no call fails.
-/

namespace SelfWiring

open SelfWiring.Action

theorem Effect.Routine.ageless {e : Effect} (h : e.Routine fun _ => True) : e.Ageless := by
  cases e with
  | store c => cases c <;> first | exact trivial | exact h
  | elsewhere _ | clock => exact h
  | mint | draw _ _ | publish _ | sleep _ | signal _ | await _ _ | stop _ | stopping | join =>
    exact trivial

theorem Effect.Concluding.ageless {e : Effect} (h : e.Concluding) : e.Ageless := by
  cases e with
  | store c => cases c <;> first | exact trivial | exact h
  | elsewhere _ | clock => exact h
  | mint | draw _ _ | publish _ | sleep _ | signal _ | await _ _ | stop _ | stopping | join =>
    exact trivial

/-! ## Cells -/

namespace Cell

/-- A cell for which the clock matters in traces only, whatever it is called with. -/
def Timeless (c : Cell) : Prop := ∀ ctx args, (c.call ctx args).Timeless

/-- A cell that neither looks at the clock nor touches scores, whatever it is called with. -/
def Ageless (c : Cell) : Prop := ∀ ctx args, Only Effect.Ageless (c.call ctx args)

theorem standard_ageless {config : Config} {c : Cell} (hc : c ∈ standard config) :
    c.Ageless := by
  intro ctx args
  have honly : c = output config.maxRetraversals ∨
      Only (Effect.Routine fun _ => True) (c.call ctx args) := standard_only ctx args hc
  rcases honly with rfl | honly
  · exact (output_only _ ctx args).imp fun _ => Effect.Concluding.ageless
  · exact honly.imp fun _ => Effect.Routine.ageless

theorem standard_timeless {config : Config} {c : Cell} (hc : c ∈ standard config) :
    c.Timeless := fun ctx args => (standard_ageless hc ctx args).timeless

end Cell

theorem Engine.ageless_of_standard {config : Config} {e : Engine}
    (he : assemble { config, cells := some (Cell.standard config) } = .ok e) :
    ∀ cell ∈ e.registry.cells, cell.Ageless := fun cell hcell =>
  Cell.standard_ageless (((assemble_eq_ok he).2 cell).mp hcell)

/-! ## Accepting and processing -/

namespace Graph

theorem track_timeless (p : Payload) : (track p).Timeless := by
  unfold track
  split
  · exact timeless_pure ()
  · refine .clock fun now now' => ?_
    exact .trace (Key.isTrace_render _) (Score.isNaN_ofMillis now) (Score.isNaN_ofMillis now')
      fun answer => .done _

end Graph

namespace Engine

theorem accept_timeless (s : Submission) : (accept s).Timeless :=
  ((accept_only fun _ _ _ _ => trivial).imp fun _ => Effect.Routine.ageless).timeless

variable {e : Engine} {p : Payload}

theorem calculate_timeless {cell : Cell} (h : cell.Timeless) (p : Payload) :
    (cell.calculate p).Timeless := by
  refine ((h p.context p.args).adapt _).bind fun results => ?_
  split
  · exact timeless_pure _
  · exact timeless_throw _

theorem process_timeless (hcells : ∀ cell ∈ e.registry.cells, cell.Timeless) (p : Payload) :
    Timeless (e.process p) := by
  unfold process
  rcases hcell : e.cellFor p with failure | cell
  · exact timeless_throw failure
  refine (timeless_ofExcept (cell.activate p)).bind fun q => ?_
  refine (calculate_timeless (hcells cell (mem_of_cellFor hcell)) q).bind fun results => ?_
  refine Timeless.bind ?_ fun outcome => ?_
  · have honly : Only (Effect.Routine fun _ => True) (e.passOn cell q.destination results) :=
      passOn_only e cell q.destination fun _ _ _ _ => trivial
    exact (honly.imp fun _ => Effect.Routine.ageless).timeless
  · exact (Graph.track_timeless results).observe.bind fun _ => timeless_pure outcome

/-! ## Runs -/

/-- Handle a payload, and return what came of it. -/
def attend (e : Engine) (p : Payload) : Program (Except EngineError Outcome) := do
  let result ← (e.retrying (e.process p)).run
  match result with
  | .ok _ => return result
  | .error failure =>
    announce p failure
    return result

theorem handle_eq_attend (e : Engine) (p : Payload) :
    e.handle p = (e.attend p).bind fun _ => pure () := by
  unfold handle attend
  show Program.bind _ _ = (Program.bind _ _).bind _
  rw [Program.bind_assoc]
  refine congrArg _ (funext fun result => ?_)
  cases result with
  | ok outcome => rfl
  | error failure => exact ((Program.bind_assoc _ _ _).trans (Program.bind_done _)).symm

end Engine

/-- What can be asked of an engine. -/
inductive Command where
  | accept (s : Submission)
  /-- Process the payload at the head of the queue. -/
  | process

/-- What came of a command. -/
inductive Report where
  | accepted (result : Except EngineError String)
  | processed (result : Except EngineError Outcome)
  /-- The queue was empty. -/
  | idle
  /-- No payload could be taken from the queue. -/
  | unread (failure : StoreError)

namespace Engine

/-- Carry out a command. -/
def carryOut (e : Engine) : Command → Program Report
  | .accept s => return .accepted (← (e.retrying (accept s)).run)
  | .process => do
    match ← (e.retrying (Queue.tryPop Key.eventQueue.render Payload.decode?)).run with
    | .ok none => return .idle
    | .ok (some p) => return .processed (← e.attend p)
    | .error failure => return .unread failure

/-- Carry out commands one after the other. -/
def carryOutAll (e : Engine) : List Command → Program (List Report)
  | [] => return []
  | c :: rest => return (← e.carryOut c) :: (← e.carryOutAll rest)

variable {e : Engine}

theorem retrying_retried {ε α : Type} {a : Action ε α} (h : Timeless a) :
    Program.Retried e.config.retryPolicy (e.retrying a).run := ⟨a.run, h, rfl⟩

theorem announce_retried (policy : RetryPolicy) (p : Payload) (failure : EngineError) :
    Program.Retried policy (announce p failure) := by
  refine ⟨announce p failure, ?_, ?_⟩
  · have honly : Program.Only (Effect.Routine fun _ => True) (announce p failure) :=
      announce_only p failure
    exact (honly.imp fun _ => Effect.Routine.ageless).timeless
  · unfold announce
    split <;> rfl

theorem carryOut_retried (hcells : ∀ cell ∈ e.registry.cells, cell.Timeless) (c : Command) :
    Program.Retried e.config.retryPolicy (e.carryOut c) := by
  cases c with
  | accept s =>
    exact (retrying_retried (accept_timeless s)).bind fun _ => Program.retried_pure _
  | process =>
    have hpop : Timeless (Queue.tryPop Key.eventQueue.render Payload.decode?) := by
      refine Only.timeless ((only_call trivial).bind fun found => ?_)
      cases found with
      | none => exact only_pure none
      | some item =>
        dsimp only
        split
        · exact only_pure _
        · exact only_throw _
    refine (retrying_retried hpop).bind fun taken => ?_
    rcases taken with failure | _ | p
    · exact Program.retried_pure _
    · exact Program.retried_pure _
    · refine Program.Retried.bind ?_ fun _ => Program.retried_pure _
      refine (retrying_retried (process_timeless hcells p)).bind fun result => ?_
      cases result with
      | ok outcome => exact Program.retried_pure _
      | error failure =>
        exact (announce_retried _ p failure).bind fun _ => Program.retried_pure _

theorem carryOutAll_retried (hcells : ∀ cell ∈ e.registry.cells, cell.Timeless) :
    ∀ commands, Program.Retried e.config.retryPolicy (e.carryOutAll commands)
  | [] => Program.retried_pure []
  | c :: rest => (carryOut_retried hcells c).bind fun _ =>
      (carryOutAll_retried hcells rest).bind fun _ => Program.retried_pure _

end Engine

theorem Config.max_one_max (n : UInt32) : max 1 (max n 1).toNat = max 1 n.toNat := by
  rw [show max n 1 = if n ≤ 1 then 1 else n from rfl]
  split
  case isTrue h =>
    have hn : n.toNat ≤ 1 := UInt32.le_iff_toNat_le.mp h
    rw [Nat.max_eq_left hn]
    rfl
  case isFalse => rfl

/-- On a store that fails some attempts for transient reasons, but never as many attempts of one
call as the settings allow, an engine comes to the same as on the store that fails none: the same
reports, the same events in the same order, the same identifiers and random choices, and the same
store but for the times in its traces. -/
theorem retries_unnoticed {σ : Type} [Store σ] [Blanking σ] {config : Config} {cells : List Cell}
    {e : Engine} (he : Engine.assemble { config, cells := some cells } = .ok e)
    (hcells : ∀ cell ∈ cells, cell ∈ Cell.standard config ∨ cell.Timeless) (commands : List Command)
    {w : World (Flaky σ)} (horder : Blanking.InOrder w.store.below) (hfleeting : w.store.Fleeting)
    (hspared : (w.run (e.carryOutAll commands)).2.store.Spared
      (max 1 config.retryMaxAttempts.toNat)) :
    (w.run (e.carryOutAll commands)).1 = (w.withoutFaults.run (e.carryOutAll commands)).1 ∧
      (w.run (e.carryOutAll commands)).2.events =
        (w.withoutFaults.run (e.carryOutAll commands)).2.events ∧
      (w.run (e.carryOutAll commands)).2.minted =
        (w.withoutFaults.run (e.carryOutAll commands)).2.minted ∧
      (w.run (e.carryOutAll commands)).2.generator =
        (w.withoutFaults.run (e.carryOutAll commands)).2.generator ∧
      Blanking.blank (w.run (e.carryOutAll commands)).2.store.below =
        Blanking.blank (w.withoutFaults.run (e.carryOutAll commands)).2.store.below := by
  obtain ⟨hconfig, hregistry⟩ := Engine.assemble_eq_ok he
  have htimeless : ∀ cell ∈ e.registry.cells, cell.Timeless := fun cell hcell =>
    (hcells cell ((hregistry cell).mp hcell)).elim Cell.standard_timeless id
  have hattempts : max 1 e.config.retryPolicy.maxAttempts.toNat =
      max 1 config.retryMaxAttempts.toNat := by
    rw [hconfig]
    exact Config.max_one_max _
  rw [← hattempts] at hspared
  obtain ⟨hresult, v, hnear, hnear'⟩ :=
    (Engine.carryOutAll_retried htimeless commands).run_withoutFaults horder hfleeting hspared
  exact ⟨hresult, hnear.events.trans hnear'.events.symm, hnear.minted.trans hnear'.minted.symm,
    hnear.generator.trans hnear'.generator.symm, hnear.store.trans hnear'.store.symm⟩

/-- The very first attempt fails, and a submission is accepted and processed as if it had not. -/
theorem retries_unnoticed_of_one_failure : ∃ (e : Engine) (w : World (Flaky Memory)),
    let commands : List Command := [.accept { input := "4 5", session := "a" }, .process]
    Engine.assemble { cells := some (Cell.standard {}) } = .ok e ∧
      w.store.failures 0 = some (.transient "busy") ∧
      0 < (w.run (e.carryOutAll commands)).2.store.calls ∧
      (w.run (e.carryOutAll commands)).1 = (w.withoutFaults.run (e.carryOutAll commands)).1 ∧
      Blanking.blank (w.run (e.carryOutAll commands)).2.store.below =
        Blanking.blank (w.withoutFaults.run (e.carryOutAll commands)).2.store.below := by
  obtain ⟨e, he⟩ := Engine.exists_standard {} rfl
  have hconfig := (Engine.assemble_eq_ok he).1
  let s : Submission := { input := "4 5", session := "a" }
  let failures (k : Nat) : Option StoreError := if k = 0 then some (.transient "busy") else none
  let w : World (Flaky Memory) := { store := { below := {}, failures }, generator := .ofSeed 0 }
  have hfleeting : w.store.Fleeting := by
    intro k failure hk
    have hk : (if k = 0 then some (StoreError.transient "busy") else none) = some failure := hk
    split at hk
    · rw [← Option.some.inj hk]
      rfl
    · exact nomatch hk
  have hspared : (w.run (e.carryOutAll [.accept s, .process])).2.store.Spared
      (max 1 (5 : UInt32).toNat) := by
    -- behind a call that fails there is one that does not
    intro k _
    rw [(World.run_flaky _ w).1]
    have hlater : ∀ j, j ≠ 0 → w.store.failures j = none := fun j hj => if_neg hj
    by_cases hk : k = 0
    · exact ⟨1, by decide, hlater _ (Nat.succ_ne_zero k)⟩
    · exact ⟨0, by decide, hlater _ hk⟩
  have haccepted : 0 < (w.run (e.retrying (Engine.accept s)).run).2.store.calls :=
    World.calls_lt_run_retried e.config.retryPolicy _ _ _ _ { w with minted := 1 }
  have hcalls : 0 < (w.run (e.carryOutAll [.accept s, .process])).2.store.calls := by
    refine Nat.lt_of_lt_of_le haccepted ?_
    show _ ≤ (w.run ((Program.bind _ _).bind _)).2.store.calls
    rw [World.run_bind, World.run_bind]
    exact (World.run_flaky _ _).2
  obtain ⟨hreports, -, -, -, hstore⟩ :=
    retries_unnoticed he (fun cell hcell => Or.inl hcell) [.accept s, .process] trivial hfleeting
      hspared
  exact ⟨e, w, he, rfl, hcalls, hreports, hstore⟩

end SelfWiring
