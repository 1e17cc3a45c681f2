import SelfWiring.Proofs.Draining

/-!
# One payload at a time

Where the queue never holds more than one payload, and it is clear what each of them comes to, there
is only one way on. `Net.Settles` goes that way until nothing waits. It can be gone, and every run
that processes until nothing waits has gone it.
-/

namespace SelfWiring

def Label.failure? : Label → Option EngineError
  | .processed _ (.error failure) _ => some failure
  | _ => none

/-- The failures of a run, in their order. -/
def failures (ds : List Label) : List EngineError := ds.filterMap Label.failure?

/-- The only way on, to a network in which nothing waits, and the failures on the way. -/
inductive Net.Settles (σ : Type) [Store σ] [FaultFree σ] (e : Engine) :
    Net → List EngineError → Net → Prop
  | drained {n : Net} (hqueue : n.queue = []) : Settles σ e n [] n
  | passed {n m k : Net} {p : Payload} {outcome : Outcome} {fs : List EngineError}
    (hqueue : n.queue = [p.encode])
    (hprocess : Action.Reaches σ (e.process p) (n.requeue []) (.ok outcome) m)
    (hrest : Settles σ e m fs k) : Settles σ e n fs k
  | failed {n m k : Net} {p : Payload} {f : EngineError} {fs : List EngineError}
    (hqueue : n.queue = [p.encode])
    (hprocess : Action.Reaches σ (e.process p) (n.requeue []) (.error f) m)
    (hrest : Settles σ e (m.report p (.error f)) fs k) : Settles σ e n (f :: fs) k

variable {σ : Type} [Store σ] [FaultFree σ] {e : Engine}

/-- The step that processes the only payload there is. -/
theorem Step.of_solitary {w w' : World σ} {d : Label} (hstep : Step e w d w')
    (hd : d.isProcessed = true) {p : Payload} (hqueue : w.net.queue = [p.encode])
    {r : Except EngineError Outcome} {m : Net}
    (hprocess : Action.Reaches σ (e.process p) (w.net.requeue []) r m) :
    w'.net = m.report p r ∧ ∃ queued, d = .processed p r queued := by
  cases hstep with
  | accept => exact absurd hd (by simp [Label.isProcessed])
  | process htaken hstore hread =>
    rename_i store before after item q
    have hsingle : before ++ item :: after = [p.encode] := htaken.symm.trans hqueue
    obtain ⟨rfl, rfl⟩ : before = [] ∧ after = [] := by
      have hlength := congrArg List.length hsingle
      simp only [List.length_append, List.length_cons, List.length_nil] at hlength
      exact ⟨List.length_eq_zero_iff.mp (by omega), List.length_eq_zero_iff.mp (by omega)⟩
    obtain rfl := List.singleton_inj.mp hsingle
    obtain rfl := Option.mem_unique (Payload.decode?_encode p) hread
    obtain ⟨hresult, hnet⟩ := Action.ensures_withRetries e.config.retryPolicy hprocess
      { w with store } (World.net_of_requeued hstore)
    have hhandled := handle_net e p { w with store }
    unfold Engine.retrying at hhandled ⊢
    rw [hresult, hnet] at hhandled
    exact ⟨hhandled, _, by rw [hresult]⟩

theorem Step.exists_solitary {w : World σ} {p : Payload} (hqueue : w.net.queue = [p.encode])
    {r : Except EngineError Outcome} {m : Net}
    (hprocess : Action.Reaches σ (e.process p) (w.net.requeue []) r m) :
    ∃ queued w', Step e w (.processed p r queued) w' ∧ w'.net = m.report p r := by
  obtain ⟨result, queued, w', hstep⟩ := Step.exists_processed e hqueue
  obtain ⟨hnet, queued', hd⟩ := hstep.of_solitary rfl hqueue hprocess
  rw [hd] at hstep
  exact ⟨queued', w', hstep, hnet⟩

/-- The first step of a run. -/
theorem Run.first {w w' : World σ} {ds : List Label} (hrun : Run e w ds w') :
    (ds = [] ∧ w' = w) ∨ ∃ d ds' w₁, ds = d :: ds' ∧ Step e w d w₁ ∧ Run e w₁ ds' w' := by
  induction hrun with
  | nil => exact Or.inl ⟨rfl, rfl⟩
  | @snoc w₁ w₂ ds d hrun hstep ih =>
    right
    rcases ih with ⟨rfl, rfl⟩ | ⟨d', ds', w₀, rfl, hfirst, hrest⟩
    · exact ⟨d, [], w₂, rfl, hstep, .nil w₂⟩
    · exact ⟨d', ds' ++ [d], w₀, rfl, hfirst, hrest.snoc hstep⟩

theorem Run.cons {w w₁ w' : World σ} {d : Label} {ds : List Label} (hstep : Step e w d w₁)
    (hrun : Run e w₁ ds w') : Run e w (d :: ds) w' := ((Run.nil w).snoc hstep).append hrun

namespace Net.Settles

variable {n k : Net} {fs : List EngineError}

/-- The way can be gone. -/
theorem exists_run (h : Settles σ e n fs k) : ∀ {w : World σ}, w.net = n →
    ∃ ds w', Run e w ds w' ∧ (∀ d ∈ ds, d.isProcessed = true) ∧ w'.queue = [] := by
  induction h with
  | drained hqueue =>
    rintro w rfl
    exact ⟨[], w, .nil w, by simp, hqueue⟩
  | passed hqueue hprocess _ ih | failed hqueue hprocess _ ih =>
    rintro w rfl
    obtain ⟨queued, w₁, hstep, hnet⟩ := Step.exists_solitary hqueue hprocess
    obtain ⟨ds, w', hrun, hprocessed, hdrained⟩ := ih hnet
    exact ⟨_, w', hrun.cons hstep, List.forall_mem_cons.mpr ⟨rfl, hprocessed⟩, hdrained⟩

/-- There is no other way. -/
theorem of_run (h : Settles σ e n fs k) : ∀ {w w' : World σ} {ds : List Label}, w.net = n →
    Run e w ds w' → (∀ d ∈ ds, d.isProcessed = true) → w'.queue = [] →
      w'.net = k ∧ failures ds = fs := by
  induction h with
  | drained hqueue =>
    rintro w w' ds rfl hrun hprocessed hdrained
    rcases hrun.first with ⟨rfl, rfl⟩ | ⟨d, ds', w₁, rfl, hstep, -⟩
    · exact ⟨rfl, rfl⟩
    · cases hstep with
      | accept => exact absurd (hprocessed _ List.mem_cons_self) (by simp [Label.isProcessed])
      | process htaken =>
        have hnone : _ = [] := htaken.symm.trans hqueue
        exact absurd hnone (by simp)
  | passed hqueue hprocess _ ih | failed hqueue hprocess _ ih =>
    rintro w w' ds rfl hrun hprocessed hdrained
    rcases hrun.first with ⟨rfl, rfl⟩ | ⟨d, ds', w₁, rfl, hstep, hrest⟩
    · exact absurd (hqueue.symm.trans hdrained) (by simp)
    · obtain ⟨hd, hlater⟩ := List.forall_mem_cons.mp hprocessed
      obtain ⟨hnet, queued, rfl⟩ := hstep.of_solitary hd hqueue hprocess
      obtain ⟨hend, hfailures⟩ := ih hnet hrest hlater hdrained
      refine ⟨hend, ?_⟩
      rw [← hfailures]
      rfl

end Net.Settles

end SelfWiring
