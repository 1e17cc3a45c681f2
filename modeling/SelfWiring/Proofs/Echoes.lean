import SelfWiring.Proofs.Turns

/-!
# What becomes of an echo

A text that is sent straight to the output cell is concluded by the step after the one that accepts
it: it is delivered if its session accepts it, and it restarts its tree otherwise, as long as the
budget allows it.
-/

namespace SelfWiring

variable {σ : Type} [Store σ] [FaultFree σ] {e : Engine} {heard : Net → Net → Prop}

/-- The head of the queue can be processed. -/
theorem Step.exists_processed (e : Engine) {w : World σ} {p : Payload} {after : List String}
    (hqueue : w.queue = p.encode :: after) :
    ∃ result queued w', Step e w (.processed p result queued) w' := by
  obtain ⟨_, hstore⟩ := exists_popped hqueue
  have hsplit : w.queue = [] ++ p.encode :: after := hqueue
  exact ⟨_, _, _, .process hsplit hstore (Payload.decode?_encode p)⟩

theorem Moves.of_accepted {born : String → Submission → Prop} {n m : Net} {s : Submission}
    {result : Except EngineError String} (h : Moves σ e heard born n (.accepted s result) m) :
    result = .ok n.fresh ∧ m = n.accept s := by
  cases h
  exact ⟨rfl, rfl⟩

/-- A payload that is for the output cell is concluded. -/
theorem Moves.of_output {born : String → Submission → Prop} {n m : Net} {p : Payload}
    {result : Except EngineError Outcome} {queued : List String}
    (h : Moves σ e heard born n (.processed p result queued) m)
    (hout : p.context.cell = some Cell.outputName) {tree session : String}
    (htree : p.context.tree = some tree) (hsession : p.context.session = some session) {v : Value}
    {vs : List Value} (hargs : p.args = v :: vs) :
    ∃ before after r m', n.queue = before ++ p.encode :: after ∧
      Cell.Concluded e.config.maxRetraversals (n.requeue (before ++ after)) p.context tree session
        v.display r m' ∧
      result = (r.mapError EngineError.cell).map (fun _ => .terminated) ∧ m = m'.report p result ∧
        queued = m.queue.drop (before ++ after).length := by
  generalize hd : Label.processed p result queued = d at h
  cases h with
  | accept => exact absurd hd (by simp)
  | @process before after q tree' name s cell result' m' hqueue hborn hsound hbinding hcell
    hprocessed =>
    obtain ⟨rfl, rfl, rfl⟩ := Label.processed.inj hd
    obtain rfl := Option.mem_unique htree hsound.tree
    obtain rfl := Option.mem_unique hsession hsound.session
    obtain ⟨name', hname, hbinding'⟩ := hsound.cell
    obtain rfl := Option.mem_unique hbinding hbinding'
    obtain rfl := Option.mem_unique hout hname
    have hname := Registry.name_of_get? hcell
    cases hprocessed with
    | objected hother | ended hother | passedOn hother => exact absurd hname hother
    | concluded _ hargs' hconcluded =>
      obtain ⟨rfl, rfl⟩ := List.cons.inj (hargs.symm.trans hargs')
      exact ⟨before, after, _, m', hqueue, hconcluded, rfl, rfl, rfl⟩

/-- Two steps that begin a tree and conclude its text. -/
theorem exists_run_concluded (hs : e.Serves σ heard) {w₀ : World σ} (h₀ : w₀.Empty) {s : Submission}
    (hecho : s.echo = true) : ∃ p r m w,
      Run e w₀ [.accepted s (.ok w₀.net.fresh),
        .processed p ((r.mapError EngineError.cell).map fun _ => .terminated) m.queue] w ∧
      p.context.expectation = s.expectation ∧ p.context.pass = 0 ∧
      Cell.Concluded e.config.maxRetraversals ((w₀.net.accept s).requeue []) p.context w₀.net.fresh
        s.session s.input r m ∧
      w.net = m.report p ((r.mapError EngineError.cell).map fun _ => .terminated) := by
  have hinv := Inv.empty h₀ e.registry
  -- the first step begins the tree
  have hstep₁ := Step.accept (e := e) s w₀
  generalize (w₀.run (e.retrying (Engine.accept s)).run).1 = result₁ at hstep₁
  generalize (w₀.run (e.retrying (Engine.accept s)).run).2 = w₁ at hstep₁
  have hmoves₁ := step_moves hs hinv hstep₁
  have hinv₁ := (hinv.moves hs hmoves₁).1
  obtain ⟨rfl, hnet₁⟩ := hmoves₁.of_accepted
  obtain ⟨_, _, id, i, b, hqueue₁⟩ := w₀.net.accept_announced s
  rw [h₀.net_queue, List.nil_append, ← hnet₁] at hqueue₁
  -- the second step takes the one payload there is
  obtain ⟨result, queued, w, hstep₂⟩ := Step.exists_processed e hqueue₁
  have hout : (Engine.firstPayload s id w₀.net.fresh i b).context.cell = some Cell.outputName := by
    simp [Engine.firstPayload, Engine.entryCell, hecho]
  obtain ⟨before, after, r, m, hqueue, hconcluded, rfl, hnet, rfl⟩ :=
    (step_moves hs hinv₁ hstep₂).of_output hout rfl rfl rfl
  obtain ⟨rfl, rfl⟩ : before = [] ∧ after = [] := by
    have hlength := congrArg List.length (hqueue₁.symm.trans hqueue)
    simp only [List.length_append, List.length_cons, List.length_nil] at hlength
    exact ⟨List.length_eq_zero_iff.mp (by omega), List.length_eq_zero_iff.mp (by omega)⟩
  refine ⟨_, r, m, w, ?_, rfl, rfl, hnet₁ ▸ hconcluded, hnet⟩
  have hrun := (Run.nil w₀).snoc hstep₁ |>.snoc hstep₂
  rw [hnet, Net.report_queue] at hrun
  exact hrun

/-- What a session accepts is delivered. -/
theorem exists_run_delivered (hs : e.Serves σ heard) {w₀ : World σ} (h₀ : w₀.Empty) {s : Submission}
    (hecho : s.echo = true) (hfits : ∀ x, s.expectation = some x → s.input = x) : ∃ p w,
      Run e w₀ [.accepted s (.ok w₀.net.fresh), .processed p (.ok .terminated) []] w ∧
      w.events = [.accepted s.session w₀.net.fresh, .emitted s.session w₀.net.fresh s.input] := by
  obtain ⟨p, r, m, w, hrun, hexpectation, _, hconcluded, hnet⟩ := exists_run_concluded hs h₀ hecho
  obtain ⟨hneutral, hevents, _⟩ := w₀.net.accept_announced s
  have hmet : ¬ ∃ x, p.context.expectation = some x ∧ s.input ≠ x := by
    rintro ⟨x, hx, hne⟩
    exact hne (hfits x (hexpectation.symm.trans hx))
  cases hconcluded with
  | answered hdone =>
    rw [Net.requeue_text, hneutral.counters (.done _) trivial, h₀.net_text] at hdone
    exact absurd hdone (by simp)
  | delivered =>
    refine ⟨p, w, hrun, (congrArg Net.events hnet).trans ?_⟩
    show (w₀.net.accept s).events ++ [_] = _
    rw [hevents, show w₀.net.events = [] from h₀.events]
    rfl
  | passedOver _ hmissed | exhausted _ hmissed | restarted _ hmissed => exact absurd hmissed hmet

/-- What a session does not accept restarts the tree. -/
theorem exists_run_restarted (hs : e.Serves σ heard) {w₀ : World σ} (h₀ : w₀.Empty) {s : Submission}
    (hecho : s.echo = true) {x : String} (hexpected : s.expectation = some x) (hne : s.input ≠ x) :
    ∃ p q w, Run e w₀ [.accepted s (.ok w₀.net.fresh),
        .processed p (.error (.cell (.expectationNotMet w₀.net.fresh 1))) [Payload.encode q]] w ∧
      w.events = [.accepted s.session w₀.net.fresh, .expectationNotMet w₀.net.fresh 1] ∧
      w.queue = [q.encode] := by
  obtain ⟨p, r, m, w, hrun, hexpectation, _, hconcluded, hnet⟩ := exists_run_concluded hs h₀ hecho
  obtain ⟨hneutral, hevents, _⟩ := w₀.net.accept_announced s
  have hnone : ∀ k : Key, k.Counter → ((w₀.net.accept s).requeue []).text k = none := fun k hk =>
    (hneutral.counters k hk).trans (h₀.net_text k)
  have hfirst :
      nextCount (((w₀.net.accept s).requeue []).text (.retraversals w₀.net.fresh)) = 1 := by
    rw [hnone (.retraversals _) trivial, nextCount_none]
  cases hconcluded with
  | answered hdone =>
    rw [hnone (.done _) trivial] at hdone
    exact absurd hdone (by simp)
  | delivered _ hfits => exact absurd (hfits x (hexpectation.trans hexpected)) hne
  | passedOver _ _ hmisses =>
    rw [hnone (.misses _ _) trivial, nextCount_none] at hmisses
    exact absurd hmisses (by decide)
  | exhausted _ _ _ hlimit =>
    have hzero : e.config.maxRetraversals.toNat ≠ 0 := fun h => hlimit.1 (UInt32.toNat_inj.mp h)
    have hsmall : e.config.maxRetraversals.toNat < 2 ^ 63 :=
      Nat.lt_trans (UInt32.toNat_lt _) (by decide)
    rw [hfirst] at hlimit
    have hover := (ofNat_lt_ofNat hsmall (k := 1) (by decide)).mp hlimit.2
    omega
  | restarted =>
    rw [hfirst] at hrun hnet
    refine ⟨p, _, w, hrun, (congrArg Net.events hnet).trans ?_, congrArg Net.queue hnet⟩
    show (w₀.net.accept s).events ++ [_] = _
    rw [hevents, show w₀.net.events = [] from h₀.events]
    rfl

end SelfWiring
