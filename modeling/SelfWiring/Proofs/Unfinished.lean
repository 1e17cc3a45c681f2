import SelfWiring.Proofs.Marks

/-!
# Answers and restarts that stay unfinished

In every run, whichever calls fail, there is something behind each mark: the answer of the tree is
delivered, the walk is restarted or has no restart left, or the payload that made the mark failed
with an error of the store. In the last case the mark stays, and nothing makes up for what is
missing.
-/

namespace SelfWiring

/-! ## Processing -/

/-- The output cells and the cells that do nothing but what is routine. -/
def Cell.Orderly (c : Cell) : Prop :=
  (∃ limit, c = .output limit) ∨
    ∀ ctx args, Action.Only (Effect.Routine Payload.Recorded) (c.call ctx args)

theorem Cell.standard_orderly {config : Config} {c : Cell} (hc : c ∈ standard config) :
    c.Orderly := by
  by_cases houtput : c = output config.maxRetraversals
  · exact Or.inl ⟨_, houtput⟩
  · exact Or.inr fun ctx args => (standard_only ctx args hc).resolve_left houtput

theorem Cell.Orderly.call_yields {c : Cell} (hc : c.Orderly) {ctx : Context} {args : List Value}
    (hrecorded : ctx.information.isSome = true) {s t : Scene} {r : Except CellError (List Value)}
    (h : Action.Yields (c.call ctx args) s r t) : Marked ctx (fun e => r = .error e) s t := by
  obtain ⟨limit, rfl⟩ | hroutine := hc
  · exact output_yields hrecorded h
  · exact ((hroutine ctx args).quiet h).marked

theorem Cell.Orderly.calculate_yields {c : Cell} (hc : c.Orderly) {p : Payload} (hp : p.Recorded)
    {s t : Scene} {r : Except EngineError Payload} (h : Action.Yields (c.calculate p) s r t) :
    Marked p.context (fun e => r = .error (.cell e)) s t ∧
      ∀ results, r = .ok results → results.context = p.context := by
  rcases h.of_bind_adapt with ⟨e, hcall, rfl⟩ | ⟨results, m, hcall, hrest⟩
  · refine ⟨(hc.call_yields hp hcall).imp fun e' he' => ?_, fun _ hr => nomatch hr⟩
    rw [Except.error.inj he']
  · have hmarked := hc.call_yields hp hcall
    split at hrest
    case isTrue =>
      obtain ⟨rfl, rfl⟩ := hrest.of_pure
      exact ⟨hmarked.imp fun _ he => (nomatch he), fun _ hr => Except.ok.inj hr ▸ rfl⟩
    case isFalse =>
      obtain ⟨rfl, rfl⟩ := hrest.of_throw
      exact ⟨hmarked.imp fun _ he => (nomatch he), fun _ hr => nomatch hr⟩

/-- Writing a trace makes no mark. -/
theorem Graph.track_yields {p : Payload} {s t : Scene} {r : Except StoreError Unit}
    (h : Action.Yields (track p) s r t) : t = s := by
  have honly : Action.Only (fun e => e = .clock ∨
      ∃ key member score, e = .store (.zadd key member score)) (track p) := by
    unfold track
    split
    · exact Action.only_pure ()
    · refine (Action.only_lift (Program.only_effect (Or.inl rfl))).bind fun now => ?_
      exact Action.only_call (Or.inr ⟨_, _, _, rfl⟩)
  refine Program.Only.relates (R := fun s t => t = s) (fun _ => rfl) (fun h h' => h'.trans h) ?_
    honly h
  rintro _ s t _ (rfl | ⟨key, member, score, rfl⟩) hpasses
  · exact hpasses.eq hpasses.comesTo rfl
  · rcases hpasses.of_store trivial with ⟨_, _, rfl⟩ | ⟨_, _, _, rfl, rfl⟩ <;> rfl

namespace Engine

variable {e : Engine}

theorem process_yields (hcells : ∀ cell ∈ e.registry.cells, cell.Orderly) {p : Payload}
    (hp : p.Recorded) {s t : Scene} {r : Except EngineError Outcome}
    (h : Action.Yields (e.process p) s r t) :
    Marked p.context (fun failure => r = .error (.cell failure)) s t := by
  rcases h.of_bind_except with ⟨_, -, rfl, rfl⟩ | ⟨cell, hcell, hactivate⟩
  · exact (Scene.Quiet.refl _).marked
  rcases hactivate.of_bind_except with ⟨_, -, rfl, rfl⟩ | ⟨q, hq, hcalculate⟩
  · exact (Scene.Quiet.refl _).marked
  obtain rfl := eq_of_activate hq
  have horderly := hcells cell (mem_of_cellFor hcell)
  rcases hcalculate.of_bind with ⟨failure, hfailed, rfl⟩ | ⟨results, m, hresults, hpassOn⟩
  · refine (horderly.calculate_yields hp hfailed).1.imp fun _ he => ?_
    exact congrArg _ (Except.error.inj he)
  -- behind the cell there is nothing but routine and the trace
  obtain ⟨hmarked, hcontext⟩ := horderly.calculate_yields hp hresults
  have hrecorded : results.context.information.isSome = true := hcontext results rfl ▸ hp
  have honly : Action.Only (Effect.Routine Payload.Recorded)
      (e.passOn cell q.destination results) :=
    passOn_only e cell q.destination fun _ _ _ _ => hrecorded
  refine (hmarked.imp fun _ he => nomatch he).trans_quiet ?_
  rcases hpassOn.of_bind with ⟨failure, hfailed, -⟩ | ⟨outcome, n, houtcome, htrack⟩
  · exact honly.quiet hfailed
  · rcases htrack.of_bind with ⟨_, hobserved, _⟩ | ⟨_, u, hobserved, hdone⟩
    all_goals
      obtain ⟨_, htrack, _⟩ := hobserved.of_lift
    · rw [Graph.track_yields htrack]
      exact honly.quiet houtcome
    · obtain ⟨-, rfl⟩ := hdone.of_pure
      rw [Graph.track_yields htrack]
      exact honly.quiet houtcome

theorem accept_yields {submission : Submission} {s t : Scene} {r : Except EngineError String}
    (h : Action.Yields (accept submission) s r t) : s.Quiet Payload.Recorded t :=
  Action.Only.quiet (accept_only fun _ _ _ _ => rfl) h

theorem announce_yields {p : Payload} {failure : EngineError} {s t : Scene}
    (h : (announce p failure).Yields s () t) : s.Quiet Payload.Recorded t ∧
      ∀ tree attempts, failure = .cell (.budgetExhausted tree attempts) →
        Event.budgetExhausted tree attempts ∈ t.events := by
  refine ⟨Program.Only.relates Scene.Quiet.refl Scene.Quiet.trans (fun he hpasses =>
    he.quiet hpasses) (announce_only p failure) h, ?_⟩
  rintro tree attempts rfl
  have hpasses := Program.Yields.of_effect (e := .publish (.budgetExhausted tree attempts)) h
  rw [hpasses.events]
  exact List.mem_append_right _ (List.mem_singleton_self _)

end Engine

/-! ## Runs -/

namespace Scene

/-- The scene with other items in the queue. -/
def leave (s : Scene) (items : List String) : Scene :=
  { s with contents := s.contents.putList Key.eventQueue.render items }

theorem leave_queue (s : Scene) (items : List String) : (s.leave items).queue = items := by
  simp [leave, Holding.queue, Contents.putList]

theorem leave_outputs (s : Scene) (items : List String) (session : String) :
    (s.leave items).outputs session = s.outputs session :=
  Function.update_of_ne (outputs_ne_eventQueue session) items s.contents.list

end Scene

/-- Every mark was made by a payload that was processed, and there is something behind it. -/
structure Accounted (ds : List Label) (s : Scene) : Prop where
  queue : ∀ item ∈ s.queue, ∃ p : Payload, item = p.encode ∧ p.Recorded
  marks : ∀ k : Key, k.Mark → (s.text k).isSome = true → ∃ p result queued,
    .processed p result queued ∈ ds ∧
      k.Honoured p.context (fun failure => result = .error (.cell failure)) queued s
  exhausted : ∀ p queued tree attempts,
    .processed p (.error (.cell (.budgetExhausted tree attempts))) queued ∈ ds →
      .budgetExhausted tree attempts ∈ s.events

namespace Accounted

variable {ds : List Label} {s t : Scene}

theorem accept (h : Accounted ds s) (hquiet : s.Quiet Payload.Recorded t) (submission : Submission)
    (result : Except EngineError String) : Accounted (ds ++ [.accepted submission result]) t where
  queue := hquiet.grows.queued h.queue
  marks k hk hsome := by
    obtain ⟨p, result, queued, hmem, hhonoured⟩ := h.marks k hk (hquiet.marks k hk ▸ hsome)
    exact ⟨p, result, queued, List.mem_append_left _ hmem,
      hhonoured.grow hquiet.grows.outputs hquiet.grows.events⟩
  exhausted p queued tree attempts hmem := by
    refine hquiet.grows.events.subset (h.exhausted p queued tree attempts ?_)
    simpa using hmem

theorem process (h : Accounted ds s) {p : Payload} {result : Except EngineError Outcome}
    (hmarked : Marked p.context (fun failure => result = .error (.cell failure)) s t)
    (hexhausted : ∀ tree attempts, result = .error (.cell (.budgetExhausted tree attempts)) →
      Event.budgetExhausted tree attempts ∈ t.events) :
    Accounted (ds ++ [.processed p result (t.queue.drop s.queue.length)]) t where
  queue := hmarked.grows.queued h.queue
  marks k hk hsome := by
    rcases hmarked.marks k hk hsome with hbefore | hhonoured
    · obtain ⟨p, result, queued, hmem, hhonoured⟩ := h.marks k hk hbefore
      exact ⟨p, result, queued, List.mem_append_left _ hmem,
        hhonoured.grow hmarked.grows.outputs hmarked.grows.events⟩
    · exact ⟨p, result, _, List.mem_append_right _ (List.mem_singleton_self _), hhonoured⟩
  exhausted q queued tree attempts hmem := by
    rcases List.mem_append.mp hmem with hmem | hmem
    · exact hmarked.grows.events.subset (h.exhausted q queued tree attempts hmem)
    · obtain ⟨-, rfl, -⟩ := Label.processed.inj (List.mem_singleton.mp hmem)
      exact hexhausted tree attempts rfl

theorem leave (h : Accounted ds s) {before after : List String} {item : String}
    (hqueue : s.queue = before ++ item :: after) : Accounted ds (s.leave (before ++ after)) := by
  refine ⟨fun item' hitem' => h.queue item' ?_, fun k hk hsome => ?_, h.exhausted⟩
  · rw [Scene.leave_queue] at hitem'
    rw [hqueue]
    exact List.mem_append.mpr ((List.mem_append.mp hitem').imp_right (List.mem_cons_of_mem _))
  · obtain ⟨p, result, queued, hmem, hhonoured⟩ := h.marks k hk hsome
    refine ⟨p, result, queued, hmem, hhonoured.grow (fun session => ?_) (List.prefix_refl _)⟩
    exact s.leave_outputs (before ++ after) session ▸ List.prefix_refl _

end Accounted

variable {σ : Type} [Store σ] [FaultFree σ]

namespace Flaky

/-- Accept a submission, or take some payload out of the queue and process it. Before each step the
schedule may become another one. -/
inductive Step (e : Engine) : World (Flaky σ) → Label → World (Flaky σ) → Prop
  | accept (s : Submission) {w : World (Flaky σ)} (store : Flaky σ)
    (hstore : FaultFree.contents store.below = w.below.contents) :
    Step e w (.accepted s (World.run (e.retrying (Engine.accept s)).run { w with store }).1)
      (World.run (e.retrying (Engine.accept s)).run { w with store }).2
  | process {w : World (Flaky σ)} (store : Flaky σ) {before after : List String} {item : String}
    {p : Payload} (hqueue : w.below.queue = before ++ item :: after)
    (hstore : FaultFree.contents store.below =
      w.below.contents.putList Key.eventQueue.render (before ++ after))
    (hread : Payload.decode? item = some p) :
    Step e w
      (.processed p (World.run (e.retrying (e.process p)).run { w with store }).1
        ((World.run (e.handle p) { w with store }).2.below.queue.drop (before ++ after).length))
      (World.run (e.handle p) { w with store }).2

/-- Steps one after the other. -/
inductive Run (e : Engine) : World (Flaky σ) → List Label → World (Flaky σ) → Prop
  | nil (w : World (Flaky σ)) : Run e w [] w
  | snoc {w w' w'' : World (Flaky σ)} {ds : List Label} {d : Label} (hrun : Run e w ds w')
    (hstep : Step e w' d w'') : Run e w (ds ++ [d]) w''

end Flaky

theorem Engine.handle_yields {e : Engine} (hcells : ∀ cell ∈ e.registry.cells, cell.Orderly)
    {p : Payload} (hp : p.Recorded) (w : World (Flaky σ)) :
    Marked p.context (fun failure =>
        (w.run (e.retrying (e.process p)).run).1 = .error (.cell failure)) w.scene
        (w.run (e.handle p)).2.scene ∧
      ∀ tree attempts, (w.run (e.retrying (e.process p)).run).1 =
          .error (.cell (.budgetExhausted tree attempts)) →
        Event.budgetExhausted tree attempts ∈ (w.run (e.handle p)).2.events := by
  have hprocess :=
    process_yields hcells hp (w.run_yields (e.retrying (e.process p)).run).of_withRetries
  have hhandle : w.run (e.handle p) = _ := World.run_bind _ _ w
  rw [hhandle]
  generalize w.run (e.retrying (e.process p)).run = processed at hprocess ⊢
  obtain ⟨failure | outcome, v⟩ := processed
  · obtain ⟨hquiet, hexhausted⟩ := announce_yields (v.run_yields (announce p failure))
    exact ⟨hprocess.trans_quiet hquiet, fun tree attempts h =>
      hexhausted tree attempts (Except.error.inj h)⟩
  · exact ⟨hprocess, fun _ _ h => nomatch h⟩

theorem Accounted.empty {w : World (Flaky σ)} (h : w.below.contents = Contents.empty) :
    Accounted [] w.scene := by
  have htext (k : Key) : w.scene.text k = none := congrFun (congrArg Contents.text h) _
  have hqueue : w.scene.queue = [] := congrFun (congrArg Contents.list h) _
  refine ⟨fun item hitem => ?_, fun k _ hsome => ?_, fun _ _ _ _ hmem => nomatch hmem⟩
  · rw [hqueue] at hitem
    exact nomatch hitem
  · rw [htext k] at hsome
    exact nomatch hsome

theorem Flaky.Step.accounted {e : Engine} (hcells : ∀ cell ∈ e.registry.cells, cell.Orderly)
    {w w' : World (Flaky σ)} {ds : List Label} {d : Label} (h : Accounted ds w.scene)
    (hstep : Flaky.Step e w d w') : Accounted (ds ++ [d]) w'.scene := by
  cases hstep with
  | @accept submission _ store hstore =>
    have hsame : World.scene { w with store } = w.scene :=
      congrArg (fun contents => Scene.mk ⟨contents, w.minted⟩ w.events) hstore
    refine Accounted.accept (hsame ▸ h) ?_ submission _
    exact Engine.accept_yields (World.run_yields _ _).of_withRetries
  | @process _ store before after item p hqueue hstore hread =>
    have hleft : World.scene { w with store } = w.scene.leave (before ++ after) :=
      congrArg (fun contents => Scene.mk ⟨contents, w.minted⟩ w.events) hstore
    have hlength : (World.scene { w with store }).queue = before ++ after :=
      hleft ▸ w.scene.leave_queue _
    have hqueue : w.scene.queue = before ++ item :: after := hqueue
    obtain ⟨q, rfl, hq⟩ := h.queue item (hqueue ▸ List.mem_append_right _ List.mem_cons_self)
    obtain rfl := Option.mem_unique (Payload.decode?_encode q) hread
    obtain ⟨hmarked, hexhausted⟩ := Engine.handle_yields hcells hq { w with store }
    rw [← hlength]
    exact Accounted.process (hleft ▸ h.leave hqueue) hmarked hexhausted

theorem Flaky.Run.accounted {e : Engine} (hcells : ∀ cell ∈ e.registry.cells, cell.Orderly)
    {w₀ w : World (Flaky σ)} {ds : List Label} (h₀ : w₀.below.contents = Contents.empty)
    (hrun : Flaky.Run e w₀ ds w) : Accounted ds w.scene := by
  induction hrun with
  | nil => exact .empty h₀
  | snoc _ hstep ih => exact hstep.accounted hcells ih

/-! ## Lost answers -/

section

open SelfWiring.Action

variable {w : World (Flaky σ)} {ctx : Context} {tree session : String} {failure : StoreError}

theorem Cell.deliver_comes_to_failure (policy : RetryPolicy) (hsession : ctx.session = some session)
    (htree : ctx.tree = some tree) (hne : tree ≠ "") (hdone : w.below.text (.done tree) = none)
    (hclaimed : w.store.failures w.store.calls = none)
    (hfails : w.store.failures (w.store.calls + 1) = some failure)
    (hlasting : ∀ reason, failure ≠ .transient reason) (output : String) :
    ∃ below, FaultFree.contents below =
        w.below.contents.putText (Key.done tree).render (countText 1) ∧
      Comes policy (deliver ctx output) w (.error (.store failure)) (w.after below 2) := by
  obtain ⟨below, hbelow, hincr⟩ := comes_call_of_none policy hclaimed
    (FaultFree.incr (Key.done tree).render w.store.below)
  have hcount : nextCount ((FaultFree.contents w.store.below).text (Key.done tree).render) = 1 := by
    rw [show (FaultFree.contents w.store.below).text (Key.done tree).render = none from hdone]
    rfl
  rw [hcount] at hbelow hincr
  refine ⟨below, hbelow, ?_⟩
  unfold deliver claimAnswer
  rw [hsession, htree]
  simp only [Option.getD_some, if_neg hne]
  have hclaim : Comes policy (Graph.completeTree tree) w (.ok true) (w.after below 1) :=
    hincr.bind (comes_pure true _)
  refine (hclaim.adapt _).bind ?_
  have hpush := comes_call_of_some policy (.push (Key.outputs session).render output)
    (w := w.after below 1) hfails hlasting
  exact (hpush.adapt _).bind_error

theorem Cell.output_comes_to_failure (policy : RetryPolicy) (limit : UInt32)
    (hsession : ctx.session = some session) (htree : ctx.tree = some tree) (hne : tree ≠ "")
    (hdone : w.below.text (.done tree) = none) {v : Value}
    (hmet : ctx.expectation.all (· == v.display) = true)
    (hlooked : w.store.failures w.store.calls = none)
    (hclaimed : w.store.failures (w.store.calls + 1) = none)
    (hfails : w.store.failures (w.store.calls + 2) = some failure)
    (hlasting : ∀ reason, failure ≠ .transient reason) (vs : List Value) :
    ∃ below, FaultFree.contents below =
        w.below.contents.putText (Key.done tree).render (countText 1) ∧
      Comes policy ((output limit).call ctx (v :: vs)) w (.error (.store failure))
        (w.after below 3) := by
  obtain ⟨below, hbelow, hget⟩ := comes_call_of_none policy hlooked
    (FaultFree.get (Key.done tree).render w.store.below)
  rw [show (FaultFree.contents w.store.below).text (Key.done tree).render = none from hdone] at hget
  have hanswered : Comes policy (isAnswered ctx) w (.ok false) (w.after below 1) := by
    unfold isAnswered
    rw [htree]
    exact (hget.observe.bind (comes_pure none _)).bind (comes_pure false _)
  have hdone' : (w.after below 1).below.text (.done tree) = none :=
    (congrFun (congrArg Contents.text hbelow) _).trans hdone
  obtain ⟨below', hbelow', hdeliver⟩ :=
    deliver_comes_to_failure policy hsession htree hne hdone' hclaimed hfails hlasting v.display
  refine ⟨below', hbelow'.trans ?_, (hanswered.adapt _).bind ?_⟩
  · exact congrArg (Contents.putText · (Key.done tree).render (countText 1)) hbelow
  · show Comes policy (conclude limit ctx v.display) _ _ _
    unfold conclude
    rw [if_pos hmet]
    exact hdeliver.bind_error

/-- A cell that fails with its calls retried makes processing fail. -/
theorem Engine.process_comes_to_failure {τ : Type} [Store τ] {policy : RetryPolicy} {e : Engine}
    {p : Payload} {cell : Cell} {w v : World τ} {failure : CellError}
    (hcell : e.cellFor p = .ok cell) (haccepted : cell.signature.accepts p.args = true)
    (h : Comes policy (cell.call p.context p.args) w (.error failure) v) :
    Comes policy (e.process p) w (.error (.cell failure)) v := by
  refine (comes_ofExcept hcell w).bind ?_
  refine (comes_ofExcept (activate_of_accepts haccepted) w).bind ?_
  have hfails : Comes policy (Action.ofCell (cell.call p.context p.args)) w
      (.error (.cell failure)) v := h.adapt EngineError.cell
  exact hfails.bind_error.bind_error

/-- The delivery of an answer fails when the tree is marked as done already. The mark stays, nothing
is delivered, and nothing is queued that could make up for it. -/
theorem answer_lost_of_failure {e : Engine} {limit : UInt32} {p : Payload} {v : Value}
    (hcell : e.cellFor p = .ok (.output limit)) (hargs : p.args = [v])
    (hsession : p.context.session = some session) (htree : p.context.tree = some tree)
    (hne : tree ≠ "") (hmet : p.context.expectation.all (· == v.display) = true)
    (hdone : w.below.text (.done tree) = none)
    (hlooked : w.store.failures w.store.calls = none)
    (hclaimed : w.store.failures (w.store.calls + 1) = none)
    (hfails : w.store.failures (w.store.calls + 2) = some failure)
    (hlasting : ∀ reason, failure ≠ .transient reason) :
    (w.run (e.retrying (e.process p)).run).1 = .error (.cell (.store failure)) ∧
      (w.run (e.handle p)).2.below.contents =
        w.below.contents.putText (Key.done tree).render (countText 1) ∧
      (w.run (e.handle p)).2.events =
        w.events ++ [.dropped p.destination (p.context.cell.getD "?") failure.message] := by
  obtain ⟨below, hbelow, hcall⟩ := Cell.output_comes_to_failure e.config.retryPolicy limit hsession
    htree hne hdone hmet hlooked hclaimed hfails hlasting []
  rw [← hargs] at hcall
  have haccepted : (Cell.output limit).signature.accepts p.args = true := by
    rw [hargs]
    rfl
  have hprocess := Engine.process_comes_to_failure hcell haccepted hcall
  have hprocess : w.run (e.retrying (e.process p)).run = _ := hprocess
  have hhandle : w.run (e.handle p) = _ := World.run_bind _ _ w
  rw [hhandle, hprocess]
  exact ⟨rfl, hbelow, rfl⟩

/-- An answer that is alone in the queue can be lost in the next step, whatever was done before. -/
theorem Flaky.Step.exists_lost {e : Engine} {limit : UInt32} {p : Payload} {v : Value}
    (hqueue : w.below.queue = [p.encode]) (hcell : e.cellFor p = .ok (.output limit))
    (hargs : p.args = [v]) (hsession : p.context.session = some session)
    (htree : p.context.tree = some tree) (hne : tree ≠ "")
    (hmet : p.context.expectation.all (· == v.display) = true)
    (hdone : w.below.text (.done tree) = none) :
    ∃ w', Flaky.Step e w (.processed p (.error (.cell (.store (.backend "full")))) []) w' ∧
      (w'.below.text (.done tree)).isSome = true ∧
      (∀ session, w'.below.outputs session = w.below.outputs session) ∧ w'.below.queue = [] := by
  obtain ⟨-, hpopped⟩ := exists_popped hqueue
  let store : Flaky σ :=
    { below := (Store.perform (.pop Key.eventQueue.render) w.store.below).2
      failures := fun k => if k = 2 then some (.backend "full") else none }
  have hdone' : World.text (World.below { w with store }) (.done tree) = none :=
    (congrFun (congrArg Contents.text hpopped) _).trans hdone
  obtain ⟨hresult, hcontents, -⟩ := answer_lost_of_failure (w := { w with store }) hcell hargs
    hsession htree hne hmet hdone' rfl rfl rfl fun _ h => nomatch h
  have hlist (key : String) :
      (World.run (e.handle p) { w with store }).2.below.contents.list key =
        (w.below.contents.putList Key.eventQueue.render []).list key := by
    rw [hcontents]
    exact congrFun (congrArg Contents.list hpopped) key
  have hempty : (World.run (e.handle p) { w with store }).2.below.queue = [] :=
    (hlist _).trans (by simp [Contents.putList])
  have hstep : Flaky.Step e w _ _ :=
    .process store (p := p) (show w.below.queue = [] ++ p.encode :: [] from hqueue) hpopped
      (Payload.decode?_encode p)
  rw [hresult, hempty] at hstep
  refine ⟨_, hstep, ?_, fun session => ?_, hempty⟩
  · show ((World.run (e.handle p) { w with store }).2.below.contents.text _).isSome = true
    rw [hcontents]
    simp [Contents.putText]
  · exact (hlist _).trans
      (Function.update_of_ne (Scene.outputs_ne_eventQueue session) [] w.below.contents.list)

/-- Where no call fails, a submission is accepted. -/
theorem Flaky.Step.exists_accepted (e : Engine) (h₀ : w.below.Empty) (hreliable : w.store.Reliable)
    (s : Submission) : ∃ w' id i b, Flaky.Step e w (.accepted s (.ok w.below.net.fresh)) w' ∧
      w'.below.queue = [(Engine.firstPayload s id w.below.net.fresh i b).encode] ∧
      w'.below.text (.done w.below.net.fresh) = none ∧
      ∀ session, w'.below.outputs session = [] := by
  obtain ⟨hresult, hbelow⟩ := w.run_of_reliable (e.retrying (Engine.accept s)).run hreliable
  obtain ⟨haccepted, hnet⟩ := Action.ensures_withRetries e.config.retryPolicy
    (Engine.accept_reaches s w.below.net) w.below rfl
  have hstep : Flaky.Step e w (.accepted s (w.run (e.retrying (Engine.accept s)).run).1)
    (w.run (e.retrying (Engine.accept s)).run).2 := .accept s w.store rfl
  have hresult := hresult.trans haccepted
  have hnet := (congrArg World.net hbelow).trans hnet
  rw [hresult] at hstep
  obtain ⟨hneutral, -, id, i, b, hqueue⟩ := w.below.net.accept_announced s
  rw [← hnet] at hneutral hqueue
  rw [h₀.net_queue] at hqueue
  refine ⟨_, id, i, b, hstep, hqueue, ?_, fun session => ?_⟩
  · have htext := hneutral.counters (.done w.below.net.fresh) trivial
    rw [h₀.net_text, World.net_text _ (.done _) trivial] at htext
    exact htext
  · refine (congrFun hneutral.outputs session).trans ?_
    exact congrFun (congrArg Contents.list h₀.contents) _

end

theorem exists_run_lost {config : Config} {e : Engine}
    (he : Engine.assemble { config, cells := some (Cell.standard config) } = .ok e) :
    ∃ (w₀ w : World (Flaky Memory)) (s : Submission) (p : Payload) (tree : String),
      w₀.below.contents = Contents.empty ∧
      Flaky.Run e w₀ [.accepted s (.ok tree),
        .processed p (.error (.cell (.store (.backend "full")))) []] w ∧
      (w.below.text (.done tree)).isSome = true ∧ (∀ session, w.below.outputs session = []) ∧
      w.below.queue = [] := by
  let s : Submission := { input := "5", echo := true, session := "a" }
  let w₀ : World (Flaky Memory) :=
    { store := { below := {}, failures := fun _ => none }, generator := .ofSeed 0 }
  obtain ⟨w₁, id, i, b, hstep₁, hqueue, hdone, houtputs⟩ :=
    Flaky.Step.exists_accepted e (w := w₀) (World.empty_inMemory 0) (fun _ _ => rfl) s
  have hcell : e.cellFor (Engine.firstPayload s id w₀.below.net.fresh i b) =
      .ok (.output config.maxRetraversals) := by
    have houtput : Cell.output config.maxRetraversals ∈ Cell.standard config := by
      simp [Cell.standard]
    have hget : e.registry.get? Cell.outputName = some (.output config.maxRetraversals) :=
      Engine.get?_of_assembled he houtput
    simp only [Engine.cellFor, Engine.firstPayload, Engine.entryCell, s, hget, if_true]
  obtain ⟨w, hstep₂, hmarked, hkept, hempty⟩ := Flaky.Step.exists_lost hqueue hcell rfl rfl rfl
    (Identifier.render_ne_empty _) rfl hdone
  exact ⟨w₀, w, s, _, _, rfl, ((Flaky.Run.nil w₀).snoc hstep₁).snoc hstep₂, hmarked,
    fun session => (hkept session).trans (houtputs session), hempty⟩

/-! ## What is behind a mark -/

/-- In every run from an empty store, whichever calls fail, a tree is marked as done only where its
answer was delivered to its session, or where a payload of the tree failed with an error of the
store. A walk is marked as missed only where a payload of the walk queued the restart, or was told
that no restart is left, or failed with an error of the store. -/
theorem marks_honoured_or_failed {config : Config} {e : Engine}
    (he : Engine.assemble { config, cells := some (Cell.standard config) } = .ok e)
    {w₀ w : World (Flaky σ)} {ds : List Label} (h₀ : w₀.below.contents = Contents.empty)
    (hrun : Flaky.Run e w₀ ds w) :
    (∀ tree, (w.below.text (.done tree)).isSome = true → ∃ p result queued,
      .processed p result queued ∈ ds ∧ p.context.tree = some tree ∧
        ((∃ session output, p.context.session = some session ∧
            Event.emitted session tree output ∈ w.events ∧ output ∈ w.below.outputs session) ∨
          ∃ failure, result = .error (.cell (.store failure)))) ∧
    ∀ tree pass, (w.below.text (.misses tree pass)).isSome = true → ∃ p result queued,
      .processed p result queued ∈ ds ∧ p.context.tree = some tree ∧ p.context.pass = pass ∧
        ((∃ attempt, result = .error (.cell (.expectationNotMet tree attempt)) ∧ ∃ q : Payload,
            q.encode ∈ queued ∧ q.context.tree = some tree ∧ q.context.pass = pass + 1) ∨
          (∃ attempts, result = .error (.cell (.budgetExhausted tree attempts)) ∧
            Event.budgetExhausted tree attempts ∈ w.events) ∨
          ∃ failure, result = .error (.cell (.store failure))) := by
  have hcells : ∀ cell ∈ e.registry.cells, cell.Orderly := fun cell hcell =>
    Cell.standard_orderly (((Engine.assemble_eq_ok he).2 cell).mp hcell)
  have haccounted := hrun.accounted hcells h₀
  refine ⟨fun tree hdone => haccounted.marks (.done tree) trivial hdone, ?_⟩
  intro tree pass hmisses
  obtain ⟨p, result, queued, hmem, htree, hpass, hhonoured⟩ :=
    haccounted.marks (.misses tree pass) trivial hmisses
  refine ⟨p, result, queued, hmem, htree, hpass, hhonoured.imp_right (Or.imp_left ?_)⟩
  rintro ⟨attempts, rfl⟩
  exact ⟨attempts, rfl, haccounted.exhausted p queued tree attempts hmem⟩

/-- A run in which a mark stands for nothing but a failure. -/
theorem marks_honoured_or_failed_of_failure : ∃ (e : Engine) (w₀ w : World (Flaky Memory))
    (ds : List Label) (tree : String),
    Engine.assemble { cells := some (Cell.standard {}) } = .ok e ∧
      w₀.below.contents = Contents.empty ∧ Flaky.Run e w₀ ds w ∧
      (w.below.text (.done tree)).isSome = true ∧ ∃ p result queued,
        .processed p result queued ∈ ds ∧ p.context.tree = some tree ∧
          ((∃ session output, p.context.session = some session ∧
              Event.emitted session tree output ∈ w.events ∧ output ∈ w.below.outputs session) ∨
            ∃ failure, result = .error (.cell (.store failure))) := by
  obtain ⟨e, he⟩ := Engine.exists_standard {} rfl
  obtain ⟨w₀, w, s, p, tree, h₀, hrun, hdone, -, -⟩ := exists_run_lost he
  exact ⟨e, w₀, w, _, tree, he, h₀, hrun, hdone, (marks_honoured_or_failed he h₀ hrun).1 tree hdone⟩

/-- A tree is marked as done, its answer was delivered to no session, and nothing is left to do. -/
theorem answer_lost : ∃ (e : Engine) (w₀ w : World (Flaky Memory)) (ds : List Label)
    (tree : String),
    Engine.assemble { cells := some (Cell.standard {}) } = .ok e ∧
      w₀.below.contents = Contents.empty ∧ Flaky.Run e w₀ ds w ∧
      (w.below.text (.done tree)).isSome = true ∧ (∀ session, w.below.outputs session = []) ∧
      w.below.queue = [] := by
  obtain ⟨e, he⟩ := Engine.exists_standard {} rfl
  obtain ⟨w₀, w, s, p, tree, h₀, hrun, hdone, houtputs, hqueue⟩ := exists_run_lost he
  exact ⟨e, w₀, w, _, tree, he, h₀, hrun, hdone, houtputs, hqueue⟩

end SelfWiring
