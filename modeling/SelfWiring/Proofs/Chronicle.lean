import SelfWiring.Proofs.Effects

/-!
# What the traces tell of a run

The trace of a tree is a log that is written as the payloads of the tree are processed. Over a whole
run it comes to exactly the edges of the payloads that were processed without a failure, each
entered once. Every one of them begins at the submission of the tree, follows a connection, or goes
back from a missed expectation to where the tree begins.
-/

namespace SelfWiring

variable {σ : Type} [Store σ] [FaultFree σ]

/-! ## Runs that take payloads by removal alone -/

/-- A step that takes its payload by removing it from the queue, and changes nothing else by that,
the sorted sets included. -/
inductive StepByRemoval (e : Engine) : World σ → Label → World σ → Prop
  | accept (s : Submission) (w : World σ) :
    StepByRemoval e w (.accepted s (w.run (e.retrying (Engine.accept s)).run).1)
      (w.run (e.retrying (Engine.accept s)).run).2
  | process {w : World σ} {store : σ} {before after : List String} {item : String} {p : Payload}
    (hqueue : w.queue = before ++ item :: after)
    (hstore : FaultFree.contents store = w.contents.putList Key.eventQueue.render (before ++ after))
    (hsorted : ranking store = ranking w.store) (hread : Payload.decode? item = some p) :
    StepByRemoval e w
      (.processed p (World.run (e.retrying (e.process p)).run { w with store }).1
        ((World.run (e.handle p) { w with store }).2.queue.drop (before ++ after).length))
      (World.run (e.handle p) { w with store }).2

inductive RunByRemoval (e : Engine) : World σ → List Label → World σ → Prop
  | nil (w : World σ) : RunByRemoval e w [] w
  | snoc {w w' w'' : World σ} {ds : List Label} {d : Label} (hrun : RunByRemoval e w ds w')
    (hstep : StepByRemoval e w' d w'') : RunByRemoval e w (ds ++ [d]) w''

section

variable {e : Engine} {w w' : World σ} {d : Label} {ds : List Label}

theorem StepByRemoval.step (h : StepByRemoval e w d w') : Step e w d w' := by
  cases h with
  | accept s => exact .accept s w
  | process hqueue hstore _ hread => exact .process hqueue hstore hread

theorem RunByRemoval.run (h : RunByRemoval e w ds w') : Run e w ds w' := by
  induction h with
  | nil => exact .nil w
  | snoc _ hstep ih => exact ih.snoc hstep.step

/-- A worker takes the head of the queue by removing it. -/
theorem StepByRemoval.exists_processed [Sorting σ] (e : Engine) {p : Payload}
    {after : List String} (hqueue : w.queue = p.encode :: after) :
    ∃ result queued w', StepByRemoval e w (.processed p result queued) w' := by
  have hsplit : w.queue = [] ++ p.encode :: after := hqueue
  exact ⟨_, _, _, .process hsplit (exists_popped hqueue).2
    (Sorting.kept (c := .pop _) trivial w.store) (Payload.decode?_encode p)⟩

end

/-! ## What is entered -/

/-- The edge of a payload of a tree that was processed without a failure. -/
def Label.edge? (tree : String) : Label → Option String
  | .processed p (.ok _) _ => if p.context.tree = some tree then some (Graph.edge p) else none
  | _ => none

theorem Label.edge?_eq_some {tree edge : String} {d : Label} : d.edge? tree = some edge ↔
    ∃ p outcome queued, d = .processed p (.ok outcome) queued ∧ p.context.tree = some tree ∧
      Graph.edge p = edge := by
  constructor
  · intro h
    unfold edge? at h
    split at h
    case h_1 p outcome queued =>
      obtain ⟨htree, hedge⟩ := Option.ite_none_right_eq_some.mp h
      exact ⟨p, outcome, queued, rfl, htree, Option.some.inj hedge⟩
    case h_2 => exact nomatch h
  · rintro ⟨p, outcome, queued, rfl, htree, rfl⟩
    exact if_pos htree

section

variable [SeparateRankings σ] {e : Engine} {w w' : World σ} {d : Label} {ds : List Label}

/-- A step enters the edge of its payload, if there is one that did not fail, and nothing else. -/
theorem StepByRemoval.mem_edges {born : String → Submission → Prop}
    (hcells : ∀ cell ∈ e.registry.cells, cell.Ageless) (hinv : Inv σ e.registry born w.net)
    (h : StepByRemoval e w d w') (tree edge : String) :
    edge ∈ w'.edges tree ↔ edge ∈ w.edges tree ∨ d.edge? tree = some edge := by
  cases h with
  | accept s =>
    rw [Engine.accept_same World.edges_answer e s w]
    simp [Label.edge?]
  | @process _ store before after item p hqueue hstore hsorted hread =>
    obtain ⟨-, own, s, -, hsound⟩ := hinv.exists_sound hqueue hread
    have hown := hsound.tree
    have htaken : World.edges { w with store } = w.edges := World.edges_congr hsorted
    rw [Engine.handle_edges hcells hown, htaken, Engine.run_retrying]
    cases (World.run (e.process p).run { w with store }).1 with
    | error failure => simp [Label.edge?, Except.isOk, Except.toBool]
    | ok outcome =>
      show edge ∈ addEdge w.edges own p.hop.edge tree ↔ _
      have hedge : Label.edge? tree (.processed p (.ok outcome) []) = some edge ↔
          tree = own ∧ edge = p.hop.edge := by
        rw [Label.edge?, hown, Option.ite_none_right_eq_some, Option.some.injEq, Option.some.injEq,
          Graph.edge_eq, eq_comm, @eq_comm _ p.hop.edge]
      exact mem_addEdge.trans (or_congr_right hedge.symm)

/-- No step enters anything twice. -/
theorem StepByRemoval.nodup {born : String → Submission → Prop}
    (hcells : ∀ cell ∈ e.registry.cells, cell.Ageless) (hinv : Inv σ e.registry born w.net)
    (h : StepByRemoval e w d w') (key : String)
    (hnodup : ((w.rankings key).map (·.1)).Nodup) :
    ((w'.rankings key).map (·.1)).Nodup := by
  cases h with
  | accept s =>
    rw [Engine.accept_same World.rankings_answer e s w]
    exact hnodup
  | @process _ store before after item p hqueue hstore hsorted hread =>
    obtain ⟨-, own, s, -, hsound⟩ := hinv.exists_sound hqueue hread
    have htaken : World.rankings { w with store } = w.rankings := hsorted
    refine (Engine.handle_changesOneRanking hcells hsound.tree { w with store }).once key ?_
    rw [htaken]
    exact hnodup

/-- Over a run, a trace comes to the edges of the payloads that were processed, each once. -/
theorem RunByRemoval.chronicle (hs : e.Serves σ fun n m => m = n)
    (hcells : ∀ cell ∈ e.registry.cells, cell.Ageless) (h₀ : w.Empty)
    (hbare : w.rankings = fun _ => []) (h : RunByRemoval e w ds w') (tree : String) :
    ((w'.rankings (Key.trace tree).render).map (·.1)).Perm
      (ds.filterMap (Label.edge? tree)).dedup := by
  have hentered : (∀ edge, edge ∈ w'.edges tree ↔ edge ∈ ds.filterMap (Label.edge? tree)) ∧
      ((w'.rankings (Key.trace tree).render).map (·.1)).Nodup := by
    induction h with
    | nil =>
      have hnone : ranking w.store (Key.trace tree).render = [] := congrFun hbare _
      refine ⟨fun edge => ?_, ?_⟩
      · rw [World.mem_edges, hnone]
        rfl
      · rw [hbare]
        exact List.nodup_nil
    | snoc hrun hstep ih =>
      obtain ⟨hmem, hnodup⟩ := ih
      have hinv := run_inv hs h₀ hrun.run
      refine ⟨fun edge => ?_, hstep.nodup hcells hinv _ hnodup⟩
      rw [hstep.mem_edges hcells hinv, hmem, List.filterMap_append, List.mem_append]
      simp
  obtain ⟨hmem, hnodup⟩ := hentered
  refine (List.perm_ext_iff_of_nodup hnodup (List.nodup_dedup _)).mpr fun edge => ?_
  rw [List.mem_dedup, ← hmem, World.mem_edges]
  rfl

end

/-! ## Where payloads come from -/

/-- A payload of a tree comes from the submission of the tree, from a behaviour that its own is
connected to, or from one where a missed expectation began the tree anew. -/
inductive Payload.Arrives (n : Net) (ds : List Label) (tree : String) (p : Payload) : Prop
  | submitted (hfirst : n.text (.firstBehaviour tree) = some p.destination)
    (hsource : p.sources = [])
  | connected {b : String} {behaviours : List String} (hnext : n.next b = some behaviours)
    (hmem : p.destination ∈ behaviours) (hsource : p.sources = [b])
  | restarted {q : Payload} {attempt : Int64}
    (hfirst : n.text (.firstBehaviour tree) = some p.destination)
    (hbinding : n.text (.binding q.destination) = some Cell.outputName)
    (hqueued : .processed q (.error (.cell (.expectationNotMet tree attempt))) [p.encode] ∈ ds)
    (htree : q.context.tree = some tree) (hsource : p.sources = [q.destination])

section

variable {e : Engine} {n m : Net} {ds ds' : List Label} {tree : String} {p : Payload}

theorem Payload.Arrives.mono (hgrows : n.Grows m) (hds : ds ⊆ ds') (h : p.Arrives n ds tree) :
    p.Arrives m ds' tree := by
  cases h with
  | submitted hfirst hsource => exact .submitted (hgrows.firstBehaviour hfirst) hsource
  | connected hnext hmem hsource => exact .connected (hgrows.next _ _ hnext) hmem hsource
  | restarted hfirst hbinding hqueued htree hsource =>
    exact .restarted (hgrows.firstBehaviour hfirst) (hgrows.binding hbinding) (hds hqueued) htree
      hsource

/-- What is queued when a payload is processed: payloads for the behaviours that its own is
connected to, or the one with which its tree begins anew. -/
theorem Engine.Processed.exists_queued {born : String → Submission → Prop}
    (hinv : Inv σ e.registry born n) {name : String} {cell : Cell} {s : Submission}
    {r : Except EngineError Outcome} (hsound : Sound σ e.registry n tree s p)
    (hbinding : n.text (.binding p.destination) = some name)
    (hcell : e.registry.get? name = some cell)
    (h : Processed σ e (fun n m => m = n) n p cell tree s.session r m) :
    ∃ qs : List Payload, m.queue = n.queue ++ qs.map Payload.encode ∧ ∀ q ∈ qs,
      q.context.tree = some tree ∧ q.sources = [p.destination] ∧
        ((∃ behaviours, m.next p.destination = some behaviours ∧ q.destination ∈ behaviours) ∨
          ∃ attempt, r = .error (.cell (.expectationNotMet tree attempt)) ∧ qs = [q] ∧
            n.text (.firstBehaviour tree) = some q.destination ∧ name = Cell.outputName) := by
  cases h with
  | objected _ hm | ended _ hm => exact ⟨[], by simp [hm], by simp⟩
  | @passedOn m₀ m₁ results behaviours _ hm hterminal hyields hconnected =>
    obtain rfl : m₀ = n := hm
    obtain ⟨-, -, hnext⟩ := hinv.connected hbinding hcell hterminal hyields.kinds hconnected
    obtain ⟨-, hkept, -, qs, hqueue, hqs, -⟩ :=
      m₁.queueAll_payloads { p with args := results } p.destination behaviours
    refine ⟨qs, ?_, fun q hq => ?_⟩
    · rw [Net.close_queue, hqueue, (Net.onlyLearns_connected hconnected).queue]
    · obtain ⟨b, hb, id, rfl⟩ := hqs q hq
      refine ⟨hsound.tree, rfl, .inl ⟨behaviours, ?_, hb⟩⟩
      rw [(Net.alike_close _ _ _).next, hkept]
      exact hnext
  | concluded hcell' _ hconcluded =>
    have hname : name = Cell.outputName := by
      rw [← Registry.name_of_get? hcell, hcell']
      rfl
    cases hconcluded with
    | answered | delivered | passedOver | exhausted =>
      exact ⟨[], by simp [Net.count], by simp⟩
    | restarted _ _ _ _ hinformation htext hfirst hcell =>
      refine ⟨[_], rfl, fun q hq => ?_⟩
      rw [List.mem_singleton.mp hq]
      refine ⟨hsound.tree, ?_, .inr ⟨_, rfl, rfl, hfirst, hname⟩⟩
      show p.context.behaviour.toList = _
      rw [hsound.behaviour]
      rfl

/-- Whatever is queued or was processed came from somewhere. -/
structure Net.Accounted (n : Net) (ds : List Label) : Prop where
  queued : ∀ p tree, Payload.encode p ∈ n.queue → p.context.tree = some tree → p.Arrives n ds tree
  processed : ∀ p r queued tree, .processed p r queued ∈ ds → p.context.tree = some tree →
    p.Arrives n ds tree

/-- A step keeps the account when what it adds to the queue comes from somewhere, and what it
processes was in the queue. -/
theorem Net.Accounted.snoc {d : Label} (h : n.Accounted ds) (hgrows : n.Grows m)
    (hadded : ∀ p tree, Payload.encode p ∈ m.queue → p.context.tree = some tree →
      p.encode ∈ n.queue ∨ p.Arrives m (ds ++ [d]) tree)
    (htaken : ∀ p r queued, .processed p r queued = d → p.encode ∈ n.queue) :
    m.Accounted (ds ++ [d]) := by
  have hds : ds ⊆ ds ++ [d] := List.subset_append_left ds [d]
  refine ⟨fun p tree hp htree => ?_, fun p r queued tree hp htree => ?_⟩
  · rcases hadded p tree hp htree with hp | harrives
    · exact (h.queued p tree hp htree).mono hgrows hds
    · exact harrives
  · rcases List.mem_append.mp hp with hp | hp
    · exact (h.processed p r queued tree hp htree).mono hgrows hds
    · have hp := htaken p r queued (List.mem_singleton.mp hp)
      exact (h.queued p tree hp htree).mono hgrows hds

/-- The first payload of a tree comes from its submission. -/
theorem Net.exists_arrives_accept {born : String → Submission → Prop} {s : Submission}
    (ds : List Label) (hinv : Inv σ e.registry born (n.accept s)) (hborn : born n.fresh s) :
    ∃ q : Payload, (n.accept s).queue = n.queue ++ [q.encode] ∧
      q.context.tree = some n.fresh ∧ q.Arrives (n.accept s) ds n.fresh := by
  obtain ⟨-, q, hqueue, htree, -, hhop⟩ := n.accept_hops s
  obtain ⟨-, -, b, hfirst, -⟩ := hinv.planted _ _ hborn
  refine ⟨q, hqueue, htree, .submitted ?_ (congrArg Hop.sources hhop)⟩
  have hdestination : q.destination = ((n.accept s).text (.firstBehaviour n.fresh)).getD "" :=
    congrArg Hop.destination hhop
  rw [hdestination, hfirst]
  rfl

theorem Net.Accounted.moves {d : Label} (hs : e.Serves σ fun n m => m = n)
    (hinv : Inv σ e.registry (Born ds) n) (h : n.Accounted ds)
    (hmoves : Moves σ e (fun n m => m = n) (Born ds) n d m) : m.Accounted (ds ++ [d]) := by
  obtain ⟨hinv', hgrows⟩ := hinv.moves hs hmoves
  cases hmoves with
  | accept s =>
    obtain ⟨q, hqueue, htree, harrives⟩ := exists_arrives_accept (ds ++ [_]) hinv'
      ((born_accepted _ _).mpr (.inr ⟨rfl, rfl⟩))
    refine h.snoc hgrows (fun p tree hp hown => ?_) fun _ _ _ hp => absurd hp (by simp)
    rw [hqueue, List.mem_append, List.mem_singleton] at hp
    refine hp.imp_right fun hp => ?_
    obtain rfl := Payload.encode_inj.mp hp
    obtain rfl := Option.mem_unique hown htree
    exact harrives
  | @process before after p own name s cell result m' hqueue hborn hsound hbinding hcell
      hprocessed =>
    have hrequeued := hinv.alike (alike_requeue hqueue)
    obtain ⟨qs, hqueue', hqs⟩ := hprocessed.exists_queued hrequeued hsound hbinding hcell
    have hqueue' : (m'.report p result).queue = before ++ after ++ qs.map Payload.encode :=
      (report_queue m' p result).trans hqueue'
    rw [hqueue', List.drop_left]
    refine h.snoc hgrows (fun q tree hq hown => ?_) fun q r queued hq => ?_
    · rw [hqueue', List.mem_append] at hq
      refine hq.imp (mem_of_requeued hqueue) fun hq => ?_
      obtain ⟨htree, hsource, hwhence⟩ := hqs q (encode_mem_map.mp hq)
      obtain rfl := Option.mem_unique hown htree
      rcases hwhence with ⟨behaviours, hnext, hmem⟩ | ⟨attempt, rfl, rfl, hfirst, rfl⟩
      · refine .connected ?_ hmem hsource
        rw [(alike_report _ _ _).next]
        exact hnext
      · exact .restarted (hgrows.firstBehaviour hfirst) (hgrows.binding hbinding)
          (List.mem_append_right _ List.mem_cons_self) hsound.tree hsource
    · obtain ⟨rfl, -, -⟩ := Label.processed.inj hq
      exact hqueue ▸ List.mem_append_right _ List.mem_cons_self

theorem Run.accounted (hs : e.Serves σ fun n m => m = n) {w w' : World σ} (h₀ : w.Empty)
    (h : Run e w ds w') : w'.net.Accounted ds := by
  have hinduct := h.induct hs (P := fun ds n => n.Accounted ds) (Inv.empty h₀ e.registry)
  refine (hinduct ⟨fun p tree hp _ => ?_, fun p r queued tree hp _ => ?_⟩ ?_).2
  · rw [h₀.net_queue] at hp
    exact absurd hp List.not_mem_nil
  · exact absurd hp List.not_mem_nil
  · exact fun ds n d m hinv hn hmoves => hn.moves hs hinv hmoves

end

/-! ## Traces of a run -/

/-- **Traces record what was processed.** The trace of a tree holds the edges of its payloads that
were processed without a failure, each once. Every edge leads from the submission to the first
behaviour of the tree, or along a connection, or from a behaviour of the output cell, where the tree
was restarted, back to the first behaviour. -/
theorem trace_records_processed {σ : Type} [Store σ] [FaultFree σ] [SeparateRankings σ]
    {config : Config} {e : Engine}
    (he : Engine.assemble { config, cells := some (Cell.standard config) } = .ok e)
    {w₀ w : World σ} {ds : List Label} (h₀ : w₀.Empty) (hbare : w₀.rankings = fun _ => [])
    (hrun : RunByRemoval e w₀ ds w) (tree : String) :
    ∃ trace, (w.run (Graph.trace tree).run).1 = .ok trace ∧
      trace.Perm (ds.filterMap (Label.edge? tree)).dedup ∧
      ∀ edge ∈ trace,
        (∃ first, w.text (.firstBehaviour tree) = some first ∧
          edge = Graph.submissionSource ++ ">" ++ first) ∨
        (∃ b b' behaviours, w.connections b = some behaviours ∧ b' ∈ behaviours ∧
          edge = b ++ ">" ++ b') ∨
        ∃ (o first : String) (p q : Payload) (attempt : Int64),
          w.text (.binding o) = some Cell.outputName ∧
          w.text (.firstBehaviour tree) = some first ∧
          .processed p (.error (.cell (.expectationNotMet tree attempt))) [q.encode] ∈ ds ∧
          p.destination = o ∧ p.context.tree = some tree ∧
          q.destination = first ∧ q.context.tree = some tree ∧ q.sources = [o] ∧
          edge = o ++ ">" ++ first := by
  have hs : e.Serves σ fun n m => m = n := Engine.serves_of_standard he
  have hperm := hrun.chronicle hs (Engine.ageless_of_standard he) h₀ hbare tree
  have haccounted := hrun.run.accounted hs h₀
  refine ⟨_, w.run_trace tree, hperm, fun edge hedge => ?_⟩
  -- an edge of the trace is the edge of a payload that was processed
  obtain ⟨d, hd, hedge⟩ := List.mem_filterMap.mp (List.mem_dedup.mp (hperm.mem_iff.mp hedge))
  obtain ⟨q, outcome, queued, rfl, htree, rfl⟩ := Label.edge?_eq_some.mp hedge
  cases haccounted.processed q _ queued tree hd htree with
  | submitted hfirst hsource =>
    refine .inl ⟨q.destination, ?_, ?_⟩
    · exact (w.net_text (.firstBehaviour tree) trivial).symm.trans hfirst
    · rw [Graph.edge_eq, Hop.edge, show q.hop.sources = [] from hsource]
      rfl
  | @connected b behaviours hnext hmem hsource =>
    refine .inr (.inl ⟨b, q.destination, behaviours, hnext, hmem, ?_⟩)
    rw [Graph.edge_eq, Hop.edge, show q.hop.sources = [b] from hsource]
    rfl
  | @restarted p attempt hfirst hbinding hqueued hp hsource =>
    refine .inr (.inr ⟨p.destination, q.destination, p, q, attempt, ?_, ?_, hqueued, rfl, hp, rfl,
      htree, hsource, ?_⟩)
    · exact (w.net_text (.binding p.destination) trivial).symm.trans hbinding
    · exact (w.net_text (.firstBehaviour tree) trivial).symm.trans hfirst
    · rw [Graph.edge_eq, Hop.edge, show q.hop.sources = [p.destination] from hsource]
      rfl

/-- A text that is sent straight to the output cell and delivered from there leaves one edge. -/
theorem trace_records_processed_of_echo : ∃ (e : Engine) (w : World Memory) (tree : String)
    (p : Payload) (queued : List String),
    Engine.assemble { cells := some (Cell.standard {}) } = .ok e ∧
    RunByRemoval e (.inMemory 0)
      [.accepted { input := "hi", session := "a", echo := true } (.ok tree),
        .processed p (.ok .terminated) queued] w ∧
    (w.run (Graph.trace tree).run).1 =
      .ok [Graph.submissionSource ++ ">" ++ p.destination] := by
  obtain ⟨e, he⟩ := Engine.exists_standard {} rfl
  have hs := Engine.serves_of_standard (σ := Memory) he
  have h₀ := World.empty_inMemory 0
  have hbare : (World.inMemory 0).rankings = fun _ => [] := funext fun _ => List.mergeSort_nil
  let s : Submission := { input := "hi", session := "a", echo := true }
  have hstep := StepByRemoval.accept (e := e) s (World.inMemory 0)
  obtain ⟨hresult, hnet⟩ := hstep.step.of_accepted
  rw [hresult] at hstep
  generalize (World.run (e.retrying (Engine.accept s)).run (.inMemory 0)).2 = w₁ at hstep hnet
  have hrun := (RunByRemoval.nil (World.inMemory 0)).snoc hstep
  -- the one payload there is is for the output cell, and no other result is expected
  obtain ⟨-, -, id, i, b, hqueue⟩ := (World.inMemory 0).net.accept_announced s
  rw [h₀.net_queue, List.nil_append, ← hnet] at hqueue
  obtain ⟨result, queued, w, hstep'⟩ := StepByRemoval.exists_processed (w := w₁) e hqueue
  obtain ⟨before, after, r, m, -, hconcluded, rfl, -, -⟩ :=
    (step_moves hs (run_inv hs h₀ hrun.run) hstep'.step).of_output rfl rfl rfl rfl
  obtain rfl : r = .ok [] := by
    cases hconcluded with
    | answered | delivered | passedOver => rfl
    | exhausted _ hmissed | restarted _ hmissed =>
      obtain ⟨x, hx, -⟩ := hmissed
      exact nomatch hx
  have hrun := hrun.snoc hstep'
  obtain ⟨trace, htrace, hperm, -⟩ := trace_records_processed he h₀ hbare hrun _
  refine ⟨e, w, _, _, queued, he, hrun, ?_⟩
  have hedge : (Label.processed (Engine.firstPayload s id (World.inMemory 0).net.fresh i b)
      (.ok .terminated) queued).edge? (World.inMemory 0).net.fresh =
        some (Graph.submissionSource ++ ">" ++ b) := if_pos rfl
  rw [htrace, List.perm_singleton.mp (hperm.trans (.of_eq ?_))]
  exact congrArg (fun x => List.dedup x.toList) hedge

end SelfWiring
