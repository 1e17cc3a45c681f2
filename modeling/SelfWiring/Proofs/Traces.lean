import SelfWiring.Proofs.Hops
import SelfWiring.Proofs.Retried
import SelfWiring.Proofs.Store.Rankings

/-!
# What processing leaves in the traces

The trace of a tree is a set of edges, each from the behaviour that a payload came from to the
behaviour that it was for. A payload that is processed adds the edge of its hop to the trace of its
tree, one that fails adds nothing, and nothing else that an engine does changes a trace.
-/

namespace SelfWiring

variable {σ : Type} [Store σ]

/-- The edges in the trace of a tree. -/
def World.edges (w : World σ) (tree : String) : Set String :=
  {edge | ∃ trace, (w.run (Graph.trace tree).run).1 = .ok trace ∧ edge ∈ trace}

/-- The edge along which a hop goes. -/
def Hop.edge (h : Hop) : String :=
  h.sources.head?.getD Graph.submissionSource ++ ">" ++ h.destination

theorem Graph.edge_eq (p : Payload) : Graph.edge p = p.hop.edge := rfl

/-- Traces with one more edge in that of a tree. -/
def addEdge (traces : String → Set String) (tree edge : String) : String → Set String :=
  Function.update traces tree (insert edge (traces tree))

theorem mem_addEdge {traces : String → Set String} {tree edge other x : String} :
    x ∈ addEdge traces tree edge other ↔ x ∈ traces other ∨ other = tree ∧ x = edge := by
  rw [addEdge, Function.update_apply]
  split
  case isTrue h => simp [h, or_comm]
  case isFalse h => simp [h]

variable [Sorting σ]

namespace World

/-- A trace lists the members of its sorted set. -/
theorem run_trace (w : World σ) (tree : String) : (w.run (Graph.trace tree).run).1 =
    .ok ((ranking w.store (Key.trace tree).render).map (·.1)) := by
  have hcall : (w.run (Action.call (.zrange (Key.trace tree).render)).run).1 =
    .ok (ranking w.store (Key.trace tree).render) := Sorting.zrange _ w.store
  show (w.run (Program.bind (Action.call (.zrange _)).run _)).1 = _
  rw [run_bind, hcall]
  rfl

theorem mem_edges {w : World σ} {tree edge : String} :
    edge ∈ w.edges tree ↔ edge ∈ (ranking w.store (Key.trace tree).render).map (·.1) := by
  constructor
  · rintro ⟨trace, htrace, hedge⟩
    rw [← Except.ok.inj (htrace.symm.trans (run_trace w tree))]
    exact hedge
  · exact fun hedge => ⟨_, run_trace w tree, hedge⟩

theorem edges_congr {w w' : World σ} (h : ranking w'.store = ranking w.store) :
    w'.edges = w.edges := by
  funext tree
  ext edge
  rw [mem_edges, mem_edges, h]

/-- No effect but the writing of a score changes a trace. -/
theorem edges_answer {e : Effect} (he : e.Ageless) (w : World σ) :
    (w.answer e).2.edges = w.edges := by
  cases e with
  | store c => exact edges_congr (Sorting.kept he w.store)
  | elsewhere _ | clock => exact he.elim
  | mint | draw _ _ | publish _ | sleep _ | signal _ | await _ _ | stop _ | stopping | join =>
    exact edges_congr rfl

theorem edges_zadd (tree edge : String) {score : Score} (hscore : score.isNaN = false)
    (w : World σ) :
    (w.answer (.store (.zadd (Key.trace tree).render edge score))).2.edges =
      addEdge w.edges tree edge := by
  funext other
  ext x
  have hkey : (Key.trace other).render = (Key.trace tree).render ↔
    Key.trace other = Key.trace tree := Key.render_inj trivial trivial
  rw [mem_edges]
  refine (Sorting.added _ edge w.store hscore _ x).trans ?_
  rw [← mem_edges, hkey, Key.trace.injEq, mem_addEdge]

end World

omit [Sorting σ] in
/-- Nothing is retried where no call fails for a transient reason. -/
theorem Engine.run_retrying [FaultFree σ] {ε α : Type} (e : Engine) (a : Action ε α) (w : World σ) :
    w.run (e.retrying a).run = w.run a.run := World.run_withRetries _ _ w

/-! ## Views of the traces -/

open SelfWiring.Action

section

variable {V : Type} {view : World σ → V}
  (hview : ∀ {e : Effect}, e.Ageless → ∀ w : World σ, view (w.answer e).2 = view w)

include hview

omit [Sorting σ] in
theorem Program.Only.brings_same {α : Type} {p : Program α} (h : Only Effect.Ageless p) (v : V) :
    Brings view p v fun _ v' => v' = v := by
  rintro w rfl
  induction p generalizing w with
  | done a => rfl
  | perform e next ih => exact (ih _ (h.2 _) _).trans (hview h.1 w)

omit [Sorting σ] in
theorem Action.Only.brings_same {ε α : Type} {a : Action ε α} (h : Only Effect.Ageless a) (v : V) :
    Brings view a v fun _ v' => v' = v := Program.Only.brings_same hview h v

namespace Engine

variable {e : Engine} {p : Payload} {tree : String}

omit [Sorting σ] in
/-- Accepting a submission writes no score. -/
theorem accept_same [FaultFree σ] (e : Engine) (s : Submission) (w : World σ) :
    view (w.run (e.retrying (accept s)).run).2 = view w := by
  have honly : Only (Effect.Routine fun _ => True) (accept s) := accept_only fun _ _ _ _ => trivial
  rw [run_retrying]
  exact (honly.imp fun _ => Effect.Routine.ageless).brings_same hview _ w rfl

omit [Sorting σ] in
/-- Running a cell changes no trace, and the results travel as the arguments did. -/
theorem calculate_brings {cell : Cell} (h : cell.Ageless) (p : Payload) (v : V) :
    Brings view (cell.calculate p) v fun r v' =>
      v' = v ∧ ∀ q, r = .ok q → ∃ results, q = { p with args := results } := by
  refine Brings.bind (Q := fun _ v' => v' = v) ?_ ?_ ?_
  · exact ((h p.context p.args).adapt _).brings_same hview v
  · rintro results _ rfl
    split
    · exact brings_pure ⟨rfl, fun q hq => ⟨results, (Except.ok.inj hq).symm⟩⟩
    · exact brings_throw ⟨rfl, fun q hq => nomatch hq⟩
  · rintro failure _ rfl
    exact ⟨rfl, fun q hq => nomatch hq⟩

omit [Sorting σ] in
/-- A payload that is processed is traced with its results, and one that fails changes no trace. -/
theorem process_brings (hcells : ∀ cell ∈ e.registry.cells, cell.Ageless) {traced : V → V → Prop}
    (htrack : ∀ results v, Brings view (Graph.track { p with args := results }) v
      fun _ v' => traced v v') (v : V) :
    Brings view (e.process p) v fun r v' => if r.isOk then traced v v' else v' = v := by
  unfold process
  rcases hcell : e.cellFor p with failure | cell
  · exact brings_throw rfl
  show Brings _ (liftM (cell.activate p) >>= _) v _
  rcases hactivated : cell.activate p with failure | q
  · exact brings_throw rfl
  obtain rfl := eq_of_activate hactivated
  refine (calculate_brings hview (hcells cell (mem_of_cellFor hcell)) q v).bind ?_ ?_
  · rintro _ _ ⟨rfl, hresults⟩
    obtain ⟨results, rfl⟩ := hresults _ rfl
    have honly : Only (Effect.Routine fun _ => True)
        (e.passOn cell q.destination { q with args := results }) :=
      passOn_only e cell q.destination fun _ _ _ _ => trivial
    refine ((honly.imp fun _ => Effect.Routine.ageless).brings_same hview _).bind ?_ ?_
    · rintro outcome _ rfl
      refine (brings_lift (Q := fun r v' => ∃ x, r = .ok x ∧ traced _ v')
        ((htrack results _).imp fun r v' hv => ⟨r, rfl, hv⟩)).andThen ?_
      exact fun _ _ htraced => brings_pure htraced
    · rintro failure _ rfl
      rfl
  · rintro failure _ ⟨rfl, _⟩
    rfl

omit [Sorting σ] in
/-- Neither retries nor the announcement of a failure change what is traced. -/
theorem handle_brings [FaultFree σ] (hcells : ∀ cell ∈ e.registry.cells, cell.Ageless)
    {traced : V → V → Prop}
    (htrack : ∀ results v, Brings view (Graph.track { p with args := results }) v
      fun _ v' => traced v v') (w : World σ) :
    if (w.run (e.process p).run).1.isOk then traced (view w) (view (w.run (e.handle p)).2)
    else view (w.run (e.handle p)).2 = view w := by
  have hprocess := process_brings hview hcells htrack (view w) w rfl
  show if _ then traced _ (view (w.run (Program.bind (e.retrying (e.process p)).run _)).2)
    else view (w.run (Program.bind (e.retrying (e.process p)).run _)).2 = _
  rw [World.run_bind, run_retrying]
  generalize w.run (e.process p).run = outcome at hprocess ⊢
  obtain ⟨failure | _, w'⟩ := outcome
  · have honly : Program.Only (Effect.Routine fun _ => True) (announce p failure) :=
      announce_only p failure
    have hannounced := (honly.imp fun _ => Effect.Routine.ageless).brings_same hview _ w' rfl
    exact hannounced.trans hprocess
  · exact hprocess

end Engine

end

/-! ## Edges -/

/-- Whatever comes of tracing a payload of a tree, its edge is in the trace. -/
theorem Graph.track_brings {p : Payload} {tree : String} (htree : p.context.tree = some tree)
    (v : String → Set String) :
    Brings (World.edges (σ := σ)) (track p) v fun _ v' => v' = addEdge v tree p.hop.edge := by
  rw [← edge_eq]
  unfold track
  rw [htree]
  refine Brings.andThen (Q := fun _ v' => v' = v) (brings_lift ?_) ?_
  · rintro w rfl
    exact ⟨_, rfl, rfl⟩
  · rintro now _ rfl w rfl
    exact World.edges_zadd tree _ (Score.isNaN_ofMillis now) w

namespace Engine

variable {e : Engine} {p : Payload} {tree : String}

/-- A payload of a tree that is processed adds its edge, and one that fails adds nothing. -/
theorem handle_edges [FaultFree σ] (hcells : ∀ cell ∈ e.registry.cells, cell.Ageless)
    (htree : p.context.tree = some tree) (w : World σ) :
    (w.run (e.handle p)).2.edges =
      if (w.run (e.process p).run).1.isOk then addEdge w.edges tree p.hop.edge else w.edges := by
  have htrack : ∀ results v, Brings (World.edges (σ := σ)) (Graph.track { p with args := results })
      v fun _ v' => v' = addEdge v tree p.hop.edge := fun _ =>
    Graph.track_brings htree
  have hhandle := handle_brings World.edges_answer hcells htrack w
  split
  case isTrue h => rwa [if_pos h] at hhandle
  case isFalse h => rwa [if_neg h] at hhandle

end Engine

/-! ## Sorted sets -/

/-- The sorted sets of a world. -/
def World.rankings (w : World σ) : String → List (String × Score) := ranking w.store

/-- One sorted set may be another, and no member is entered twice. -/
structure ChangesOneRanking (key : String) (v v' : String → List (String × Score)) : Prop where
  aside : ∀ other, other ≠ key → v' other = v other
  once : ∀ other, ((v other).map (·.1)).Nodup → ((v' other).map (·.1)).Nodup

theorem ChangesOneRanking.refl (key : String) (v : String → List (String × Score)) :
    ChangesOneRanking key v v :=
  ⟨fun _ _ => rfl, fun _ => id⟩

section

variable {σ : Type} [Store σ] [SeparateRankings σ] {e : Engine} {p : Payload} {tree : String}

theorem World.rankings_answer {effect : Effect} (h : effect.Ageless) (w : World σ) :
    (w.answer effect).2.rankings = w.rankings := by
  cases effect with
  | store c => exact Sorting.kept h w.store
  | elsewhere _ | clock => exact h.elim
  | mint | draw _ _ | publish _ | sleep _ | signal _ | await _ _ | stop _ | stopping | join => rfl

theorem Graph.track_changesOneRanking (htree : p.context.tree = some tree)
    (v : String → List (String × Score)) :
    Brings (World.rankings (σ := σ)) (track p) v fun _ v' =>
      ChangesOneRanking (Key.trace tree).render v v' := by
  unfold track
  rw [htree]
  refine Brings.andThen (Q := fun _ v' => v' = v) (brings_lift ?_) ?_
  · rintro w rfl
    exact ⟨_, rfl, rfl⟩
  · rintro now _ rfl w rfl
    exact ⟨SeparateRankings.aside _ _ _ w.store, SeparateRankings.once _ _ _ w.store⟩

/-- Processing a payload changes the trace of its tree only. -/
theorem Engine.process_changesOneRanking (hcells : ∀ cell ∈ e.registry.cells, cell.Ageless)
    (htree : p.context.tree = some tree) (w : World σ) :
    ChangesOneRanking (Key.trace tree).render w.rankings (w.run (e.process p).run).2.rankings := by
  have hprocess := process_brings World.rankings_answer hcells
    (fun results => Graph.track_changesOneRanking (p := { p with args := results }) htree)
    w.rankings w rfl
  dsimp only at hprocess
  split at hprocess
  case isTrue => exact hprocess
  case isFalse => exact hprocess ▸ .refl _ _

theorem Engine.handle_changesOneRanking [FaultFree σ]
    (hcells : ∀ cell ∈ e.registry.cells, cell.Ageless) (htree : p.context.tree = some tree)
    (w : World σ) :
    ChangesOneRanking (Key.trace tree).render w.rankings (w.run (e.handle p)).2.rankings := by
  have hhandle := handle_brings World.rankings_answer hcells
    (fun results => Graph.track_changesOneRanking (p := { p with args := results }) htree) w
  split at hhandle
  case isTrue => exact hhandle
  case isFalse => exact hhandle ▸ .refl _ _

end

end SelfWiring
