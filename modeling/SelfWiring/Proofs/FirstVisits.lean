import SelfWiring.Proofs.Replay

/-!
# First visits

Only the first forward of a behaviour draws, and it draws from what the earlier first forwards left
of the stream. So a chart of all draws can be made from the first visits alone, in their order.
Every sequence of forwards follows the chart of its first visits: each forward of a behaviour queues
its results for the cells on the chart, whatever was forwarded again before. The order in which
cells were registered has no part in it either.
-/

namespace SelfWiring

open SelfWiring.Random (Generator)

/-! ## Visits and charts -/

/-- A behaviour that has results to forward. -/
structure Visit where
  producer : String
  results : List Value

/-- The visit that a payload makes, unless it is for no behaviour. -/
def Payload.visit? (p : Payload) : Option Visit :=
  p.context.behaviour.map fun producer => ⟨producer, p.args⟩

def Visit.addFirst (seen : List Visit) (v : Visit) : List Visit :=
  if seen.any (·.producer == v.producer) then seen else seen ++ [v]

/-- The first visit of each behaviour, in the order in which they were made. -/
def firstVisits (ps : List Payload) : List Visit :=
  (ps.filterMap Payload.visit?).foldl Visit.addFirst []

/-- The cells drawn for each behaviour that was explored, and what is left of the stream. -/
structure Chart where
  cells : String → Option (List String)
  generator : Generator

namespace Chart

/-- A chart on which no behaviour was explored. -/
def blank (g : Generator) : Chart := ⟨fun _ => none, g⟩

/-- Draw the cells for one more behaviour. -/
@[simps] def draw (r : Registry) (limit : UInt64) (c : Chart) (v : Visit) : Chart where
  cells := Function.update c.cells v.producer
    (some (c.generator.cells limit (r.candidates v.results)).1)
  generator := (c.generator.cells limit (r.candidates v.results)).2

/-- Draw the cells for behaviours one after the other. -/
def drawAll (r : Registry) (limit : UInt64) (g : Generator) (vs : List Visit) : Chart :=
  vs.foldl (draw r limit) (blank g)

variable {r : Registry} {limit : UInt64} {g : Generator} {vs : List Visit} {v : Visit}

theorem drawAll_append (vs vs' : List Visit) :
    drawAll r limit g (vs ++ vs') = vs'.foldl (draw r limit) (drawAll r limit g vs) :=
  List.foldl_append

theorem isSome_cells_drawAll {b : String} (vs : List Visit) :
    ((drawAll r limit g vs).cells b).isSome = vs.any (·.producer == b) := by
  induction vs using List.reverseRecOn with
  | nil => rfl
  | append_singleton vs v ih =>
    rw [drawAll_append, List.any_append]
    by_cases hb : v.producer = b
    · subst hb
      simp
    · rw [List.foldl_cons, List.foldl_nil, draw_cells, Function.update_of_ne (Ne.symm hb), ih]
      simp [hb]

/-- Draw cells for a behaviour that is not on the chart. -/
def visit (r : Registry) (limit : UInt64) (c : Chart) (v : Visit) : Chart :=
  if (c.cells v.producer).isSome then c else c.draw r limit v

theorem drawAll_addFirst (vs : List Visit) (v : Visit) :
    drawAll r limit g (v.addFirst vs) = (drawAll r limit g vs).visit r limit v := by
  unfold Visit.addFirst visit
  rw [isSome_cells_drawAll]
  split
  · rfl
  · exact drawAll_append vs [v]

theorem visit_of_isSome {c : Chart} (h : (c.cells v.producer).isSome = true) :
    c.visit r limit v = c := if_pos h

theorem visit_of_none {c : Chart} (h : c.cells v.producer = none) :
    c.visit r limit v = c.draw r limit v := if_neg (by rw [h]; simp)

/-- A behaviour that is on the chart stays there, with the same cells. -/
theorem cells_visit {c : Chart} {b : String} {cells : List String} (h : c.cells b = some cells) :
    (c.visit r limit v).cells b = some cells := by
  by_cases hv : (c.cells v.producer).isSome = true
  · rw [visit_of_isSome hv, h]
  · have hne : b ≠ v.producer := by
      rintro rfl
      exact hv (by rw [h]; rfl)
    rw [visit, if_neg hv, draw_cells, Function.update_of_ne hne, h]

/-- Nothing is drawn for results that no cell takes. -/
theorem draw_of_idle {c : Chart} (limit : UInt64) (h : r.candidates v.results = []) :
    (c.draw r limit v).generator = c.generator ∧
      (c.draw r limit v).cells v.producer = some [] := by
  rw [draw_generator, draw_cells, Function.update_self, h]
  exact ⟨rfl, rfl⟩

theorem cells_foldl_addFirst {b : String} {cells : List String} (us : List Visit) :
    ∀ vs, (drawAll r limit g vs).cells b = some cells →
      (drawAll r limit g (us.foldl Visit.addFirst vs)).cells b = some cells := by
  induction us with
  | nil => exact fun vs h => h
  | cons u us ih =>
    intro vs h
    refine ih _ ?_
    rw [drawAll_addFirst]
    exact cells_visit h

end Chart

/-! ## Networks that follow a chart -/

namespace Net

/-- The cells that follow a behaviour, in order, if it was explored. -/
def fan (n : Net) (producer : String) : Option (List (Option String)) :=
  (n.next producer).map (·.map fun b => n.text (.binding b))

/-- Every behaviour was explored as the chart has it, and those to come are not bound. -/
structure Charted (n : Net) (c : Chart) : Prop where
  fan : ∀ b, n.fan b = (c.cells b).map (·.map some)
  unbound : ∀ k, n.minted ≤ k → n.text (.binding (Identifier.render k)) = none

variable {n m : Net} {c : Chart} {producer : String}

theorem minted_queueAll_le (p : Payload) (producer : String) (behaviours : List String) :
    ∀ n : Net, n.minted ≤ (n.queueAll p producer behaviours).minted := by
  induction behaviours with
  | nil => exact fun n => Nat.le_refl _
  | cons b behaviours ih =>
    intro n
    exact Nat.le_trans (Nat.le_succ n.minted) (ih (n.mint.enqueue _))

theorem SameGraph.charted (h : n.SameGraph m) (hminted : n.minted ≤ m.minted)
    (hn : n.Charted c) : m.Charted c where
  fan b := by
    unfold Net.fan
    simp only [h.next, h.binding]
    exact hn.fan b
  unbound k hk := (h.binding _).trans (hn.unbound k (Nat.le_trans hminted hk))

/-- A behaviour that is on the chart leads to behaviours that are bound to its cells. -/
theorem Charted.exists_next (hn : n.Charted c) {cells : List String}
    (hcells : c.cells producer = some cells) :
    ∃ behaviours, n.next producer = some behaviours ∧
      behaviours.map (fun b => n.text (.binding b)) = cells.map some := by
  have hfan := hn.fan producer
  rw [hcells] at hfan
  exact Option.map_eq_some_iff.mp hfan

theorem Charted.next_eq_none_iff (hn : n.Charted c) :
    n.next producer = none ↔ c.cells producer = none := by
  have hfan := congrArg Option.isSome (hn.fan producer)
  rw [Net.fan, Option.isSome_map, Option.isSome_map] at hfan
  rw [← Option.isNone_iff_eq_none, ← Option.isNone_iff_eq_none, ← Option.not_isSome,
    ← Option.not_isSome, hfan]

theorem isSome_binding_of_map {behaviours cells : List String}
    (h : behaviours.map (fun b => n.text (.binding b)) = cells.map some) :
    ∀ b ∈ behaviours, (n.text (.binding b)).isSome = true := by
  intro b hb
  have hmem : n.text (.binding b) ∈ cells.map some := h ▸ List.mem_map_of_mem hb
  obtain ⟨cell, _, hcell⟩ := List.mem_map.mp hmem
  rw [← hcell]
  rfl

/-- Exploring a behaviour as the chart goes on keeps to the chart. -/
theorem Charted.explored (hn : n.Charted c) {cells : List String} (c' : Chart)
    (hc' : c'.cells = Function.update c.cells producer (some cells)) :
    ((n.sprout cells).2.wire producer (n.sprout cells).1).Charted c' where
  fan b := by
    by_cases hb : b = producer
    · subst hb
      rw [hc', Function.update_self, Net.fan, wire_next, Function.update_self]
      exact congrArg some (sprout_cells cells n)
    · rw [hc', Function.update_of_ne hb, ← hn.fan b, Net.fan, Net.fan, wire_next,
        Function.update_of_ne hb, sprout_next]
      cases hnext : n.next b with
      | none => rfl
      | some behaviours =>
        -- the behaviours that were there are bound, and the new ones were not
        refine congrArg some (List.map_congr_left fun b' hb' => ?_)
        refine sprout_text cells n fun new hnew heq => ?_
        obtain rfl := Key.binding.inj heq
        obtain ⟨k, hk, -, rfl⟩ := mem_sprout.mp hnew
        obtain ⟨drawn, hdrawn⟩ : ∃ drawn, c.cells b = some drawn := by
          rw [← Option.isSome_iff_exists, Option.isSome_iff_ne_none, ne_eq, ← hn.next_eq_none_iff,
            hnext]
          simp
        obtain ⟨behaviours', hbehaviours', hbound⟩ := hn.exists_next hdrawn
        obtain rfl := Option.some.inj (hnext.symm.trans hbehaviours')
        exact absurd (isSome_binding_of_map hbound _ hb') (by rw [hn.unbound k hk]; simp)
  unbound k hk := by
    rw [wire_minted, sprout_minted] at hk
    rw [wire_text, sprout_text cells n]
    · exact hn.unbound k (by omega)
    · rintro b hb heq
      obtain rfl := Key.binding.inj heq
      obtain ⟨j, -, hj, hrender⟩ := mem_sprout.mp hb
      have := Identifier.render_inj.mp hrender
      omega

end Net

/-! ## Actions that draw -/

section

variable (σ : Type) [Store σ] [FaultFree σ]

/-- An action that ends with the result, the network and the generator given, where it runs alone in
a world with the network and the generator given. -/
def Action.Arrives {ε α : Type} (a : Action ε α) (n : Net) (g : Generator) (result : Except ε α)
    (m : Net) (g' : Generator) : Prop :=
  ∀ w : World σ, w.net = n → w.generator = g →
    (w.run a.run).1 = result ∧ (w.run a.run).2.net = m ∧ (w.run a.run).2.generator = g'

end

variable {σ : Type} [Store σ] [FaultFree σ]

namespace Action

variable {ε ε' α β : Type} {a : Action ε α} {n m k : Net} {g g' g'' : Generator}

theorem Reaches.arrives {result : Except ε α} (h : Reaches σ a n result m)
    (hdrawless : Drawless σ a n) : Arrives σ a n g result m g := by
  intro w hw hg
  obtain ⟨hresult, hnet⟩ := h w hw
  exact ⟨hresult, hnet, (hdrawless w hw).trans hg⟩

theorem Arrives.bind {f : α → Action ε β} {x : α} {result : Except ε β}
    (h : Arrives σ a n g (.ok x) m g') (hf : Arrives σ (f x) m g' result k g'') :
    Arrives σ (a >>= f) n g result k g'' := by
  intro w hw hg
  obtain ⟨hresult, hnet, hgenerator⟩ := h w hw hg
  show (w.run (a.run.bind (ExceptT.bindCont f))).1 = _ ∧
    (w.run (a.run.bind (ExceptT.bindCont f))).2.net = _ ∧
      (w.run (a.run.bind (ExceptT.bindCont f))).2.generator = _
  rw [World.run_bind, hresult]
  exact hf _ hnet hgenerator

theorem Arrives.adapt {result : Except ε α} (h : Arrives σ a n g result m g') (f : ε → ε') :
    Arrives σ (ExceptT.adapt f a) n g (result.mapError f) m g' := by
  intro w hw hg
  obtain ⟨hresult, hnet, hgenerator⟩ := h w hw hg
  show (w.run (a.run.bind fun r => pure (r.mapError f))).1 = _ ∧
    (w.run (a.run.bind fun r => pure (r.mapError f))).2.net = _ ∧
      (w.run (a.run.bind fun r => pure (r.mapError f))).2.generator = _
  rw [World.run_bind, hresult]
  exact ⟨rfl, hnet, hgenerator⟩

end Action

namespace Engine

open SelfWiring.Action

variable (r : Registry) (limit : UInt64) {n m : Net} {c : Chart} {p : Payload} {v : Visit}

theorem mintAll_drawless (cells : List String) :
    ∀ n : Net, Program.Drawless σ (mintAll cells) n := by
  induction cells with
  | nil => exact Program.drawless_pure []
  | cons cell cells ih =>
    intro n
    refine (Program.drawless_effect (by simp) n).andThen fun id m => ?_
    exact (ih m).andThen fun rest m => Program.drawless_pure _ m

theorem settle_drawless (producer : String) (cells : List String) (n : Net) :
    Drawless σ (settle producer cells) n := by
  have hbind : ∀ (bound : List (String × String)) n, Drawless σ (Graph.bindAll bound) n := by
    intro bound
    induction bound with
    | nil => exact drawless_pure ()
    | cons e bound ih => exact fun n => (drawless_call _ n).andThen fun _ m => ih m
  refine (drawless_lift (mintAll_drawless cells n)).andThen fun minted m => ?_
  refine (hbind minted m).andThen fun _ m => ?_
  exact (drawless_call _ m).andThen fun _ m => drawless_call _ m

/-- Exploring draws the cells that come next and makes behaviours for them. -/
theorem explore_arrives {producer : String} (h : n.next producer = none) (args : List Value)
    (g : Generator) :
    Arrives σ (explore r limit producer args) n g
      (.ok (n.sprout (g.cells limit (r.candidates args)).1).1)
      ((n.sprout (g.cells limit (r.candidates args)).1).2.wire producer
        (n.sprout (g.cells limit (r.candidates args)).1).1)
      (g.cells limit (r.candidates args)).2 := by
  rintro w rfl rfl
  generalize hdrawn : w.generator.cells limit (r.candidates args) = drawn
  have hsettle := settle_reaches (σ := σ) h drawn.1
  have hmembers : addMembers [] (w.net.sprout drawn.1).1 = (w.net.sprout drawn.1).1 :=
    addMembers_of_nodup (w.net.nodup_sprout drawn.1)
  rw [hmembers] at hsettle
  have harrives := hsettle.arrives (settle_drawless producer drawn.1 _) (g := drawn.2)
  have hrun := harrives { w with generator := drawn.2 } rfl rfl
  rw [← hdrawn] at hrun ⊢
  exact hrun

/-- The connections of a behaviour are those on the chart, which is drawn further if need be. -/
theorem successors_arrives (hn : n.Charted c) (v : Visit) :
    ∃ (m : Net) (behaviours cells : List String),
      Arrives σ (successors r limit v.producer v.results) n c.generator (.ok behaviours) m
        (c.visit r limit v).generator ∧
      m.Charted (c.visit r limit v) ∧ m.queue = n.queue ∧
      (c.visit r limit v).cells v.producer = some cells ∧ m.next v.producer = some behaviours ∧
      behaviours.map (fun b => m.text (.binding b)) = cells.map some := by
  have hconnections := Graph.connections_drawless (σ := σ) n v.producer
  cases hcells : c.cells v.producer with
  | some cells =>
    rw [Chart.visit_of_isSome (by rw [hcells]; rfl)]
    obtain ⟨behaviours, hnext, hbound⟩ := hn.exists_next hcells
    refine ⟨n, behaviours, cells, ?_, hn, rfl, hcells, hnext, hbound⟩
    refine ((Graph.connections_of_some hnext).arrives hconnections).bind ?_
    exact (reaches_pure behaviours n).arrives (drawless_pure behaviours n)
  | none =>
    rw [Chart.visit_of_none hcells]
    have hnext := hn.next_eq_none_iff.mpr hcells
    have hcharted := hn.explored (c.draw r limit v) rfl
    obtain ⟨behaviours, hwired, hbound⟩ := hcharted.exists_next (Function.update_self ..)
    refine ⟨_, behaviours, _, ?_, hcharted, ?_, Function.update_self .., hwired, hbound⟩
    · rw [Net.wire_next, Function.update_self] at hwired
      obtain rfl := Option.some.inj hwired
      refine ((Graph.connections_of_none hnext).arrives hconnections).bind ?_
      exact explore_arrives r limit hnext v.results c.generator
    · rw [Net.wire_queue, Net.sprout_queue]

/-- Forwarding draws what there is to draw, and queues the results for the cells on the chart. -/
theorem forward_arrives (hn : n.Charted c) (hproducer : p.context.behaviour = some v.producer)
    (hresults : p.args = v.results) :
    ∃ (m : Net) (behaviours cells : List String) (qs : List Payload),
      Arrives σ (forward r limit p) n c.generator (.ok cells.length) m
        (c.visit r limit v).generator ∧
      m.Charted (c.visit r limit v) ∧ m.queue = n.queue ++ qs.map Payload.encode ∧
      (c.visit r limit v).cells v.producer = some cells ∧ m.next v.producer = some behaviours ∧
      behaviours.map (fun b => m.text (.binding b)) = cells.map some ∧
      qs.map Payload.hop =
        behaviours.map fun b => ⟨b, m.text (.binding b), p.args, [v.producer]⟩ := by
  obtain ⟨m, behaviours, cells, harrives, hcharted, hqueue, hcells, hnext, hbound⟩ :=
    successors_arrives (σ := σ) r limit hn v
  have hlength : behaviours.length = cells.length := by simpa using congrArg List.length hbound
  have hpresent := Net.isSome_binding_of_map hbound
  obtain ⟨htext, hkept, qs, hqueued, -, hhops⟩ :=
    m.queueAll_hops p v.producer behaviours hpresent
  have hsame := m.sameGraph_queueAll p v.producer behaviours
  refine ⟨m.queueAll p v.producer behaviours, behaviours, cells, qs, ?_, ?_, ?_, hcells, ?_, ?_, ?_⟩
  · unfold forward
    rw [hproducer, ← hlength, hresults]
    refine (harrives.adapt EngineError.store).bind ?_
    have hqueueAll := (queueAll_reaches (σ := σ) p v.producer behaviours m hpresent).arrives
      (queueAll_drawless p v.producer behaviours m) (g := (c.visit r limit v).generator)
    refine (hqueueAll.adapt EngineError.store).bind ?_
    exact (reaches_pure _ _).arrives (drawless_pure _ _)
  · exact hsame.charted (m.minted_queueAll_le ..) hcharted
  · rw [hqueued, hqueue]
  · rw [hkept, hnext]
  · rw [htext, hbound]
  · rw [htext, hhops]

end Engine

/-! ## Sequences of forwards -/

namespace World

/-- The world after forwards one after the other. -/
def forwarded (r : Registry) (limit : UInt64) (w : World σ) (ps : List Payload) : World σ :=
  ps.foldl (fun w p => (w.run (Engine.forward r limit p).run).2) w

/-- The cells that follow a behaviour, in order, if it was explored. -/
def fan (w : World σ) (producer : String) : Option (List (Option String)) :=
  (w.connections producer).map (·.map fun b => w.text (.binding b))

/-- Forwarding queues the results for the cells given, and nothing else. Where no cell takes the
results it draws nothing, and a behaviour that was not explored before gets no connections. -/
structure Sends (r : Registry) (limit : UInt64) (w : World σ) (p : Payload) (producer : String)
    (cells : List String) : Prop where
  result : (w.run (Engine.forward r limit p).run).1 = .ok cells.length
  queued : ∃ qs : List Payload,
    (w.forwarded r limit [p]).queue = w.queue ++ qs.map Payload.encode ∧
    (w.forwarded r limit [p]).connections producer = some (qs.map (·.destination)) ∧
    qs.map (·.context.cell) = cells.map some ∧
    ∀ q ∈ qs, q.args = p.args ∧ q.sources = [producer]
  idle : r.candidates p.args = [] → (w.forwarded r limit [p]).generator = w.generator ∧
    (w.connections producer = none → (w.forwarded r limit [p]).connections producer = some [])

variable (r : Registry) (limit : UInt64) {w : World σ} {c : Chart} {p : Payload} {v : Visit}

omit [FaultFree σ] in
theorem forwarded_append (ps ps' : List Payload) :
    w.forwarded r limit (ps ++ ps') = (w.forwarded r limit ps).forwarded r limit ps' :=
  List.foldl_append

theorem net_fan (w : World σ) (producer : String) : w.net.fan producer = w.fan producer := by
  unfold Net.fan fan
  simp only [w.net_text (.binding _) trivial]
  rfl

theorem Empty.charted (h : w.Empty) : w.net.Charted (.blank w.generator) where
  fan b := by
    rw [net_fan, fan, connections, h.contents]
    rfl
  unbound k _ := by
    rw [w.net_text (.binding _) trivial, h.contents]
    rfl

theorem sends_of_charted (hw : w.net.Charted c) (hgenerator : w.generator = c.generator)
    (hv : p.visit? = some v) :
    (w.forwarded r limit [p]).net.Charted (c.visit r limit v) ∧
      (w.forwarded r limit [p]).generator = (c.visit r limit v).generator ∧
      ∃ cells, (c.visit r limit v).cells v.producer = some cells ∧
        w.Sends r limit p v.producer cells := by
  obtain ⟨producer, hproducer, rfl⟩ := Option.map_eq_some_iff.mp hv
  obtain ⟨m, behaviours, cells, qs, harrives, hcharted, hqueue, hcells, hnext, hbound, hhops⟩ :=
    Engine.forward_arrives (σ := σ) r limit (v := ⟨producer, p.args⟩) hw hproducer rfl
  obtain ⟨hresult, rfl, hafter⟩ := harrives w rfl hgenerator
  have hdestinations : qs.map (·.destination) = behaviours := by
    simpa [Payload.hop, Function.comp_def] using congrArg (List.map Hop.destination) hhops
  refine ⟨hcharted, hafter, cells, hcells, hresult, ⟨qs, hqueue, ?_, ?_, ?_⟩, ?_⟩
  · rw [hdestinations]
    exact hnext
  · rw [← hbound]
    simpa [Payload.hop, Function.comp_def] using congrArg (List.map Hop.cell) hhops
  · intro q hq
    obtain ⟨b, -, hhop⟩ := List.mem_map.mp (hhops ▸ List.mem_map_of_mem hq : q.hop ∈ _)
    exact ⟨(congrArg Hop.args hhop).symm, (congrArg Hop.sources hhop).symm⟩
  · intro hidle
    have hdraw := Chart.draw_of_idle (c := c) (v := ⟨producer, p.args⟩) limit hidle
    constructor
    · refine hafter.trans ?_
      rw [hgenerator, Chart.visit]
      split
      · rfl
      · exact hdraw.1
    · intro hnew
      rw [Chart.visit_of_none (hw.next_eq_none_iff.mp hnew), hdraw.2] at hcells
      obtain rfl := Option.some.inj hcells
      rw [List.map_eq_nil_iff.mp (hbound.trans List.map_nil)] at hnext
      exact hnext

omit [FaultFree σ] in
theorem forwarded_of_unvisited (hv : p.visit? = none) : w.forwarded r limit [p] = w := by
  have hproducer : p.context.behaviour = none := Option.map_eq_none_iff.mp hv
  show (w.run (Engine.forward r limit p).run).2 = w
  unfold Engine.forward
  rw [hproducer]
  rfl

theorem firstVisits_append (ps ps' : List Payload) :
    firstVisits (ps ++ ps') =
      (ps'.filterMap Payload.visit?).foldl Visit.addFirst (firstVisits ps) := by
  rw [firstVisits, List.filterMap_append, List.foldl_append]
  rfl

/-- After any forwards the network is as charted from the first visits. -/
theorem Empty.forwarded (h : w.Empty) (ps : List Payload) :
    (w.forwarded r limit ps).net.Charted
        (Chart.drawAll r limit w.generator (firstVisits ps)) ∧
      (w.forwarded r limit ps).generator =
        (Chart.drawAll r limit w.generator (firstVisits ps)).generator := by
  induction ps using List.reverseRecOn with
  | nil => exact ⟨h.charted, rfl⟩
  | append_singleton ps p ih =>
    obtain ⟨hcharted, hgenerator⟩ := ih
    rw [forwarded_append, firstVisits_append]
    cases hv : p.visit? with
    | none =>
      rw [forwarded_of_unvisited r limit hv, List.filterMap_cons_none hv]
      exact ⟨hcharted, hgenerator⟩
    | some v =>
      rw [List.filterMap_cons_some hv, List.filterMap_nil, List.foldl_cons, List.foldl_nil,
        Chart.drawAll_addFirst]
      obtain ⟨hcharted, hgenerator, -⟩ := sends_of_charted r limit hcharted hgenerator hv
      exact ⟨hcharted, hgenerator⟩

/-- Each forward of a behaviour queues its results for the cells that follow the behaviour in the
end. -/
def Follows (r : Registry) (limit : UInt64) (w : World σ) (ps : List Payload) : Prop :=
  ∀ before p after producer, ps = before ++ p :: after → p.context.behaviour = some producer →
    ∃ cells, (w.forwarded r limit ps).fan producer = some (cells.map some) ∧
      (w.forwarded r limit before).Sends r limit p producer cells

theorem Empty.follows (h : w.Empty) (ps : List Payload) : w.Follows r limit ps := by
  rintro before p after producer rfl hproducer
  have hv : p.visit? = some ⟨producer, p.args⟩ := by rw [Payload.visit?, hproducer]; rfl
  obtain ⟨hcharted, hgenerator⟩ := h.forwarded r limit before
  obtain ⟨-, -, cells, hcells, hsends⟩ := sends_of_charted r limit hcharted hgenerator hv
  refine ⟨cells, ?_, hsends⟩
  obtain ⟨hfinal, -⟩ := h.forwarded r limit (before ++ p :: after)
  rw [← net_fan, hfinal.fan producer, firstVisits_append, List.filterMap_cons_some hv,
    List.foldl_cons]
  rw [← Chart.drawAll_addFirst] at hcells
  rw [Chart.cells_foldl_addFirst _ _ hcells]
  rfl

end World

/-- What is explored depends on the first visits alone. Take cells of different names, registered in
two orders, and two sequences of forwards with the same first visits, each from where nothing is
stored, with the same generator. In the end the same cells follow each behaviour, in the same order,
and the generators are the same. In both sequences each forward of a behaviour queues its results
for these cells, and one that no cell can take draws nothing. -/
theorem exploration_depends_on_first_visits {τ : Type} [Store τ] [FaultFree τ]
    {cells cells' : List Cell} (hperm : cells.Perm cells') (hnames : (cells.map (·.name)).Nodup)
    (limit : UInt64) {w : World σ} {w' : World τ} (hw : w.Empty) (hw' : w'.Empty)
    (hgenerator : w'.generator = w.generator) {ps ps' : List Payload}
    (hvisits : firstVisits ps' = firstVisits ps) :
    ∃ r, Registry.registerAll {} cells = .ok r ∧ Registry.registerAll {} cells' = .ok r ∧
      (∀ b, (w'.forwarded r limit ps').fan b = (w.forwarded r limit ps).fan b) ∧
      (w'.forwarded r limit ps').generator = (w.forwarded r limit ps).generator ∧
      w.Follows r limit ps ∧ w'.Follows r limit ps' := by
  obtain ⟨r, hr, hr'⟩ := Registry.exists_registerAll_of_perm hperm hnames
  obtain ⟨hcharted, hend⟩ := hw.forwarded r limit ps
  obtain ⟨hcharted', hend'⟩ := hw'.forwarded r limit ps'
  rw [hgenerator, hvisits] at hcharted' hend'
  refine ⟨r, hr, hr', fun b => ?_, hend'.trans hend.symm, hw.follows r limit ps,
    hw'.follows r limit ps'⟩
  rw [← World.net_fan, ← World.net_fan, hcharted'.fan b, hcharted.fan b]

/-- With the standard cells registered backwards, a behaviour forwards a text in between, for which
other cells would have been drawn. -/
theorem exploration_depends_on_first_visits_of_reuse : ∃ (r : Registry) (p p' q : Payload),
    p.visit? = some ⟨"a", [.int 1]⟩ ∧ p'.visit? = some ⟨"a", [.text "x"]⟩ ∧
    q.visit? = some ⟨"b", [.int 1]⟩ ∧
    Registry.registerAll {} (Cell.standard {}) = .ok r ∧
    Registry.registerAll {} (Cell.standard {}).reverse = .ok r ∧
    ((World.inMemory 7).forwarded r 3 [p, p', q]).fan "b" =
      ((World.inMemory 7).forwarded r 3 [p, q]).fan "b" ∧
    (World.inMemory 7).Follows r 3 [p, p', q] := by
  have hp : ∃ p : Payload, p.visit? = some ⟨"a", [.int 1]⟩ :=
    ⟨⟨[.int 1], { id := "1", behaviour := some "a" }, "a", []⟩, rfl⟩
  have hp' : ∃ p : Payload, p.visit? = some ⟨"a", [.text "x"]⟩ :=
    ⟨⟨[.text "x"], { id := "2", behaviour := some "a" }, "a", []⟩, rfl⟩
  have hq : ∃ p : Payload, p.visit? = some ⟨"b", [.int 1]⟩ :=
    ⟨⟨[.int 1], { id := "3", behaviour := some "b" }, "b", []⟩, rfl⟩
  obtain ⟨p, hp⟩ := hp
  obtain ⟨p', hp'⟩ := hp'
  obtain ⟨q, hq⟩ := hq
  have hvisits : firstVisits [p, p', q] = firstVisits [p, q] := by
    simp only [firstVisits, List.filterMap_cons, hp, hp', hq]
    rfl
  have hempty := World.empty_inMemory 7
  obtain ⟨r, hr, hr', hfan, -, -, hfollows⟩ :=
    exploration_depends_on_first_visits (Cell.standard {}).reverse_perm.symm (by decide) 3 hempty
      hempty rfl hvisits
  exact ⟨r, p, p', q, hp, hp', hq, hr, hr', hfan "b", hfollows⟩

end SelfWiring
