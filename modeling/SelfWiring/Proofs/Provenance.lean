import SelfWiring.Proofs.Safety

/-!
# Where values come from

Whatever is queued for a tree, and whatever is delivered for it, was computed from the text of its
submission by the cells along a stored path. The path starts at the first behaviour of the tree, and
each behaviour on it is one of the connections of the behaviour before.
-/

namespace SelfWiring

variable {σ : Type} [Store σ] [FaultFree σ]

/-- A payload whose context is that of its tree and whose arguments were computed along a path. -/
structure Traced (e : Engine) (w : World σ) (tree : String) (s : Submission)
    (p : Payload) : Prop where
  session : p.context.session = some s.session
  expectation : p.context.expectation = s.expectation
  information : ∃ i, p.context.information = some i ∧ w.text (.information i) = some s.input
  behaviour : p.context.behaviour = some p.destination
  cell : ∃ name, p.context.cell = some name ∧ w.text (.binding p.destination) = some name
  path : Route (Cell.Computes σ) e.registry w.net tree s p.destination p.args

/-- A result that was computed along a path to a behaviour bound to the output cell. -/
structure Delivered (applies : Cell → List Value → List Value → Prop) (r : Registry) (n : Net)
    (tree : String) (s : Submission) (output : String) : Prop where
  path : ∃ b v vs, Route applies r n tree s b (v :: vs) ∧
    n.text (.binding b) = some Cell.outputName ∧ output = v.display

/-- Along a path of a network, cells compute: they are standard cells, and none of them is the
output cell, which forwards nothing. -/
theorem Route.computes {config : Config} {e : Engine}
    (he : Engine.assemble { config, cells := some (Cell.standard config) } = .ok e)
    {born : String → Submission → Prop} {n : Net} (h : Inv σ e.registry born n) {tree : String}
    {s : Submission} {b : String} {args : List Value}
    (hroute : Route (Cell.Yields σ) e.registry n tree s b args) :
    Route (Cell.Computes σ) e.registry n tree s b args := by
  refine hroute.imp (.refl n) fun b name cell args results hbinding hcell hnext hyields => ?_
  -- a behaviour that is connected is bound to a cell that forwards
  obtain ⟨behaviours, hbehaviours⟩ := Option.isSome_iff_exists.mp hnext
  obtain ⟨name', cell', hbinding', hcell', hterminal, _⟩ := h.wired b behaviours hbehaviours
  obtain rfl := Option.mem_unique hbinding hbinding'
  obtain rfl := Option.mem_unique hcell hcell'
  have hmem : cell ∈ Cell.standard config :=
    ((Engine.assemble_eq_ok he).2 cell).mp (Registry.mem_of_get? hcell)
  rcases Cell.eq_output_or_mem_of_mem_standard hmem with rfl | hstandard
  · exact absurd hterminal (by simp [Cell.output])
  · exact (Cell.standard_steady hstandard).computes hyields

theorem Delivered.mono {r : Registry} {n m : Net} (hgrows : n.Grows m) {tree : String}
    {s : Submission} {output : String} {applies : Cell → List Value → List Value → Prop}
    (h : Delivered applies r n tree s output) : Delivered applies r m tree s output := by
  obtain ⟨b, v, vs, hroute, hbinding, houtput⟩ := h.path
  exact ⟨b, v, vs, hroute.imp hgrows fun _ _ _ _ _ _ _ _ h => h, hgrows.binding hbinding, houtput⟩

/-- A result that a conclusion delivers is the one that was concluded. -/
theorem emitted_mem_concluded {limit : UInt32} {n m : Net} {ctx : Context}
    {tree session output : String} {r : Except CellError (List Value)}
    (h : Cell.Concluded limit n ctx tree session output r m) {session' tree' output' : String}
    (hmem : .emitted session' tree' output' ∈ m.events) :
    .emitted session' tree' output' ∈ n.events ∨
      (session' = session ∧ tree' = tree ∧ output' = output ∧
        ∀ x, ctx.expectation = some x → output = x) := by
  cases h with
  | answered | passedOver | exhausted | restarted => exact Or.inl hmem
  | delivered _ hexpectation =>
    rcases List.mem_append.mp hmem with hmem | hmem
    · exact Or.inl hmem
    · obtain ⟨rfl, rfl, rfl⟩ : session' = session ∧ tree' = tree ∧ output' = output := by
        simpa using hmem
      exact Or.inr ⟨rfl, rfl, rfl, hexpectation⟩

/-- A delivered result went to the session of its tree, it is the result expected if there was one,
and it can be traced, whatever happened after its delivery. -/
theorem delivered_of_emitted {e : Engine} (hs : e.Serves σ fun n m => m = n) {w₀ w : World σ}
    {ds : List Label} (h₀ : w₀.Empty) (hrun : Run e w₀ ds w) {session tree output : String}
    (hemitted : .emitted session tree output ∈ w.events) :
    ∃ s, Born ds tree s ∧ session = s.session ∧ (∀ x, s.expectation = some x → output = x) ∧
      Delivered (Cell.Yields σ) e.registry w.net tree s output := by
  have hinduct := hrun.induct hs (P := fun ds n => ∀ session tree output,
    .emitted session tree output ∈ n.events → ∃ s, Born ds tree s ∧ session = s.session ∧
      (∀ x, s.expectation = some x → output = x) ∧
        Delivered (Cell.Yields σ) e.registry n tree s output) (Inv.empty h₀ e.registry)
  refine (hinduct ?_ ?_).2 session tree output hemitted
  · intro session tree output hmem
    have hnone : w₀.net.events = [] := h₀.events
    rw [hnone] at hmem
    exact absurd hmem (by simp)
  · intro ds n d m hinv ih hmoves session tree output hmem
    have hgrows := (hinv.moves hs hmoves).2
    -- what was delivered before stays traceable
    have hold : .emitted session tree output ∈ n.events → ∃ s, Born (ds ++ [d]) tree s ∧
        session = s.session ∧ (∀ x, s.expectation = some x → output = x) ∧
          Delivered (Cell.Yields σ) e.registry m tree s output := by
      intro hmem
      obtain ⟨s, hborn, hsession, hexpectation, hdelivered⟩ := ih session tree output hmem
      exact ⟨s, List.mem_append_left _ hborn, hsession, hexpectation, hdelivered.mono hgrows⟩
    cases hmoves.turn with
    | began s hneutral => exact hold (hneutral.emitted_mem.mp hmem)
    | carried _ _ _ hneutral => exact hold (hneutral.emitted_mem.mp hmem)
    | @concluded before after p _ s v vs _ _ _ hborn hsound hbinding hargs hconcluded =>
      rcases emitted_mem_concluded hconcluded (Net.emitted_mem_report.mp hmem) with hmem |
        ⟨rfl, rfl, rfl, hexpectation⟩
      · exact hold hmem
      · have hroute : Route (Cell.Yields σ) e.registry (n.requeue (before ++ after)) _ s
            p.destination (v :: vs) := hargs ▸ hsound.route
        have hgrows' : (n.requeue (before ++ after)).Grows _ :=
          ⟨hgrows.text, hgrows.next, hgrows.minted⟩
        refine ⟨s, List.mem_append_left _ hborn, rfl, fun x hx => ?_, ⟨p.destination, v, vs, ?_,
          hgrows.binding hbinding, rfl⟩⟩
        · exact hexpectation x (hsound.expectation.trans hx)
        · exact hroute.imp hgrows' fun _ _ _ _ _ _ _ _ h => h

/-- Where every queued payload and every delivered result of a run from an empty store come from. -/
theorem provenance {config : Config} {e : Engine}
    (he : Engine.assemble { config, cells := some (Cell.standard config) } = .ok e) {w₀ w : World σ}
    {ds : List Label} (h₀ : w₀.Empty) (hrun : Run e w₀ ds w) :
    (∀ item ∈ w.queue, ∃ p tree s, Payload.decode? item = some p ∧ p.context.tree = some tree ∧
      Born ds tree s) ∧
    (∀ item ∈ w.queue, ∀ p tree s, Payload.decode? item = some p → p.context.tree = some tree →
      Born ds tree s → Traced e w tree s p) ∧
    ∀ session tree output, .emitted session tree output ∈ w.events → ∃ s, Born ds tree s ∧
      session = s.session ∧ Delivered (Cell.Computes σ) e.registry w.net tree s output := by
  have hs := Engine.serves_of_standard (σ := σ) he
  have hinv := run_inv hs h₀ hrun
  refine ⟨fun item hitem => ?_, fun item hitem p tree s hread htree hborn => ?_,
    fun session tree output hemitted => ?_⟩
  · obtain ⟨p, tree, s, rfl, hborn, hsound⟩ := hinv.queued item hitem
    exact ⟨p, tree, s, Payload.decode?_encode p, hsound.tree, hborn⟩
  · obtain ⟨q, tree', s', rfl, hborn', hsound⟩ := hinv.queued item hitem
    obtain rfl := Option.mem_unique (Payload.decode?_encode q) hread
    obtain rfl := Option.mem_unique hsound.tree htree
    obtain rfl := born_unique hs h₀ hrun hborn hborn'
    obtain ⟨i, hi, htext⟩ := hsound.information
    obtain ⟨name, hname, hbinding⟩ := hsound.cell
    rw [World.net_text w (.information i) trivial] at htext
    rw [World.net_text w (.binding q.destination) trivial] at hbinding
    exact ⟨hsound.session, hsound.expectation, ⟨i, hi, htext⟩, hsound.behaviour,
      ⟨name, hname, hbinding⟩, hsound.route.computes he hinv⟩
  · obtain ⟨s, hborn, hsession, _, hdelivered⟩ := delivered_of_emitted hs h₀ hrun hemitted
    obtain ⟨b, v, vs, hroute, hbinding, houtput⟩ := hdelivered.path
    exact ⟨s, hborn, hsession, ⟨b, v, vs, hroute.computes he hinv, hbinding, houtput⟩⟩

/-- A run in which a result is delivered, and one that leaves a payload in the queue. -/
theorem provenance_of_echo : ∃ (e : Engine) (ds ds' : List Label) (w w' : World Memory)
    (tree tree' : String) (s s' : Submission) (p : Payload),
    Engine.assemble { cells := some (Cell.standard {}) } = .ok e ∧
    Run e (.inMemory 0) ds w ∧ Born ds tree s ∧ s.session = "a" ∧
    Delivered (Cell.Computes Memory) e.registry w.net tree s "4" ∧
    Run e (.inMemory 0) ds' w' ∧ w'.queue = [p.encode] ∧ Born ds' tree' s' ∧
    Traced e w' tree' s' p := by
  obtain ⟨e, he⟩ := Engine.exists_standard {} rfl
  have h₀ := World.empty_inMemory 0
  have hs := Engine.serves_of_standard (σ := Memory) he
  obtain ⟨p, w, hrun, hevents⟩ := exists_run_delivered hs h₀
    (s := { input := "4", echo := true, session := "a" }) rfl (by simp)
  obtain ⟨p', q, w', hrun', _, hqueue⟩ := exists_run_restarted hs h₀
    (s := { input := "4", echo := true, session := "b", expectation := some "5" }) rfl rfl
    (by decide)
  obtain ⟨_, _, hdelivered⟩ := provenance he h₀ hrun
  obtain ⟨hborn, htraced, _⟩ := provenance he h₀ hrun'
  have hemitted : .emitted "a" (World.inMemory 0).net.fresh "4" ∈ w.events := by
    rw [hevents]
    exact List.mem_cons_of_mem _ List.mem_cons_self
  have hmem : q.encode ∈ w'.queue := by
    rw [hqueue]
    exact List.mem_cons_self
  obtain ⟨s, hs, hsession, hpath⟩ := hdelivered _ _ _ hemitted
  obtain ⟨q', tree', s', hread, htree, hs'⟩ := hborn _ hmem
  obtain rfl := Option.mem_unique (Payload.decode?_encode q) hread
  exact ⟨e, _, _, w, w', _, tree', s, s', q, he, hrun, hs, hsession.symm, hpath, hrun', hqueue, hs',
    htraced _ hmem q _ s' hread htree hs'⟩

end SelfWiring
