import SelfWiring.Proofs.Features
import SelfWiring.Proofs.Solitary

/-!
# A route that was connected beforehand

A text of two integers, and behaviours connected for it from the input cell by way of an operation
to the output cell. A submission of the text goes along the route, one payload at a time. The exact
result is delivered or, where another one is expected, the route is gone again until the budget of
restarts is used up; and where there is no result that fits, the operation objects.
-/

namespace SelfWiring

/-- The record of a text, and the behaviours that it passes on its way to the output cell. -/
structure Chain where
  record : String
  entry : String
  split : String
  operation : String
  out : String

/-- A payload on its way along a chain. -/
def Chain.payload (c : Chain) (s : Submission) (tree : String) (pass : Int64) (id b cell : String)
    (args : List Value) (sources : List String) : Payload where
  args
  context :=
    { id
      behaviour := some b
      cell := some cell
      tree := some tree
      session := some s.session
      information := some c.record
      expectation := s.expectation
      pass }
  destination := b
  sources

/-- A chain that is connected for a text, with a cell for its operation. Features are separated by a
space: the store says so, or it says nothing and `default` does. -/
structure Net.Seeded (default text cell : String) (c : Chain) (n : Net) : Prop where
  spaced : (n.text .separator = none ∧ default = " ") ∨ n.text .separator = some " "
  identified : n.text (.informationId text) = some c.record
  recorded : n.text (.information c.record) = some text
  entered : n.text (.entry c.record Cell.inputName) = some c.entry
  entry : n.text (.binding c.entry) = some Cell.inputName
  split : n.text (.binding c.split) = some Cell.splitFeaturesName
  operation : n.text (.binding c.operation) = some cell
  out : n.text (.binding c.out) = some Cell.outputName
  afterEntry : n.next c.entry = some [c.split]
  afterSplit : n.next c.split = some [c.operation]
  afterOperation : n.next c.operation = some [c.out]

namespace Net

/-- The network after the payload that was alone in the queue has made room for another. -/
@[simps] def carry (n : Net) (q : Payload) : Net :=
  { n with queue := [q.encode], minted := n.minted + 1 }

/-- Nothing is different but the queue and the identifiers. -/
structure Same (n m : Net) : Prop where
  text : m.text = n.text
  next : m.next = n.next
  outputs : m.outputs = n.outputs
  events : m.events = n.events

theorem Same.trans {n m k : Net} (h : n.Same m) (h' : m.Same k) : n.Same k where
  text := h'.text.trans h.text
  next := h'.next.trans h.next
  outputs := h'.outputs.trans h.outputs
  events := h'.events.trans h.events

theorem same_carry (n : Net) (q : Payload) : n.Same (n.carry q) := ⟨rfl, rfl, rfl, rfl⟩

variable {default text cell : String} {c : Chain} {n m : Net}

theorem Seeded.congr (h : n.Seeded default text cell c)
    (htext : ∀ k, ¬ k.Counter → (∀ t, k ≠ .firstBehaviour t) → m.text k = n.text k)
    (hnext : m.next = n.next) : m.Seeded default text cell c where
  spaced := by
    rw [htext .separator id (by simp)]
    exact h.spaced
  identified := (htext (.informationId _) id (by simp)).trans h.identified
  recorded := (htext (.information _) id (by simp)).trans h.recorded
  entered := (htext (.entry _ _) id (by simp)).trans h.entered
  entry := (htext (.binding _) id (by simp)).trans h.entry
  split := (htext (.binding _) id (by simp)).trans h.split
  operation := (htext (.binding _) id (by simp)).trans h.operation
  out := (htext (.binding _) id (by simp)).trans h.out
  afterEntry := hnext ▸ h.afterEntry
  afterSplit := hnext ▸ h.afterSplit
  afterOperation := hnext ▸ h.afterOperation

end Net

variable {σ : Type} [Store σ] [FaultFree σ] {e : Engine}

namespace Engine

open SelfWiring.Action

variable {n : Net} {c : Chain} {s : Submission} {tree id b name : String} {pass : Int64}
  {args : List Value} {sources : List String} {cell : Cell}

theorem cellFor_payload (hcell : e.registry.get? name = some cell) :
    e.cellFor (c.payload s tree pass id b name args sources) = .ok cell := by
  simp [cellFor, Chain.payload, hcell]

/-- Results go to the one behaviour that follows. -/
theorem process_hop (hcell : e.registry.get? name = some cell)
    (haccepts : cell.signature.accepts args = true) (hterminal : cell.terminal = false)
    {results : List Value} (hcall : ∀ ctx, Reaches σ (cell.call ctx args) n (.ok results) n)
    (hlength : results.length = cell.signature.outputs.length) {b' name' : String}
    (hnext : n.next b = some [b']) (hbinding : n.text (.binding b') = some name') :
    Reaches σ (e.process (c.payload s tree pass id b name args sources)) n (.ok (.forwarded 1))
      (n.mint.enqueue (c.payload s tree pass n.fresh b' name' results [b])) := by
  have hcalculate : Reaches σ
      (cell.calculate (c.payload s tree pass id b name args sources)) n
      (.ok (c.payload s tree pass id b name results sources)) n := by
    refine (reaches_adapt (hcall _)).andThen ?_
    simp only [if_pos hlength]
    exact reaches_pure _ n
  have hconnected : ∀ behaviours m,
      Connected e.registry e.config.maxSignals n b results behaviours m →
        behaviours = [b'] ∧ m = n := by
    intro behaviours m hconnected
    cases hconnected with
    | known h => exact ⟨Option.some.inj (h.symm.trans hnext), rfl⟩
    | explored h => exact absurd (h.symm.trans hnext) (by simp)
  refine process_ensures_of (cellFor_payload hcell) haccepts hcalculate
    (fun _ _ hr => nomatch hr.1) ?_
  rintro _ _ ⟨hresults, rfl⟩
  obtain rfl := Except.ok.inj hresults
  refine (passOn_ensures (c.payload s tree pass id b name results sources) hterminal rfl ?_).imp ?_
  · rintro behaviours m h b'' hb''
    obtain ⟨rfl, rfl⟩ := hconnected behaviours m h
    rw [List.mem_singleton.mp hb'', hbinding]
    rfl
  · rintro _ _ ⟨behaviours, m, h, rfl, rfl⟩
    obtain ⟨rfl, rfl⟩ := hconnected behaviours m h
    refine ⟨rfl, ?_⟩
    simp only [Net.close, Net.queueAll, hbinding]
    rfl

/-- A cell that objects is the end of its payload. -/
theorem process_refused (hcell : e.registry.get? name = some cell)
    (haccepts : cell.signature.accepts args = true) {failure : CellError}
    (hcall : ∀ ctx, Reaches σ (cell.call ctx args) n (.error failure) n) :
    Reaches σ (e.process (c.payload s tree pass id b name args sources)) n
      (.error (.cell failure)) n := by
  have hcalculate : Reaches σ
      (cell.calculate (c.payload s tree pass id b name args sources)) n
      (.error (.cell failure)) n := (reaches_adapt (hcall _)).bind_error
  refine process_ensures_of (cellFor_payload hcell) haccepts hcalculate
    (fun _ _ hr => ⟨congrArg _ (Except.error.inj hr.1), hr.2⟩) ?_
  rintro _ _ ⟨hresults, -⟩
  exact nomatch hresults

/-- The output cell concludes the result. -/
theorem process_concluded
    (hcell : e.registry.get? Cell.outputName = some (Cell.output e.config.maxRetraversals))
    (hne : tree ≠ "") {v : Value} {ctx : Context}
    (hctx : ctx = (c.payload s tree pass id b Cell.outputName [v] sources).context)
    (hrestart : Cell.Restartable n ctx tree) :
    Ensures σ (e.process (c.payload s tree pass id b Cell.outputName [v] sources)) n fun r m =>
      ∃ r', r = (r'.mapError EngineError.cell).map (fun _ => .terminated) ∧
        Cell.Concluded e.config.maxRetraversals n ctx tree s.session v.display r' m := by
  subst hctx
  have hprocess : Ensures σ (e.process (c.payload s tree pass id b Cell.outputName [v] sources)) n
      (Processed σ e (fun _ _ => True) n _ _ tree s.session) :=
    process_output_ensures (cellFor_payload hcell) rfl rfl rfl hne rfl hrestart
  refine hprocess.imp ?_
  intro r m hprocessed
  cases hprocessed with
  | objected hother | ended hother | passedOn hother => exact absurd rfl hother
  | concluded _ hargs h =>
    obtain ⟨rfl, rfl⟩ := List.cons.inj hargs
    exact ⟨_, rfl, h⟩

end Engine

/-! ## Along the chain -/

/-- The cells of a chain in the registry of an engine. -/
structure Engine.Carries (e : Engine) (op : Operation) : Prop where
  input : e.registry.get? Cell.inputName = some Cell.input
  split : e.registry.get? Cell.splitFeaturesName = some (Cell.splitFeatures e.config.separator)
  operation : e.registry.get? op.cell.name = some op.cell
  output : e.registry.get? Cell.outputName = some (Cell.output e.config.maxRetraversals)

theorem Cell.splitFeatures_twoDecimals {default : String} {n : Net}
    (h : (n.text .separator = none ∧ default = " ") ∨ n.text .separator = some " ") (a b : Int64)
    (ctx : Context) :
    Action.Reaches σ ((splitFeatures default).call ctx [.text (twoDecimals a b)]) n
      (.ok [.int a, .int b]) n := by
  have hseparator : Action.Reaches σ (storedSeparator default) n (.ok " ") n := by
    rcases h with ⟨hnone, rfl⟩ | hstored
    · exact storedSeparator_reaches " " hnone
    · have hget := Action.reaches_get_some (σ := σ) .separator trivial hstored
      exact (Action.reaches_orAbsent_ok hget).andThen (Action.reaches_pure " " n)
  refine (Action.reaches_ofExcept rfl n).andThen ?_
  refine (Action.reaches_adapt hseparator).andThen ?_
  simp only [splitText_twoDecimals]
  exact Action.reaches_pure _ n

namespace Net

open SelfWiring.Action

variable {n m : Net} {c : Chain} {s : Submission} {tree b name : String} {pass : Int64}
  {args : List Value} {sources : List String} {cell : Cell} {op : Operation} {x y : Int64}

theorem Same.seeded {default text : String} (h : n.Same m)
    (hseeded : n.Seeded default text name c) : m.Seeded default text name c :=
  hseeded.congr (fun _ _ _ => congrFun h.text _) h.next

/-- A payload is alone in the queue. -/
def Holds (n : Net) (c : Chain) (s : Submission) (tree : String) (pass : Int64) (b cell : String)
    (args : List Value) (sources : List String) : Prop :=
  ∃ id, n.queue = [(c.payload s tree pass id b cell args sources).encode]

/-- The only way on leads to a network that is the same but for what is queued. -/
structure Onward (σ : Type) [Store σ] [FaultFree σ] (e : Engine) (n m : Net) : Prop where
  same : n.Same m
  settles : ∀ {fs k}, Settles σ e m fs k → Settles σ e n fs k

theorem Onward.trans {k : Net} (h : Onward σ e n m) (h' : Onward σ e m k) : Onward σ e n k :=
  ⟨h.same.trans h'.same, fun hrest => h.settles (h'.settles hrest)⟩

/-- One hop. -/
theorem Holds.hop (h : n.Holds c s tree pass b name args sources)
    (hcell : e.registry.get? name = some cell) (haccepts : cell.signature.accepts args = true)
    (hterminal : cell.terminal = false) {results : List Value}
    (hcall : ∀ ctx, Reaches σ (cell.call ctx args) (n.requeue []) (.ok results) (n.requeue []))
    (hlength : results.length = cell.signature.outputs.length) {b' name' : String}
    (hnext : n.next b = some [b']) (hbinding : n.text (.binding b') = some name') :
    ∃ m, Onward σ e n m ∧ m.Holds c s tree pass b' name' results [b] := by
  obtain ⟨id, hqueue⟩ := h
  refine ⟨n.carry (c.payload s tree pass n.fresh b' name' results [b]), ⟨n.same_carry _, ?_⟩,
    n.fresh, rfl⟩
  intro fs k hrest
  exact .passed hqueue
    (Engine.process_hop hcell haccepts hterminal hcall hlength hnext hbinding) hrest

/-- A text that enters arrives at the operation as two integers. -/
theorem Holds.arrives
    (h : n.Holds c s tree pass c.entry Cell.inputName [.text (twoDecimals x y)] sources)
    (he : e.Carries op) (hseeded : n.Seeded e.config.separator (twoDecimals x y) op.cell.name c) :
    ∃ m, Onward σ e n m ∧
      m.Holds c s tree pass c.operation op.cell.name [.int x, .int y] [c.split] := by
  -- the input cell finds the record of the text
  have hinput : ∀ ctx, Reaches σ (Cell.input.call ctx [.text (twoDecimals x y)]) (n.requeue [])
      (.ok [.text (twoDecimals x y)]) (n.requeue []) := by
    intro ctx
    have htext : Cell.textOf Cell.inputName [.text (twoDecimals x y)] = .ok (twoDecimals x y) := rfl
    have hreaches := Cell.input_reaches (σ := σ) htext ctx (n.requeue [])
    unfold Net.record at hreaches
    rw [requeue_text, hseeded.identified] at hreaches
    exact hreaches
  obtain ⟨m₁, honward₁, hholds₁⟩ := h.hop he.input rfl rfl hinput rfl hseeded.afterEntry
    hseeded.split
  have hseeded₁ := honward₁.same.seeded hseeded
  have hsplit : ∀ ctx, Reaches σ
      ((Cell.splitFeatures e.config.separator).call ctx [.text (twoDecimals x y)]) (m₁.requeue [])
      (.ok [.int x, .int y]) (m₁.requeue []) :=
    Cell.splitFeatures_twoDecimals (n := m₁.requeue []) hseeded₁.spaced x y
  obtain ⟨m₂, honward₂, hholds₂⟩ := hholds₁.hop he.split rfl rfl hsplit rfl hseeded₁.afterSplit
    hseeded₁.operation
  exact ⟨m₂, honward₁.trans honward₂, hholds₂⟩

/-- A result that fits arrives at the output cell. -/
theorem Holds.computes
    (h : n.Holds c s tree pass c.operation op.cell.name [.int x, .int y] sources)
    (he : e.Carries op) (hseeded : n.Seeded e.config.separator (twoDecimals x y) op.cell.name c)
    {r : Exact} (hresult : op.result? x.toInt y.toInt = some r) :
    ∃ m, Onward σ e n m ∧
      m.Holds c s tree pass c.out Cell.outputName [r.value] [c.operation] := by
  obtain ⟨hterminal, hlength⟩ : op.cell.terminal = false ∧
      [r.value].length = op.cell.signature.outputs.length := by
    cases op <;> exact ⟨rfl, rfl⟩
  exact h.hop he.operation (op.accepts x y) hterminal
    (fun ctx => Operation.cell_of_some hresult ctx _) hlength hseeded.afterOperation hseeded.out

end Net

/-! ## Connecting a route -/

/-- Connect a route for a text, from the input cell to the cell that splits features, from there to
the cell of an operation, and from there to the output cell. -/
def Graph.connectRoute (text cell split operation out : String) : Action StoreError Unit := do
  let record ← informationIdFor text
  let entry ← entryBehaviour record Cell.inputName
  let _ ← connect entry [(split, Cell.splitFeaturesName)]
  let _ ← connect split [(operation, cell)]
  let _ ← connect operation [(out, Cell.outputName)]

/-- Nothing is held but, it may be, what separates features. -/
structure Net.Bare (n : Net) : Prop where
  text : ∀ k, k ≠ .separator → n.text k = none
  next : ∀ b, n.next b = none
  queue : n.queue = []
  outputs : ∀ session, n.outputs session = []

namespace Net

open SelfWiring.Action

/-- A behaviour that follows a producer. -/
def link (n : Net) (producer behaviour cell : String) : Net :=
  (n.write (.binding behaviour) cell).wire producer [behaviour]

theorem connect_link {n : Net} {producer : String} (h : n.next producer = none)
    (behaviour cell : String) :
    Reaches σ (Graph.connect producer [(behaviour, cell)]) n (.ok [behaviour])
      (n.link producer behaviour cell) := Graph.connect_of_none h [(behaviour, cell)]

/-- The network in which a route was connected. -/
def route (n : Net) (text cell split operation out : String) : Net :=
  let entered := ((n.record text).2.enter n.fresh Cell.inputName).2
  ((entered.link n.mint.fresh split Cell.splitFeaturesName).link split operation cell).link
    operation out Cell.outputName

variable {n : Net} {text split operation out : String}

theorem Bare.record (h : n.Bare) : n.record text =
    (n.fresh, (n.mint.write (.information n.fresh) text).write (.informationId text) n.fresh) := by
  unfold Net.record
  rw [h.text _ (by simp)]

theorem Bare.enter (h : n.Bare) : (n.record text).2.enter n.fresh Cell.inputName =
    (n.mint.fresh, ((n.record text).2.mint.write (.binding n.mint.fresh) Cell.inputName).write
      (.entry n.fresh Cell.inputName) n.mint.fresh) := by
  have hnone : (n.record text).2.text (.entry n.fresh Cell.inputName) = none := by
    simp [h.record, h.text]
  have hfresh : (n.record text).2.fresh = n.mint.fresh := by
    rw [h.record]
    rfl
  unfold Net.enter
  rw [hnone, hfresh]

/-- Nothing but the texts of the record, the entry and the bindings is written. -/
theorem Bare.route_text (h : n.Bare) (cell : String) (k : Key) :
    (n.route text cell split operation out).text k =
      if k = .binding out then some Cell.outputName
      else if k = .binding operation then some cell
      else if k = .binding split then some Cell.splitFeaturesName
      else if k = .entry n.fresh Cell.inputName then some n.mint.fresh
      else if k = .binding n.mint.fresh then some Cell.inputName
      else if k = .informationId text then some n.fresh
      else if k = .information n.fresh then some text
      else n.text k := by
  unfold route
  rw [h.enter, h.record]
  simp only [link, wire_text, write_text, mint_text, Function.update_apply]

theorem Bare.route_next (h : n.Bare) (cell b : String) :
    (n.route text cell split operation out).next b =
      if b = operation then some [out]
      else if b = split then some [operation]
      else if b = n.mint.fresh then some [split]
      else none := by
  unfold route
  rw [h.enter, h.record]
  simp only [link, wire_next, write_next, mint_next, Function.update_apply, h.next]

/-- Connecting a route counts nothing, queues nothing and delivers nothing. -/
theorem Bare.idle_route (h : n.Bare) (cell : String) :
    (n.route text cell split operation out).queue = [] ∧
      (∀ session, (n.route text cell split operation out).outputs session = []) ∧
      ∀ k, k.Counter → (n.route text cell split operation out).text k = none := by
  refine ⟨?_, fun session => ?_, fun k hk => ?_⟩
  · unfold route
    rw [h.enter, h.record]
    exact h.queue
  · unfold route
    rw [h.enter, h.record]
    exact h.outputs session
  · rw [h.route_text]
    cases k <;> simp_all [Key.Counter, h.text]

variable (h : n.Bare) (hdistinct : [n.mint.fresh, split, operation, out].Nodup) (cell : String)

include h hdistinct

theorem Bare.connectRoute_reaches :
    Reaches σ (Graph.connectRoute text cell split operation out) n (.ok ())
      (n.route text cell split operation out) := by
  have hrecord : Reaches σ (Graph.informationIdFor text) n (.ok n.fresh) (n.record text).2 := by
    have hreaches := Graph.informationIdFor_reaches (σ := σ) text n
    rw [show (n.record text).1 = n.fresh by rw [h.record]] at hreaches
    exact hreaches
  have hentry : Reaches σ (Graph.entryBehaviour n.fresh Cell.inputName) (n.record text).2
      (.ok n.mint.fresh) ((n.record text).2.enter n.fresh Cell.inputName).2 := by
    have hreaches := Graph.entryBehaviour_reaches (σ := σ) (Or.inl rfl) n.fresh (n.record text).2
    rw [show ((n.record text).2.enter n.fresh Cell.inputName).1 = n.mint.fresh by rw [h.enter]]
      at hreaches
    exact hreaches
  have hnext : ∀ b, ((n.record text).2.enter n.fresh Cell.inputName).2.next b = none := by
    intro b
    rw [h.enter, h.record]
    exact h.next b
  simp only [List.nodup_cons, List.mem_cons, List.not_mem_nil, or_false, not_or] at hdistinct
  obtain ⟨⟨hentered, hentered', -⟩, ⟨hsplit, -⟩, -⟩ := hdistinct
  refine hrecord.andThen (hentry.andThen ?_)
  refine (connect_link (hnext _) split Cell.splitFeaturesName).andThen ?_
  refine (connect_link ?_ operation cell).andThen ?_
  · rw [link, wire_next, Function.update_of_ne (Ne.symm hentered)]
    exact hnext split
  refine (connect_link ?_ out Cell.outputName).andThen (reaches_pure () _)
  rw [link, wire_next, Function.update_of_ne (Ne.symm hsplit)]
  rw [write_next, link, wire_next, Function.update_of_ne (Ne.symm hentered')]
  exact hnext operation

theorem Bare.seeded {default : String}
    (hspaced : (n.text .separator = none ∧ default = " ") ∨ n.text .separator = some " ") :
    (n.route text cell split operation out).Seeded default text cell
      ⟨n.fresh, n.mint.fresh, split, operation, out⟩ := by
  simp only [List.nodup_cons, List.mem_cons, List.not_mem_nil, or_false, not_or] at hdistinct
  obtain ⟨⟨hentered, hentered', hentered''⟩, ⟨hsplit, hsplit'⟩, hoperation, -⟩ := hdistinct
  refine ⟨?_, ?_, ?_, ?_, ?_, ?_, ?_, ?_, ?_, ?_, ?_⟩
  all_goals simp [h.route_text, h.route_next, *]

end Net

end SelfWiring
