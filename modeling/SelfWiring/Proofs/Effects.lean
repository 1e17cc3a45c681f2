import SelfWiring.Proofs.Inventory
import SelfWiring.Proofs.Store.Rankings
import SelfWiring.Proofs.Traces
import SelfWiring.Proofs.Walks

/-!
# What the result of a payload tells

Whoever processes a payload gets a result, and the result tells what was done: how many payloads
were queued, for whom and with what, whether something was delivered, whether the tree begins anew.
Whatever it is, the changes stay with the tree, the session and the behaviour of the payload, and
with behaviours that were minted on the way.
-/

namespace SelfWiring

/-! ## Confined changes -/

/-- Keys that a payload of a tree may write in one of its walks: the counters of the tree, and the
bindings of behaviours that are minted on the way. -/
inductive Key.Affected (tree : String) (pass : Int64) (first last : Nat) : Key → Prop
  | done : Affected tree pass first last (.done tree)
  | retraversals : Affected tree pass first last (.retraversals tree)
  | misses : Affected tree pass first last (.misses tree pass)
  | binding {k : Nat} (hfirst : first ≤ k) (hlast : k < last) :
    Affected tree pass first last (.binding (Identifier.render k))

/-- The changes from one network to another stay with a tree, a session and a behaviour. -/
structure Net.Confined (n m : Net) (tree session behaviour : String) (pass : Int64) : Prop where
  text : ∀ k, ¬ k.Affected tree pass n.minted m.minted → m.text k = n.text k
  next : ∀ b, b ≠ behaviour → m.next b = n.next b
  outputs : ∀ o, o ≠ session → m.outputs o = n.outputs o

namespace Net

variable {n m : Net} {tree session behaviour : String} {pass : Int64}

theorem Confined.refl (n : Net) : n.Confined n tree session behaviour pass :=
  ⟨fun _ _ => rfl, fun _ _ => rfl, fun _ _ => rfl⟩

theorem queueAll_outputs (p : Payload) (producer : String) (behaviours : List String) :
    ∀ n : Net, (n.queueAll p producer behaviours).outputs = n.outputs := fun n =>
  (neutral_queueAll p producer behaviours n).1.outputs

/-- The payloads that are queued, in the order of the behaviours, each under an identifier of its
own. -/
theorem queueAll_successors (p : Payload) (producer : String) (behaviours : List String) :
    ∀ n : Net, n.minted ≤ (n.queueAll p producer behaviours).minted ∧ ∃ qs : List Payload,
      (n.queueAll p producer behaviours).queue = n.queue ++ qs.map Payload.encode ∧
      List.Forall₂ (fun b q => ∃ k, n.minted ≤ k ∧
        k < (n.queueAll p producer behaviours).minted ∧ q = Engine.successorPayload p producer
          (Identifier.render k) b ((n.text (.binding b)).getD "")) behaviours qs := by
  induction behaviours with
  | nil => exact fun n => ⟨Nat.le_refl _, [], by simp [queueAll], .nil⟩
  | cons b behaviours ih =>
    intro n
    obtain ⟨q, hq⟩ : ∃ q, q = Engine.successorPayload p producer n.fresh b
        ((n.text (.binding b)).getD "") := ⟨_, rfl⟩
    obtain ⟨hminted, qs, hqueue, hqs⟩ := ih (n.mint.enqueue q)
    rw [queueAll, ← hq]
    have hnext : n.minted < ((n.mint.enqueue q).queueAll p producer behaviours).minted := hminted
    refine ⟨hnext.le, q :: qs, ?_, .cons ⟨n.minted, Nat.le_refl _, hnext, hq⟩ (hqs.imp ?_)⟩
    · rw [hqueue, List.map_cons, enqueue_queue, List.append_assoc]
      rfl
    · rintro b' q' ⟨k, hfirst, hlast, rfl⟩
      exact ⟨k, (Nat.le_succ _).trans hfirst, hlast, rfl⟩

theorem close_eq (n : Net) (b : String) (behaviours : List String) : n.close b behaviours =
    { n with events := n.events ++ if behaviours.length = 0 then [.deadEnd b] else [] } := by
  unfold close
  split
  · rfl
  · rw [List.append_nil]

/-- Connections are made for one producer, to behaviours that are minted for it. -/
theorem confined_connected {r : Registry} {limit : UInt64} {args : List Value}
    {behaviours : List String}
    (h : Engine.Connected r limit n behaviour args behaviours m) {k : Net} (htext : k.text = m.text)
    (hnext : k.next = m.next) (houtputs : k.outputs = m.outputs) (hminted : m.minted ≤ k.minted) :
    n.Confined k tree session behaviour pass := by
  have hlearns := (onlyLearns_connected h).outputs
  cases h with
  | known => exact ⟨fun _ _ => congrFun htext _, fun _ _ => congrFun hnext _,
      fun _ _ => congrFun houtputs _⟩
  | explored _ cells =>
    refine ⟨fun key hkey => ?_, fun b hb => ?_, fun o _ => congrFun (houtputs.trans hlearns) o⟩
    · rw [htext]
      refine sprout_text cells n fun b hb heq => hkey ?_
      obtain ⟨j, hfirst, hlast, rfl⟩ := mem_sprout.mp hb
      rw [wire_minted, sprout_minted] at hminted
      exact heq ▸ .binding hfirst (hlast.trans_le hminted)
    · rw [hnext, wire_next, Function.update_of_ne hb, sprout_next]

/-- Whatever becomes of a result, its tree is counted for, and its session gets the output. -/
theorem confined_concluded {limit : UInt32} {ctx : Context} {output : String}
    {r : Except CellError (List Value)} (h : Cell.Concluded limit n ctx tree session output r m) :
    n.Confined m tree session behaviour ctx.pass := by
  have hcounted : ∀ {first last : Nat} {k : Key}, ¬ k.Affected tree ctx.pass first last →
      k ≠ .done tree ∧ k ≠ .misses tree ctx.pass ∧ k ≠ .retraversals tree := fun hk =>
    ⟨fun h => hk (h ▸ .done), fun h => hk (h ▸ .misses), fun h => hk (h ▸ .retraversals)⟩
  cases h with
  | answered => exact .refl n
  | delivered =>
    refine ⟨fun k hk => ?_, fun _ _ => rfl, fun o ho => Function.update_of_ne ho _ _⟩
    exact count_text_of_ne (hcounted hk).1
  | passedOver =>
    refine ⟨fun k hk => ?_, fun _ _ => rfl, fun _ _ => rfl⟩
    exact count_text_of_ne (hcounted hk).2.1
  | exhausted | restarted =>
    refine ⟨fun k hk => ?_, fun _ _ => rfl, fun _ _ => rfl⟩
    exact (count_text_of_ne (hcounted hk).2.2).trans (count_text_of_ne (hcounted hk).2.1)

end Net

variable {σ : Type} [Store σ] [FaultFree σ]

/-- What changes from one world to another when a payload of a tree and a session is processed. -/
structure World.Confined (w w' : World σ) (p : Payload) (tree session : String) : Prop where
  texts : ∀ key, w'.contents.text key ≠ w.contents.text key →
    ∃ k : Key, k.Affected tree p.context.pass w.minted w'.minted ∧ key = k.render
  sets : ∀ key, key ≠ (Key.connections p.destination).render →
    w'.contents.set key = w.contents.set key
  outputs : ∀ other, other ≠ session → w'.outputs other = w.outputs other
  rankings : ∀ key, key ≠ (Key.trace tree).render → ranking w'.store key = ranking w.store key

/-- What is kept under keys that are told apart is confined as soon as the networks are. -/
theorem Net.Confined.world {w w' : World σ} {p : Payload} {tree session : String}
    (h : w.net.Confined w'.net tree session p.destination p.context.pass)
    (hkeyed : w.contents.Keyed) (hkeyed' : w'.contents.Keyed)
    (hchanges : ChangesOneRanking (Key.trace tree).render w.rankings w'.rankings) :
    w.Confined w' p tree session where
  texts key hkey := by
    have hregular : ∃ k : Key, k.Regular ∧ key = k.render := by
      cases htext : w.contents.text key with
      | some value => exact hkeyed.texts key (by rw [htext]; rfl)
      | none =>
        refine hkeyed'.texts key (Option.isSome_iff_ne_none.mpr ?_)
        exact htext ▸ hkey
    obtain ⟨k, hk, rfl⟩ := hregular
    refine ⟨k, by_contra fun hnot => hkey ?_, rfl⟩
    rw [← w.net_text k hk, ← w'.net_text k hk]
    exact h.text k hnot
  sets key hkey := by
    by_contra hne
    have hconnections : ∃ b, key = (Key.connections b).render := by
      cases hset : w.contents.set key with
      | some members => exact hkeyed.sets key (by rw [hset]; rfl)
      | none =>
        refine hkeyed'.sets key (Option.isSome_iff_ne_none.mpr ?_)
        exact hset ▸ hne
    obtain ⟨b, rfl⟩ := hconnections
    refine hne (h.next b ?_)
    rintro rfl
    exact hkey rfl
  outputs := h.outputs
  rankings := hchanges.aside

/-! ## Results -/

/-- A payload that brings results to one of the behaviours that follow: for that behaviour, the cell
that it runs, and the one that it comes from, and otherwise in the same context. -/
def Payload.Continues (p : Payload) (results : List Value) (w w' : World σ) (behaviour : String)
    (q : Payload) : Prop :=
  ∃ k cell, w.minted ≤ k ∧ k < w'.minted ∧ w'.text (.binding behaviour) = some cell ∧ q =
    { args := results
      context := { p.context with
        id := Identifier.render k
        behaviour := some behaviour
        cell := some cell }
      destination := behaviour
      sources := [p.destination] }

/-- A payload with which a tree begins anew: with the text of its submission, for its first
behaviour, in the walk after the one that missed. -/
def Payload.Renews (p : Payload) (tree input : String) (w w' : World σ) (q : Payload) : Prop :=
  ∃ k first cell, w.minted ≤ k ∧ k < w'.minted ∧ w.text (.firstBehaviour tree) = some first ∧
    w.text (.binding first) = some cell ∧ q =
      { args := [.text input]
        context := { p.context with
          id := Identifier.render k
          behaviour := some first
          cell := some cell
          pass := p.context.pass + 1 }
        destination := first
        sources := [p.destination] }

/-- What the result of a payload of a tree tells of what was done between two worlds. -/
def Engine.Tells (e : Engine) (p : Payload) (tree : String) (s : Submission) (w w' : World σ) :
    Except EngineError Outcome → Prop
  | .ok (.forwarded n) => ∃ cell results behaviours qs, e.cellFor p = .ok cell ∧
    (w.run (cell.call p.context p.args).run).1 = .ok results ∧
    w'.connections p.destination = some behaviours ∧ behaviours.length = n ∧
    w'.queue = w.queue ++ qs.map Payload.encode ∧
    List.Forall₂ (p.Continues results w w') behaviours qs ∧
    w'.events = w.events ++ (if n = 0 then [.deadEnd p.destination] else []) ∧
    w'.outputs s.session = w.outputs s.session
  | .ok .terminated => w'.queue = w.queue ∧ ∃ delivered : List String, delivered.length ≤ 1 ∧
    w'.outputs s.session = w.outputs s.session ++ delivered ∧
    w'.events = w.events ++ delivered.map (.emitted s.session tree ·)
  | .error (.cell (.expectationNotMet _ _)) => ∃ q, p.Renews tree s.input w w' q ∧
    w'.queue = w.queue ++ [q.encode] ∧ w'.events = w.events ∧
    w'.outputs s.session = w.outputs s.session
  | .error _ => w'.queue = w.queue ∧ w'.events = w.events ∧
    w'.outputs s.session = w.outputs s.session

namespace Engine.Tells

variable {e : Engine} {p : Payload} {tree : String} {s : Submission} {w w' : World σ}

/-- Results that are passed on are what the cell comes to, and they go where the connections
lead. -/
theorem of_passedOn {born : String → Submission → Prop} (hinv : Inv σ e.registry born w.net)
    {name : String} {cell : Cell} {results : List Value} {behaviours : List String} {m : Net}
    (hbinding : w.net.text (.binding p.destination) = some name)
    (hcell : e.registry.get? name = some cell) (hfound : e.cellFor p = .ok cell)
    (hsteady : cell.Steady σ) (hterminal : cell.terminal = false)
    (hyields : cell.Yields σ p.args results)
    (hconnected : Connected e.registry e.config.maxSignals w.net p.destination results behaviours m)
    (hnet : w'.net = (m.queueAll { p with args := results } p.destination behaviours).close
      p.destination behaviours) :
    e.Tells p tree s w w' (.ok (.forwarded behaviours.length)) := by
  obtain ⟨hinv', hgrows, hnext⟩ :=
    hinv.connected hbinding hcell hterminal hyields.kinds hconnected
  have hlearns := Net.onlyLearns_connected hconnected
  obtain ⟨htext, hkept, hevents, -⟩ :=
    m.queueAll_payloads { p with args := results } p.destination behaviours
  have houtputs := Net.queueAll_outputs { p with args := results } p.destination behaviours m
  obtain ⟨hminted, qs, hqueue, hqs⟩ :=
    m.queueAll_successors { p with args := results } p.destination behaviours
  rw [Net.close_eq] at hnet
  have hunseparated : w.contents.text Key.separator.render = none :=
    (w.net_text .separator trivial).symm.trans hinv.separator
  refine ⟨cell, results, behaviours, qs, hfound,
    hsteady.computes hyields w p.context hunseparated, ?_, rfl, ?_, ?_, ?_, ?_⟩
  · exact ((congrFun (congrArg Net.next hnet) _).trans (congrFun hkept _)).trans hnext
  · exact (congrArg Net.queue hnet).trans (hqueue.trans (congrArg (· ++ _) hlearns.queue))
  · have hall : ∀ b ∈ behaviours, ∃ name', m.text (.binding b) = some name' := by
      intro b hb
      obtain ⟨_, _, _, _, _, htakes⟩ := hinv'.wired _ _ hnext
      obtain ⟨name', _, hbinding', _⟩ := htakes b hb
      exact ⟨name', hbinding'⟩
    refine ((List.forall₂_and_left _ _).mpr ⟨hall, hqs⟩).imp ?_
    rintro b q ⟨⟨name', hname'⟩, k, hfirst, hlast, rfl⟩
    have htext' : w'.text (.binding b) = some name' := by
      refine (w'.net_text (.binding b) trivial).symm.trans ?_
      rw [hnet]
      exact (congrFun htext _).trans hname'
    have hlast' : k < w'.minted := hlast.trans_eq (congrArg Net.minted hnet).symm
    refine ⟨k, name', hgrows.minted.trans hfirst, hlast', htext', ?_⟩
    rw [hname']
    rfl
  · exact (congrArg Net.events hnet).trans
      (congrArg (· ++ _) (hevents.trans hlearns.events))
  · exact congrFun ((congrArg Net.outputs hnet).trans (houtputs.trans hlearns.outputs)) _

/-- A result that was concluded leaves at most one output, or one payload that begins the tree
anew. -/
theorem of_concluded (hsound : Sound σ e.registry w.net tree s p) {limit : UInt32}
    {output : String} {r : Except CellError (List Value)}
    (h : Cell.Concluded limit w.net p.context tree s.session output r w'.net) :
    e.Tells p tree s w w' ((r.mapError EngineError.cell).map fun _ => .terminated) := by
  generalize hm : w'.net = m at h
  have hqueue : w'.queue = m.queue := congrArg Net.queue hm
  have hevents : w'.events = m.events := congrArg Net.events hm
  have houtputs : w'.outputs s.session = m.outputs s.session :=
    congrFun (congrArg Net.outputs hm) s.session
  cases h with
  | answered | passedOver =>
    exact ⟨hqueue, [], Nat.zero_le _, houtputs.trans (List.append_nil _).symm,
      hevents.trans (List.append_nil _).symm⟩
  | delivered =>
    refine ⟨hqueue, [output], Nat.le_refl _, houtputs.trans ?_, hevents⟩
    exact Function.update_self _ _ _
  | exhausted => exact ⟨hqueue, hevents, houtputs⟩
  | @restarted _ _ _ _ information text first cell hinformation htext hfirst hcell =>
    -- the text on record is that of the submission
    obtain ⟨i, hi, hinput⟩ := hsound.information
    obtain rfl := Option.mem_unique hi hinformation
    obtain rfl := Option.mem_unique hinput htext
    have hminted : w.minted < w'.minted :=
      (Nat.lt_succ_self _).trans_eq (congrArg Net.minted hm).symm
    refine ⟨_, ⟨w.minted, first, cell, Nat.le_refl _, hminted, ?_, ?_, ?_⟩, hqueue, hevents,
      houtputs⟩
    · exact (w.net_text (.firstBehaviour tree) trivial).symm.trans hfirst
    · exact (w.net_text (.binding first) trivial).symm.trans hcell
    · unfold Cell.restartPayload
      rw [hsound.behaviour]
      rfl

end Engine.Tells

/-- The result of a sound payload tells what was done, and what was done is confined. -/
theorem Engine.Processed.tells {e : Engine} {born : String → Submission → Prop} {p : Payload}
    {tree name : String} {s : Submission} {cell : Cell} {w w' : World σ}
    {r : Except EngineError Outcome} (he : e.Orderly σ) (hinv : Inv σ e.registry born w.net)
    (hsound : Sound σ e.registry w.net tree s p)
    (hbinding : w.net.text (.binding p.destination) = some name)
    (hcell : e.registry.get? name = some cell)
    (h : Processed σ e (fun n m => m = n) w.net p cell tree s.session r w'.net) :
    e.Tells p tree s w w' r ∧
      w.net.Confined w'.net tree s.session p.destination p.context.pass := by
  have hregistered := Registry.name_of_get? hcell
  generalize hm : w'.net = m at h
  have hunchanged : m = w.net → w'.queue = w.queue ∧ w'.events = w.events ∧
      w'.outputs s.session = w.outputs s.session := fun hsame =>
    ⟨congrArg Net.queue (hm.trans hsame), congrArg Net.events (hm.trans hsame),
      congrFun (congrArg Net.outputs (hm.trans hsame)) _⟩
  cases h with
  | objected hother hsame =>
    exact ⟨hunchanged hsame, hsame ▸ .refl _⟩
  | ended hother hsame =>
    obtain ⟨hqueue, hevents, houtputs⟩ := hunchanged hsame
    exact ⟨⟨hqueue, [], Nat.zero_le _, houtputs.trans (List.append_nil _).symm,
      hevents.trans (List.append_nil _).symm⟩, hsame ▸ .refl _⟩
  | @passedOn m₀ m₁ results behaviours hother hsame hterminal hyields hconnected =>
    subst hsame
    obtain ⟨htext, hnext, -⟩ :=
      m₁.queueAll_payloads { p with args := results } p.destination behaviours
    obtain ⟨hminted, -⟩ :=
      m₁.queueAll_successors { p with args := results } p.destination behaviours
    have houtputs := Net.queueAll_outputs { p with args := results } p.destination behaviours m₁
    refine ⟨.of_passedOn hinv hbinding hcell (hsound.cellFor hbinding hcell)
      (he.steady name cell hcell (hregistered ▸ hother)) hterminal hyields hconnected hm, ?_⟩
    rw [Net.close_eq]
    exact Net.confined_connected hconnected htext hnext houtputs hminted
  | concluded hout hargs hconcluded =>
    subst hm
    exact ⟨.of_concluded hsound hconcluded, Net.confined_concluded hconcluded⟩

/-- **The result of a payload tells its exact effect.** After any run of an engine of standard
cells, processing a queued payload, of whatever tree and wherever in the queue, does what
`Engine.Tells` reads off the result, and changes nothing that does not belong to the tree, the
session or the behaviour of the payload or to behaviours minted on the way. -/
theorem outcome_tells_effect [SeparateRankings σ] {config : Config} {e : Engine}
    (he : Engine.assemble { config, cells := some (Cell.standard config) } = .ok e)
    {w₀ w : World σ} {ds : List Label} (h₀ : w₀.Empty) (hrun : Run e w₀ ds w) {store : σ}
    {before after : List String} {item : String} {p : Payload}
    (hqueue : w.queue = before ++ item :: after)
    (hstore : FaultFree.contents store = w.contents.putList Key.eventQueue.render (before ++ after))
    (hread : Payload.decode? item = some p) :
    ∃ tree s, Born ds tree s ∧ p.context.tree = some tree ∧ p.context.session = some s.session ∧
      p.context.behaviour = some p.destination ∧ p.context.expectation = s.expectation ∧
      e.Tells p tree s { w with store } (World.run (e.process p).run { w with store }).2
        (World.run (e.process p).run { w with store }).1 ∧
      World.Confined { w with store } (World.run (e.process p).run { w with store }).2 p tree
        s.session := by
  have horderly : e.Orderly σ := Engine.orderly_of_standard he
  have hinv := run_inv horderly.serves h₀ hrun
  obtain ⟨-, tree, s, hborn, hsound⟩ := hinv.exists_sound hqueue hread
  -- the payload is processed where it was taken out of the queue
  have hnet := World.net_of_requeued hstore
  have hrequeued := Net.alike_requeue (n := w.net) hqueue
  have hinv' := hinv.alike hrequeued
  have hsound' := hsound.mono hrequeued.grows
  obtain ⟨name, -, hbinding⟩ := hsound'.cell
  obtain ⟨cell, hcell⟩ := Option.isSome_iff_exists.mp (hinv'.bound _ _ hbinding)
  have hprocessed := process_ensures_of_sound horderly.serves hinv' hborn hsound' hbinding hcell
    { w with store } hnet
  rw [← hnet] at hinv' hsound' hbinding hprocessed
  obtain ⟨htells, hconfined⟩ :=
    Engine.Processed.tells horderly hinv' hsound' hbinding hcell hprocessed
  have hkeying := Engine.keying_of_standard he
  have hkeyed : World.contents { w with store } |>.Keyed := by
    have hkeyed := hrun.keyed hkeying h₀
    show (FaultFree.contents store).Keyed
    rw [hstore]
    exact ⟨hkeyed.texts, hkeyed.sets⟩
  have hkeyed' := Program.Only.keyed (Engine.process_keying hkeying p) hkeyed
  have hchanges :=
    Engine.process_changesOneRanking (Engine.ageless_of_standard he) hsound.tree { w with store }
  exact ⟨tree, s, hborn, hsound.tree, hsound.session, hsound.behaviour, hsound.expectation, htells,
    hconfined.world hkeyed hkeyed' hchanges⟩

/-- The payload of a text, taken out of the queue as a worker takes it. -/
theorem outcome_tells_effect_of_text : ∃ (e : Engine) (w : World Memory) (p : Payload)
    (tree : String) (s : Submission),
    Engine.assemble { cells := some (Cell.standard {}) } = .ok e ∧
    Run e (.inMemory 0) [.accepted { input := "4 5", session := "a" } (.ok tree)] w ∧
    w.queue = [p.encode] ∧ p.context.tree = some tree ∧
    let taken : World Memory :=
      { w with store := (Store.perform (.pop Key.eventQueue.render) w.store).2 }
    e.Tells p tree s taken (taken.run (e.process p).run).2 (taken.run (e.process p).run).1 ∧
      taken.Confined (taken.run (e.process p).run).2 p tree s.session := by
  obtain ⟨e, he⟩ := Engine.exists_standard {} rfl
  have h₀ := World.empty_inMemory 0
  obtain ⟨w, hstep, hnet⟩ :=
    Step.exists_accepted e (World.inMemory 0) { input := "4 5", session := "a" }
  obtain ⟨-, -, id, i, b, hqueue⟩ :=
    (World.inMemory 0).net.accept_announced { input := "4 5", session := "a" }
  rw [h₀.net_queue, List.nil_append, ← hnet] at hqueue
  have hrun := (Run.nil (World.inMemory 0)).snoc hstep
  obtain ⟨-, hstore⟩ := exists_popped (w := w) hqueue
  have hsplit : w.queue = [] ++ [Payload.encode _] := hqueue
  obtain ⟨tree, s, -, htree, -, -, -, htells, hconfined⟩ :=
    outcome_tells_effect he h₀ hrun hsplit hstore (Payload.decode?_encode _)
  obtain rfl := Option.some.inj htree
  exact ⟨e, w, _, _, s, he, hrun, hqueue, rfl, htells, hconfined⟩

end SelfWiring
