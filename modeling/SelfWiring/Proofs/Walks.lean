import Mathlib.Tactic.Abel
import SelfWiring.Proofs.Hops

/-!
# Walks

A walk of a tree begins at its first behaviour, and every hop of it follows another along the
connections. So the hops that were processed and those that wait in the queue are together the hops
with which walks began and those that follow a hop processed. What was left out of the queue, or
queued twice, would break this balance; where nothing waits, it settles all hops of a walk.
-/

namespace SelfWiring

/-! ## The hops of a tree -/

/-- The hop of a payload of a tree, if it belongs to one of the walks asked for. -/
def Payload.hopOn? (tree : String) (walk : Int64 → Bool) (p : Payload) : Option Hop :=
  if p.context.tree = some tree ∧ walk p.context.pass = true then some p.hop else none

def Label.hopOn? (tree : String) (walk : Int64 → Bool) : Label → Option Hop
  | .accepted _ _ => none
  | .processed p _ _ => p.hopOn? tree walk

/-- The hops of a tree that were processed. -/
def hopsOf (tree : String) (walk : Int64 → Bool) (ds : List Label) : Multiset Hop :=
  (ds.filterMap (Label.hopOn? tree walk) : List Hop)

/-- The hops of a tree among queued payloads. -/
def hopsIn (tree : String) (walk : Int64 → Bool) (items : List String) : Multiset Hop :=
  (items.filterMap fun item => (Payload.decode? item).bind (Payload.hopOn? tree walk) : List Hop)

/-- The submission with which a tree began. -/
def Label.submission? (tree : String) : Label → Option Submission
  | .accepted s (.ok t) => if t = tree then some s else none
  | _ => none

/-- The hop with which a walk of a tree begins. -/
def Net.rootHop (n : Net) (tree : String) (s : Submission) (sources : List String) : Hop :=
  ⟨(n.text (.firstBehaviour tree)).getD "", some (Engine.entryCell s), [.text s.input], sources⟩

/-- The hops with which the first walk of a tree began. -/
def Net.begun (n : Net) (tree : String) (walk : Int64 → Bool) (ds : List Label) : Multiset Hop :=
  if walk 0 = true then
    ((ds.filterMap (Label.submission? tree)).map fun s => n.rootHop tree s [] : List Hop)
  else 0

/-- The hops with which the walks of a tree began. -/
def Net.roots (n : Net) (tree : String) (walk : Int64 → Bool) (ds : List Label) : Multiset Hop :=
  n.begun tree walk ds + hopsIn tree walk (ds.flatMap (Label.restarts tree))

section

variable {tree : String} {walk : Int64 → Bool}

theorem hopsOf_append (ds ds' : List Label) :
    hopsOf tree walk (ds ++ ds') = hopsOf tree walk ds + hopsOf tree walk ds' := by
  unfold hopsOf
  rw [List.filterMap_append, Multiset.coe_add]

theorem hopsOf_accepted (s : Submission) (result : Except EngineError String) :
    hopsOf tree walk [.accepted s result] = 0 := rfl

theorem hopsOf_processed (p : Payload) (result : Except EngineError Outcome)
    (queued : List String) :
    hopsOf tree walk [.processed p result queued] = (p.hopOn? tree walk).toList := by
  have hop : (Label.processed p result queued).hopOn? tree walk = p.hopOn? tree walk := rfl
  unfold hopsOf
  rw [List.filterMap_cons, List.filterMap_nil, hop]
  cases p.hopOn? tree walk <;> rfl

theorem hopsIn_append (items items' : List String) :
    hopsIn tree walk (items ++ items') = hopsIn tree walk items + hopsIn tree walk items' := by
  unfold hopsIn
  rw [List.filterMap_append, Multiset.coe_add]

theorem hopsIn_map_encode (qs : List Payload) :
    hopsIn tree walk (qs.map Payload.encode) =
      (qs.filterMap (Payload.hopOn? tree walk) : List Hop) := by
  unfold hopsIn
  rw [List.filterMap_map]
  congr 2
  funext q
  rw [Function.comp_apply, Payload.decode?_encode]
  rfl

theorem hopsIn_encode (q : Payload) :
    hopsIn tree walk [q.encode] = (q.hopOn? tree walk).toList := by
  have hone : hopsIn tree walk ([q].map Payload.encode) = _ := hopsIn_map_encode [q]
  rw [List.map_singleton] at hone
  rw [hone, List.filterMap_cons, List.filterMap_nil]
  cases q.hopOn? tree walk <;> rfl

/-- Taking a payload out of the queue takes its hop. -/
theorem hopsIn_taken (before after : List String) (p : Payload) :
    hopsIn tree walk (before ++ p.encode :: after) =
      hopsIn tree walk (before ++ after) + (p.hopOn? tree walk).toList := by
  rw [← List.singleton_append, hopsIn_append, hopsIn_append, hopsIn_append, hopsIn_encode]
  abel

theorem mem_submission?_iff {ds : List Label} {s : Submission} :
    s ∈ ds.filterMap (Label.submission? tree) ↔ Born ds tree s := by
  rw [List.mem_filterMap]
  constructor
  · rintro ⟨d, hd, hs⟩
    rcases d with ⟨s', _ | t⟩ | ⟨p, result, queued⟩
    · exact absurd hs (by simp [Label.submission?])
    · simp only [Label.submission?, Option.ite_none_right_eq_some, Option.some.injEq] at hs
      obtain ⟨rfl, rfl⟩ := hs
      exact hd
    · exact absurd hs (by simp [Label.submission?])
  · intro hborn
    exact ⟨_, hborn, if_pos rfl⟩

end

variable {σ : Type} [Store σ] [FaultFree σ] {e : Engine} {born : String → Submission → Prop}
  {n m : Net}

/-- The first behaviour of a tree stays the first, and so do the hops with which walks begin. -/
theorem Net.rootHop_mono {r : Registry} (hinv : Inv σ r born n) (hgrows : n.Grows m)
    {tree : String} {s s' : Submission} (hborn : born tree s') (sources : List String) :
    m.rootHop tree s sources = n.rootHop tree s sources := by
  obtain ⟨_, _, b, hfirst, _⟩ := hinv.planted tree s' hborn
  unfold Net.rootHop
  rw [hfirst, hgrows.firstBehaviour hfirst]

/-! ## Advances -/

/-- What a processed payload queues: the hops that follow its own, or, at the output cell, the hops
with which its tree begins anew. -/
inductive Follows (σ : Type) [Store σ] [FaultFree σ] (e : Engine) (m : Net) (tree : String)
    (s : Submission) (p : Payload) (qs : List Payload) : Prop
  | onward (hother : p.context.cell ≠ some Cell.outputName) (hexplored : m.Explored σ e p.hop)
    (hqs : ∀ q ∈ qs, q.context.tree = p.context.tree ∧ q.context.pass = p.context.pass)
    (hhops : (qs.map Payload.hop : List Hop) = m.onward σ e p.hop)
  | anew (hout : p.context.cell = some Cell.outputName)
    (hqs : ∀ q ∈ qs, q.context.tree = p.context.tree ∧ q.hop = m.rootHop tree s [p.destination])

/-- What a step does to the hops that wait. -/
inductive Advance (σ : Type) [Store σ] [FaultFree σ] (e : Engine)
    (born : String → Submission → Prop) (n : Net) : Label → Net → Prop
  | began (s : Submission) {q : Payload} {m : Net} (hnext : m.next = n.next)
    (hqueue : m.queue = n.queue ++ [q.encode]) (htree : q.context.tree = some n.fresh)
    (hpass : q.context.pass = 0) (hhop : q.hop = m.rootHop n.fresh s []) :
    Advance σ e born n (.accepted s (.ok n.fresh)) m
  | took {before after : List String} {p : Payload} {tree : String} {s : Submission}
    {result : Except EngineError Outcome} {qs : List Payload} {m : Net}
    (hqueue : n.queue = before ++ p.encode :: after) (hborn : born tree s)
    (htree : p.context.tree = some tree) (hplaced : n.Placed p.hop)
    (hnarrow : ∀ b behaviours, m.next b = some behaviours →
      n.next b = some behaviours ∨ behaviours.length ≤ e.config.maxSignals.toNat)
    (hqueued : m.queue = before ++ after ++ qs.map Payload.encode)
    (hfollows : Follows σ e m tree s p qs) :
    Advance σ e born n (.processed p result (qs.map Payload.encode)) m

namespace Net

theorem length_addMembers_le (members : List String) :
    ∀ present : List String,
      (addMembers present members).length ≤ present.length + members.length := by
  induction members with
  | nil => intro present; exact Nat.le_refl _
  | cons a members ih =>
    intro present
    show (addMembers (if present.contains a then present else present ++ [a]) members).length ≤ _
    refine Nat.le_trans (ih _) ?_
    split
    · rw [List.length_cons]
      omega
    · rw [List.length_append, List.length_singleton, List.length_cons]
      omega

/-- Connections that are made are no more than an exploration may make. -/
theorem connected_narrow {r : Registry} {limit : UInt64} {producer : String} {args : List Value}
    {behaviours : List String} (h : Engine.Connected r limit n producer args behaviours m)
    {b : String} {successors : List String} (hnext : m.next b = some successors) :
    n.next b = some successors ∨ successors.length ≤ limit.toNat := by
  cases h with
  | known => exact Or.inl hnext
  | explored hnone cells hcells hlimit =>
    by_cases hb : b = producer
    · subst hb
      rw [wire_next, Function.update_self] at hnext
      right
      rw [← Option.some.inj hnext]
      refine Nat.le_trans (length_addMembers_le _ _) ?_
      rw [length_sprout, List.length_nil, Nat.zero_add]
      exact hlimit
    · left
      rw [wire_next, Function.update_of_ne hb, sprout_next] at hnext
      exact hnext

/-- The payloads that are queued for the behaviours, one for each, and nothing else that changes. -/
theorem queueAll_payloads (p : Payload) (producer : String) (behaviours : List String) :
    ∀ n : Net, (n.queueAll p producer behaviours).text = n.text ∧
      (n.queueAll p producer behaviours).next = n.next ∧
      (n.queueAll p producer behaviours).events = n.events ∧ ∃ qs : List Payload,
        (n.queueAll p producer behaviours).queue = n.queue ++ qs.map Payload.encode ∧
        (∀ q ∈ qs, ∃ b ∈ behaviours, ∃ id, q = Engine.successorPayload p producer id b
          ((n.text (.binding b)).getD "")) ∧
        qs.map Payload.hop = behaviours.map fun b =>
          ⟨b, some ((n.text (.binding b)).getD ""), p.args, [producer]⟩ := by
  induction behaviours with
  | nil => intro n; exact ⟨rfl, rfl, rfl, [], by simp [queueAll], by simp, rfl⟩
  | cons b behaviours ih =>
    intro n
    obtain ⟨q, hq⟩ : ∃ q, q = Engine.successorPayload p producer n.fresh b
        ((n.text (.binding b)).getD "") := ⟨_, rfl⟩
    obtain ⟨htext, hnext, hevents, qs, hqueue, hqs, hhops⟩ := ih (n.mint.enqueue q)
    rw [queueAll, ← hq]
    refine ⟨htext, hnext, hevents, q :: qs, ?_, fun q' hq' => ?_, ?_⟩
    · rw [hqueue, List.map_cons, enqueue_queue, List.append_assoc]
      rfl
    · rcases List.mem_cons.mp hq' with rfl | hq'
      · exact ⟨b, List.mem_cons_self, n.fresh, hq⟩
      · obtain ⟨b', hb', id, rfl⟩ := hqs q' hq'
        exact ⟨b', List.mem_cons_of_mem _ hb', id, rfl⟩
    · rw [List.map_cons, List.map_cons, hhops, hq]
      rfl

/-- Queueing results learns nothing, and the hops that are queued go to the behaviours given. -/
theorem queueAll_hops (p : Payload) (producer : String) (behaviours : List String) (n : Net)
    (hbound : ∀ b ∈ behaviours, (n.text (.binding b)).isSome = true) :
    (n.queueAll p producer behaviours).text = n.text ∧
      (n.queueAll p producer behaviours).next = n.next ∧ ∃ qs : List Payload,
        (n.queueAll p producer behaviours).queue = n.queue ++ qs.map Payload.encode ∧
        (∀ q ∈ qs, q.context.tree = p.context.tree ∧ q.context.pass = p.context.pass) ∧
        qs.map Payload.hop =
          behaviours.map fun b => ⟨b, n.text (.binding b), p.args, [producer]⟩ := by
  obtain ⟨htext, hnext, -, qs, hqueue, hqs, hhops⟩ := n.queueAll_payloads p producer behaviours
  refine ⟨htext, hnext, qs, hqueue, fun q hq => ?_, hhops.trans ?_⟩
  · obtain ⟨_, _, _, rfl⟩ := hqs q hq
    exact ⟨rfl, rfl⟩
  · refine List.map_congr_left fun b hb => ?_
    obtain ⟨cell, hcell⟩ := Option.isSome_iff_exists.mp (hbound b hb)
    rw [hcell]
    rfl

end Net

theorem Net.Alike.rootHop (h : n.Alike m) (tree : String) (s : Submission)
    (sources : List String) : m.rootHop tree s sources = n.rootHop tree s sources := by
  unfold Net.rootHop
  rw [h.lasting (.firstBehaviour tree) trivial]

/-- A conclusion connects nothing, and what it queues begins the tree anew. -/
theorem concluded_anew {r : Registry} (hinv : Inv σ r born n) {p : Payload} {tree : String}
    {s : Submission} (hborn : born tree s) (hsound : Sound σ r n tree s p) {limit : UInt32}
    {session output : String} {result : Except CellError (List Value)}
    (h : Cell.Concluded limit n p.context tree session output result m) :
    m.next = n.next ∧ ∃ qs : List Payload, m.queue = n.queue ++ qs.map Payload.encode ∧
      ∀ q ∈ qs, q.context.tree = p.context.tree ∧ q.hop = m.rootHop tree s [p.destination] := by
  cases h with
  | answered | delivered | passedOver | exhausted =>
    exact ⟨rfl, [], by simp [Net.count], by simp⟩
  | @restarted _ _ _ _ information text first cell hinformation htext hfirst hcell =>
    obtain ⟨i, hi, hinput⟩ := hsound.information
    obtain rfl := Option.mem_unique hi hinformation
    obtain rfl := Option.mem_unique hinput htext
    obtain ⟨_, _, b, hfirst', hbinding⟩ := hinv.planted tree s hborn
    obtain rfl := Option.mem_unique hfirst hfirst'
    obtain rfl := Option.mem_unique hcell hbinding
    refine ⟨rfl, [_], rfl, fun q hq => ?_⟩
    rw [List.mem_singleton.mp hq]
    refine ⟨rfl, ?_⟩
    simp [Payload.hop, Cell.restartPayload, Net.rootHop, Net.count, hfirst, hsound.behaviour]

namespace Net

theorem record_next (n : Net) (t : String) : (n.record t).2.next = n.next := by
  unfold record
  cases n.text (.informationId t) <;> rfl

theorem enter_next (n : Net) (i c : String) : (n.enter i c).2.next = n.next := by
  unfold enter
  cases n.text (.entry i c) <;> rfl

/-- Accepting connects nothing, and queues the hop with which the tree begins. -/
theorem accept_hops (n : Net) (s : Submission) : (n.accept s).next = n.next ∧ ∃ q : Payload,
    (n.accept s).queue = n.queue ++ [q.encode] ∧ q.context.tree = some n.fresh ∧
      q.context.pass = 0 ∧ q.hop = (n.accept s).rootHop n.fresh s [] := by
  have hqueue := ((n.onlyLearns_mint.trans (onlyLearns_record n.mint s.input)).trans
    (onlyLearns_enter _ (n.mint.record s.input).1 (Engine.entryCell s))).queue
  have hnext := (enter_next (n.mint.record s.input).2 (n.mint.record s.input).1
    (Engine.entryCell s)).trans (record_next n.mint s.input)
  unfold accept
  dsimp only
  generalize n.mint.record s.input = information at *
  generalize information.2.enter information.1 (Engine.entryCell s) = entry at *
  refine ⟨hnext, _, congrArg (· ++ _) hqueue, rfl, rfl, ?_⟩
  simp [rootHop, Payload.hop, Engine.firstPayload, announce]

end Net

/-- What a cell yields settles what a hop passes on. -/
theorem passes?_eq {h : Hop} {name : String} {cell : Cell} (hname : h.cell = some name)
    (hcell : e.registry.get? name = some cell) :
    e.passes? σ h = if cell.terminal then none else cell.results? σ h.args := by
  unfold Engine.passes?
  rw [hname, Option.bind_some, hcell, Option.bind_some]

/-- Results that are passed on make the hops that follow. -/
theorem passedOn_onward (he : e.Orderly σ) (hinv : Inv σ e.registry born n) {p : Payload}
    {name : String} {cell : Cell} {results : List Value} {behaviours : List String}
    (hname : p.context.cell = some name) (hbinding : n.text (.binding p.destination) = some name)
    (hcell : e.registry.get? name = some cell) (hother : name ≠ Cell.outputName)
    (hterminal : cell.terminal = false) (hyields : cell.Yields σ p.args results)
    (hconnected : Engine.Connected e.registry e.config.maxSignals n p.destination results
      behaviours m) {m' : Net}
    (hm' : m' = (m.queueAll { p with args := results } p.destination behaviours).close p.destination
      behaviours) :
    m'.next = m.next ∧ m'.Explored σ e p.hop ∧ ∃ qs : List Payload,
      m'.queue = n.queue ++ qs.map Payload.encode ∧
      (∀ q ∈ qs, q.context.tree = p.context.tree ∧ q.context.pass = p.context.pass) ∧
      (qs.map Payload.hop : List Hop) = m'.onward σ e p.hop := by
  obtain ⟨hinv', _, hnext⟩ := hinv.connected hbinding hcell hterminal hyields.kinds hconnected
  have hbound : ∀ b ∈ behaviours, (m.text (.binding b)).isSome = true := by
    intro b hb
    obtain ⟨_, _, _, _, _, htakes⟩ := hinv'.wired _ _ hnext
    obtain ⟨name', _, hbinding', _⟩ := htakes b hb
    rw [hbinding']
    rfl
  obtain ⟨htext, hkept, qs, hqueued, hqs, hhops⟩ := Net.queueAll_hops { p with args := results }
    p.destination behaviours m hbound
  have hclose := Net.alike_close (m.queueAll { p with args := results } p.destination behaviours)
    p.destination behaviours
  have hpasses : e.passes? σ p.hop = some results := by
    rw [passes?_eq hname hcell, if_neg (by simp [hterminal])]
    exact (he.steady name cell hcell hother).results?_of_yields hyields
  rw [← hm'] at hclose
  have hsame : m'.next = m.next := hclose.next.trans hkept
  have hnext' : m'.next p.destination = some behaviours := (congrFun hsame _).trans hnext
  refine ⟨hsame, Net.explored_of_next hnext', qs, ?_, hqs, ?_⟩
  · rw [hm', Net.close_queue, hqueued, (Net.onlyLearns_connected hconnected).queue]
  · rw [Net.onward_of_passes? hpasses hnext', hhops]
    congr 1
    apply List.map_congr_left
    intro b _
    rw [hclose.lasting (.binding b) trivial, htext]
    rfl

/-- A step of an orderly engine advances its hops. -/
theorem Moves.advance (he : e.Orderly σ) {d : Label} (hinv : Inv σ e.registry born n)
    (h : Moves σ e (fun n m => m = n) born n d m) : Advance σ e born n d m := by
  cases h with
  | accept s =>
    obtain ⟨hnext, q, hqueue, htree, hpass, hhop⟩ := n.accept_hops s
    exact .began s hnext hqueue htree hpass hhop
  | @process before after p tree name s cell result m hqueue hborn hsound hbinding hcell
    hprocessed =>
    have hrequeued := hinv.alike (Net.alike_requeue hqueue)
    obtain ⟨name', hname, hbinding'⟩ := hsound.cell
    obtain rfl := Option.mem_unique hbinding hbinding'
    have hregistered := Registry.name_of_get? hcell
    have hunterminated : cell.name ≠ Cell.outputName → p.context.cell ≠ some Cell.outputName :=
      fun hother hout => hother (hregistered.trans (Option.mem_unique hname hout))
    -- what is queued is read off the queue behind what was there before
    have htook : ∀ {m' : Net} (qs : List Payload),
        (∀ b behaviours, m'.next b = some behaviours →
          n.next b = some behaviours ∨ behaviours.length ≤ e.config.maxSignals.toNat) →
        m'.queue = before ++ after ++ qs.map Payload.encode → Follows σ e m' tree s p qs →
        Advance σ e born n (.processed p result (m'.queue.drop (before ++ after).length)) m' := by
      intro m' qs hnarrow hqueued hfollows
      rw [hqueued, List.drop_left]
      exact .took hqueue hborn hsound.tree ⟨name, hname, hbinding⟩ hnarrow hqueued hfollows
    -- a payload that passes nothing on queues nothing
    have hended : ∀ {m' : Net}, m'.next = n.next → m'.queue = before ++ after →
        cell.name ≠ Cell.outputName → e.passes? σ p.hop = none →
        Advance σ e born n (.processed p result (m'.queue.drop (before ++ after).length)) m' := by
      intro m' hnext hqueued hother hpasses
      refine htook [] ?_ (by simpa using hqueued) ?_
      · rw [hnext]
        exact fun b behaviours h => Or.inl h
      · refine .onward (hunterminated hother) (Net.explored_of_none hpasses) (by simp) ?_
        rw [Net.onward_of_none hpasses]
        rfl
    cases hprocessed with
    | objected hother hm reason objection hobjects =>
      subst hm
      refine hended rfl rfl hother ?_
      rw [passes?_eq hname hcell]
      split
      · rfl
      · exact (he.steady name cell hcell (hregistered ▸ hother)).results?_of_objects hobjects
    | ended hother hm hterminal =>
      subst hm
      refine hended rfl rfl hother ?_
      rw [passes?_eq hname hcell, if_pos hterminal]
    | passedOn hother hm hterminal hyields hconnected =>
      subst hm
      obtain ⟨hsame, hexplored, qs, hqueued, hqs, hhops⟩ := passedOn_onward he hrequeued hname
        hbinding hcell (hregistered ▸ hother) hterminal hyields hconnected rfl
      refine htook qs ?_ hqueued (.onward (hunterminated hother) hexplored hqs hhops)
      intro b behaviours hnext
      exact Net.connected_narrow hconnected ((congrFun hsame b).symm.trans hnext)
    | concluded hcell' hargs hconcluded =>
      subst hcell'
      obtain rfl : name = Cell.outputName := hregistered.symm
      obtain ⟨hnext, qs, hqueued, hqs⟩ := concluded_anew hrequeued hborn hsound hconcluded
      have hreport := Net.alike_report m p
      refine htook qs ?_ ?_ ?_
      · intro b behaviours hbehaviours
        rw [(hreport _).next, hnext] at hbehaviours
        exact Or.inl hbehaviours
      · rw [Net.report_queue, hqueued]
        rfl
      · refine .anew hname fun q hq => ?_
        rw [(hreport _).rootHop]
        exact hqs q hq

/-! ## The balance of hops -/

/-- What the hops of a run come to: the hops processed and those that wait are together the hops
with which walks began and those that follow the hops processed. -/
structure Net.Flow (σ : Type) [Store σ] [FaultFree σ] (e : Engine) (ds : List Label) (n : Net) :
    Prop where
  placed : ∀ p result queued, .processed p result queued ∈ ds → n.Placed p.hop
  explored : ∀ p result queued, .processed p result queued ∈ ds → n.Explored σ e p.hop
  narrow : ∀ b behaviours, n.next b = some behaviours →
    behaviours.length ≤ e.config.maxSignals.toNat
  restarted : ∀ tree, ∀ item ∈ ds.flatMap (Label.restarts tree), ∃ (q : Payload) (s : Submission)
    (source : String), item = q.encode ∧ Born ds tree s ∧ q.context.tree = some tree ∧
      q.hop = n.rootHop tree s [source]
  balance : ∀ tree walk, hopsOf tree walk ds + hopsIn tree walk n.queue =
    n.roots tree walk ds + (hopsOf tree walk ds).bind (n.onward σ e)

theorem mem_hopsOf {tree : String} {walk : Int64 → Bool} {ds : List Label} {h : Hop} :
    h ∈ hopsOf tree walk ds ↔ ∃ p result queued, .processed p result queued ∈ ds ∧
      p.hopOn? tree walk = some h := by
  unfold hopsOf
  rw [Multiset.mem_coe, List.mem_filterMap]
  constructor
  · rintro ⟨d, hd, hh⟩
    rcases d with ⟨s, result⟩ | ⟨p, result, queued⟩
    · exact absurd hh (by simp [Label.hopOn?])
    · exact ⟨p, result, queued, hd, hh⟩
  · rintro ⟨p, result, queued, hd, hh⟩
    exact ⟨_, hd, hh⟩

theorem Payload.hop_of_hopOn? {tree : String} {walk : Int64 → Bool} {p : Payload} {h : Hop}
    (hh : p.hopOn? tree walk = some h) :
    p.context.tree = some tree ∧ walk p.context.pass = true ∧ h = p.hop := by
  unfold Payload.hopOn? at hh
  split at hh
  · rename_i hon
    exact ⟨hon.1, hon.2, (Option.some.inj hh).symm⟩
  · exact absurd hh (by simp)

namespace Net.Flow

variable {ds : List Label} {tree : String} {walk : Int64 → Bool}

theorem placed_of_mem (h : n.Flow σ e ds) {hop : Hop} (hmem : hop ∈ hopsOf tree walk ds) :
    n.Placed hop := by
  obtain ⟨p, result, queued, hd, hon⟩ := mem_hopsOf.mp hmem
  obtain ⟨_, _, rfl⟩ := Payload.hop_of_hopOn? hon
  exact h.placed p result queued hd

theorem explored_of_mem (h : n.Flow σ e ds) {hop : Hop} (hmem : hop ∈ hopsOf tree walk ds) :
    n.Explored σ e hop := by
  obtain ⟨p, result, queued, hd, hon⟩ := mem_hopsOf.mp hmem
  obtain ⟨_, _, rfl⟩ := Payload.hop_of_hopOn? hon
  exact h.explored p result queued hd

theorem card_onward_le (h : n.Flow σ e ds) (hop : Hop) :
    (n.onward σ e hop).card ≤ e.config.maxSignals.toNat := by
  unfold onward
  split
  · exact Nat.zero_le _
  · rw [Multiset.coe_card, List.length_map]
    cases hnext : n.next hop.destination with
    | none => exact Nat.zero_le _
    | some behaviours => exact h.narrow _ _ hnext

variable {d : Label} (hinv : Inv σ e.registry (Born ds) n) (hgrows : n.Grows m)

include hinv hgrows

/-- What followed the hops processed so far follows them still. -/
theorem bind_onward_mono (h : n.Flow σ e ds) :
    (hopsOf tree walk ds).bind (m.onward σ e) = (hopsOf tree walk ds).bind (n.onward σ e) :=
  Multiset.bind_congr fun _ hmem => onward_mono hinv hgrows (h.explored_of_mem hmem)

theorem begun_mono : m.begun tree walk ds = n.begun tree walk ds := by
  unfold begun
  split
  · congr 1
    apply List.map_congr_left
    intro s hs
    exact rootHop_mono hinv hgrows (mem_submission?_iff.mp hs) []
  · rfl

theorem restarted_mono (h : n.Flow σ e ds) :
    ∀ item ∈ ds.flatMap (Label.restarts tree), ∃ (q : Payload) (s : Submission) (source : String),
      item = q.encode ∧ Born (ds ++ [d]) tree s ∧ q.context.tree = some tree ∧
        q.hop = m.rootHop tree s [source] := by
  intro item hitem
  obtain ⟨q, s, source, hencode, hborn, htree, hhop⟩ := h.restarted tree item hitem
  refine ⟨q, s, source, hencode, List.mem_append_left _ hborn, htree, ?_⟩
  rw [hhop, rootHop_mono hinv hgrows hborn]

end Net.Flow

/-- What a processed payload queues for a tree: what follows its hop, and what begins the tree
anew. -/
theorem Follows.hops (he : e.Orderly σ) {tree' : String} {s : Submission} {p : Payload}
    {qs : List Payload} (h : Follows σ e m tree' s p qs) (result : Except EngineError Outcome)
    (tree : String) (walk : Int64 → Bool) :
    hopsIn tree walk (qs.map Payload.encode) =
      Multiset.bind (p.hopOn? tree walk).toList (m.onward σ e) +
        hopsIn tree walk (Label.restarts tree (.processed p result (qs.map Payload.encode))) := by
  rw [hopsIn_map_encode]
  cases h with
  | onward hother _ hqs hhops =>
    have hnone : Label.restarts tree (.processed p result (qs.map Payload.encode)) = [] :=
      if_neg fun hout => hother hout.1
    rw [hnone, show hopsIn tree walk [] = 0 from rfl, add_zero]
    by_cases hon : p.context.tree = some tree ∧ walk p.context.pass = true
    · have hall : qs.filterMap (Payload.hopOn? tree walk) = qs.map Payload.hop := by
        rw [← List.filterMap_eq_map]
        apply List.filterMap_congr
        intro q hq
        obtain ⟨htree, hpass⟩ := hqs q hq
        exact if_pos (by rw [htree, hpass]; exact hon)
      have hp : p.hopOn? tree walk = some p.hop := if_pos hon
      rw [hall, hhops, hp]
      exact (Multiset.singleton_bind p.hop _).symm
    · have hnil : qs.filterMap (Payload.hopOn? tree walk) = [] := by
        rw [List.filterMap_eq_nil_iff]
        intro q hq
        obtain ⟨htree, hpass⟩ := hqs q hq
        exact if_neg (by rw [htree, hpass]; exact hon)
      have hp : p.hopOn? tree walk = none := if_neg hon
      rw [hnil, hp]
      rfl
  | anew hout hqs =>
    -- the output cell passes nothing on
    have hfollowing : Multiset.bind (p.hopOn? tree walk).toList (m.onward σ e) = 0 := by
      apply Multiset.eq_zero_of_forall_notMem
      intro hop hmem
      obtain ⟨hop', hmem', hop_mem⟩ := Multiset.mem_bind.mp hmem
      obtain ⟨_, _, rfl⟩ := Payload.hop_of_hopOn? (Option.mem_toList.mp hmem')
      rw [Net.onward_of_none (Net.passes?_of_output he hout)] at hop_mem
      exact absurd hop_mem (Multiset.notMem_zero _)
    rw [hfollowing, zero_add]
    by_cases htree : p.context.tree = some tree
    · have hall : Label.restarts tree (.processed p result (qs.map Payload.encode)) =
        qs.map Payload.encode := if_pos ⟨hout, htree⟩
      rw [hall, hopsIn_map_encode]
    · have hnone : Label.restarts tree (.processed p result (qs.map Payload.encode)) = [] :=
        if_neg fun h => htree h.2
      have hnil : qs.filterMap (Payload.hopOn? tree walk) = [] := by
        rw [List.filterMap_eq_nil_iff]
        intro q hq
        exact if_neg fun h => htree ((hqs q hq).1.symm.trans h.1)
      rw [hnone, hnil]
      rfl

theorem Net.begun_accepted (n : Net) (tree : String) (walk : Int64 → Bool) (ds : List Label)
    (s : Submission) (t : String) : n.begun tree walk (ds ++ [.accepted s (.ok t)]) =
      n.begun tree walk ds +
        if t = tree ∧ walk 0 = true then {n.rootHop tree s []} else 0 := by
  unfold begun
  by_cases hwalk : walk 0 = true
  · rw [if_pos hwalk, if_pos hwalk, List.filterMap_append, List.map_append, ← Multiset.coe_add]
    congr 1
    by_cases htree : t = tree
    · rw [if_pos ⟨htree, hwalk⟩]
      simp [Label.submission?, htree]
    · rw [if_neg fun h => htree h.1]
      simp [Label.submission?, htree]
  · rw [if_neg hwalk, if_neg hwalk, if_neg fun h => hwalk h.2]
    rfl

theorem Net.begun_processed (n : Net) (tree : String) (walk : Int64 → Bool) (ds : List Label)
    (p : Payload) (result : Except EngineError Outcome) (queued : List String) :
    n.begun tree walk (ds ++ [.processed p result queued]) = n.begun tree walk ds := by
  have hnone : [Label.processed p result queued].filterMap (Label.submission? tree) = [] := rfl
  unfold begun
  rw [List.filterMap_append, hnone, List.append_nil]

theorem mem_restarts {tree item : String} {p : Payload} {result : Except EngineError Outcome}
    {queued : List String} : item ∈ Label.restarts tree (.processed p result queued) ↔
      p.context.cell = some Cell.outputName ∧ p.context.tree = some tree ∧ item ∈ queued := by
  unfold Label.restarts
  simp only
  split
  · rename_i hout
    exact ⟨fun hitem => ⟨hout.1, hout.2, hitem⟩, fun h => h.2.2⟩
  · rename_i hout
    exact ⟨fun hitem => absurd hitem (by simp), fun h => absurd ⟨h.1, h.2.1⟩ hout⟩

namespace Net.Flow

variable {ds : List Label} {tree : String} {walk : Int64 → Bool}
  (hinv : Inv σ e.registry (Born ds) n) (hgrows : n.Grows m)

include hinv hgrows

/-- A tree that begins brings the hop that waits for it. -/
theorem balance_began (h : n.Flow σ e ds) {s : Submission} {q : Payload}
    (hqueue : m.queue = n.queue ++ [q.encode]) (htree : q.context.tree = some n.fresh)
    (hpass : q.context.pass = 0) (hhop : q.hop = m.rootHop n.fresh s []) :
    hopsOf tree walk (ds ++ [.accepted s (.ok n.fresh)]) + hopsIn tree walk m.queue =
      m.roots tree walk (ds ++ [.accepted s (.ok n.fresh)]) +
        (hopsOf tree walk (ds ++ [.accepted s (.ok n.fresh)])).bind (m.onward σ e) := by
  have hfirst : ((q.hopOn? tree walk).toList : Multiset Hop) =
      if n.fresh = tree ∧ walk 0 = true then {m.rootHop tree s []} else 0 := by
    unfold Payload.hopOn?
    simp only [htree, hpass, Option.some.injEq]
    split
    · rename_i hon
      rw [hhop, hon.1]
      rfl
    · rfl
  have hrestarts : (ds ++ [Label.accepted s (.ok n.fresh)]).flatMap (Label.restarts tree) =
      ds.flatMap (Label.restarts tree) := by
    rw [List.flatMap_append]
    simp [Label.restarts]
  unfold Net.roots
  rw [hopsOf_append, hopsOf_accepted, add_zero, hqueue, hopsIn_append, hopsIn_encode,
    Net.begun_accepted, hrestarts, Net.Flow.begun_mono hinv hgrows,
    h.bind_onward_mono hinv hgrows, hfirst, ← add_assoc, h.balance]
  unfold Net.roots
  abel

/-- A payload that is processed no longer waits, and brings what follows it. -/
theorem balance_took (he : e.Orderly σ) (h : n.Flow σ e ds) {before after : List String}
    {p : Payload} {t : String} {s : Submission} {result : Except EngineError Outcome}
    {qs : List Payload} (hqueue : n.queue = before ++ p.encode :: after)
    (hqueued : m.queue = before ++ after ++ qs.map Payload.encode)
    (hfollows : Follows σ e m t s p qs) :
    hopsOf tree walk (ds ++ [.processed p result (qs.map Payload.encode)]) +
        hopsIn tree walk m.queue =
      m.roots tree walk (ds ++ [.processed p result (qs.map Payload.encode)]) +
        (hopsOf tree walk (ds ++ [.processed p result (qs.map Payload.encode)])).bind
          (m.onward σ e) := by
  have hbefore := h.balance tree walk
  rw [hqueue, hopsIn_taken] at hbefore
  unfold Net.roots at hbefore ⊢
  rw [hopsOf_append, hopsOf_processed, hqueued, hopsIn_append (before ++ after),
    Net.begun_processed, Net.Flow.begun_mono hinv hgrows, Multiset.add_bind,
    h.bind_onward_mono hinv hgrows, List.flatMap_append, List.flatMap_singleton,
    hopsIn_append (ds.flatMap _), hfollows.hops he result tree walk]
  generalize hopsIn tree walk (before ++ after) = rest at hbefore ⊢
  generalize Multiset.bind (hopsOf tree walk ds) _ = followed at hbefore ⊢
  generalize Multiset.bind _ (m.onward σ e) = following
  generalize hopsIn tree walk (Label.restarts tree _) = anew
  calc hopsOf tree walk ds + (p.hopOn? tree walk).toList + (rest + (following + anew)) =
        hopsOf tree walk ds + (rest + (p.hopOn? tree walk).toList) + following + anew := by
          abel
    _ = _ := by
      rw [hbefore]
      abel

end Net.Flow

/-- A step keeps the balance of hops. -/
theorem Advance.flow (he : e.Orderly σ) {ds : List Label} {d : Label}
    (hinv : Inv σ e.registry (Born ds) n) (hgrows : n.Grows m) (h : n.Flow σ e ds)
    (hadvance : Advance σ e (Born ds) n d m) : m.Flow σ e (ds ++ [d]) := by
  cases hadvance with
  | @began s q _ hnext hqueue htree hpass hhop =>
    have hold : ∀ p result queued,
        Label.processed p result queued ∈ ds ++ [.accepted s (.ok n.fresh)] →
          .processed p result queued ∈ ds := by
      intro p result queued hmem
      simpa using hmem
    constructor
    · intro p result queued hmem
      exact (h.placed p result queued (hold p result queued hmem)).mono hgrows
    · intro p result queued hmem
      exact (h.explored p result queued (hold p result queued hmem)).mono hgrows
    · intro b behaviours hb
      rw [hnext] at hb
      exact h.narrow b behaviours hb
    · intro tree item hitem
      rw [List.flatMap_append] at hitem
      exact h.restarted_mono hinv hgrows item (by simpa [Label.restarts] using hitem)
    · exact fun tree walk => h.balance_began hinv hgrows hqueue htree hpass hhop
  | @took before after p t s result qs _ hqueue hborn htree hplaced hnarrow hqueued hfollows =>
    have hnew : ∀ {P : Payload → Prop}, (∀ p result queued, .processed p result queued ∈ ds → P p) →
        P p → ∀ p' result' queued',
          Label.processed p' result' queued' ∈ ds ++ [.processed p result (qs.map Payload.encode)] →
            P p' := by
      intro P hds hp p' result' queued' hmem
      rcases List.mem_append.mp hmem with hmem | hmem
      · exact hds p' result' queued' hmem
      · rw [List.mem_singleton, Label.processed.injEq] at hmem
        exact hmem.1 ▸ hp
    constructor
    · apply hnew
      · exact fun p result queued hmem => (h.placed p result queued hmem).mono hgrows
      · exact hplaced.mono hgrows
    · apply hnew
      · exact fun p result queued hmem => (h.explored p result queued hmem).mono hgrows
      · cases hfollows with
        | onward _ hexplored => exact hexplored
        | anew hout => exact Net.explored_of_none (Net.passes?_of_output he hout)
    · intro b behaviours hb
      rcases hnarrow b behaviours hb with hb | hb
      · exact h.narrow b behaviours hb
      · exact hb
    · intro tree item hitem
      rw [List.flatMap_append, List.mem_append] at hitem
      rcases hitem with hitem | hitem
      · exact h.restarted_mono hinv hgrows item hitem
      · rw [List.flatMap_singleton, mem_restarts] at hitem
        obtain ⟨hout, htree', hitem⟩ := hitem
        obtain rfl := Option.mem_unique htree htree'
        obtain ⟨q, hq, rfl⟩ := List.mem_map.mp hitem
        cases hfollows with
        | onward hother => exact absurd hout hother
        | anew _ hqs =>
          obtain ⟨hfork, hhop⟩ := hqs q hq
          exact ⟨q, s, _, rfl, List.mem_append_left _ hborn, hfork.trans htree, hhop⟩
    · exact fun tree walk => h.balance_took hinv hgrows he hqueue hqueued hfollows

theorem Run.flow (he : e.Orderly σ) {w₀ w : World σ} {ds : List Label} (h₀ : w₀.Empty)
    (hrun : Run e w₀ ds w) : w.net.Flow σ e ds := by
  have hinduct := hrun.induct he.serves (P := fun ds n => n.Flow σ e ds)
    (Inv.empty h₀ e.registry)
  refine (hinduct ?_ ?_).2
  · refine ⟨by simp, by simp, ?_, by simp, ?_⟩
    · intro b behaviours hb
      exact absurd ((h₀.net_next b).symm.trans hb) (by simp)
    · intro tree walk
      rw [h₀.net_queue]
      simp [hopsOf, hopsIn, Net.roots, Net.begun]
  · intro ds n d m hinv hflow hmoves
    exact (hmoves.advance he hinv).flow he hinv (hinv.moves he.serves hmoves).2 hflow

/-- A tree begins once. -/
theorem Run.filterMap_submission? (hs : e.Serves σ fun n m => m = n) {w₀ w : World σ}
    {ds : List Label} (h₀ : w₀.Empty) (hrun : Run e w₀ ds w) {tree : String} {s : Submission}
    (hborn : Born ds tree s) : ds.filterMap (Label.submission? tree) = [s] := by
  have hinduct := hrun.induct hs (P := fun ds _ => ∀ tree s, Born ds tree s →
    ds.filterMap (Label.submission? tree) = [s]) (Inv.empty h₀ e.registry) (by simp [Born])
  refine (hinduct ?_).2 tree s hborn
  intro ds n d m hinv ih hmoves tree s hborn
  rw [List.filterMap_append]
  cases hmoves with
  | accept s₀ =>
    have hfresh : ∀ s, ¬ Born ds n.fresh s := (hinv.unused n.minted (Nat.le_refl _)).born
    rcases (born_accepted tree s).mp hborn with hborn | ⟨rfl, rfl⟩
    · have hne : n.fresh ≠ tree := fun heq => hfresh s (heq ▸ hborn)
      rw [ih tree s hborn]
      simp [Label.submission?, hne]
    · have hnone : ds.filterMap (Label.submission? n.fresh) = [] := by
        rw [List.eq_nil_iff_forall_not_mem]
        intro s hs
        exact hfresh s (mem_submission?_iff.mp hs)
      rw [hnone]
      simp [Label.submission?]
  | process =>
    rw [ih tree s ((born_processed tree s).mp hborn)]
    simp [Label.submission?]

/-- A tree that began has one hop with which its first walk began. -/
theorem Run.begun_eq (hs : e.Serves σ fun n m => m = n) {w₀ w : World σ} {ds : List Label}
    (h₀ : w₀.Empty) (hrun : Run e w₀ ds w) {tree : String} {s : Submission}
    (hborn : Born ds tree s) {walk : Int64 → Bool} (hwalk : walk 0 = true) (n : Net) :
    n.begun tree walk ds = {n.rootHop tree s []} := by
  unfold Net.begun
  rw [if_pos hwalk, hrun.filterMap_submission? hs h₀ hborn]
  rfl

end SelfWiring
