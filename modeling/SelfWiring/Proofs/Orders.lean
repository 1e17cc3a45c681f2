import SelfWiring.Proofs.Ground

/-!
# Orders of processing

What waits in the queue can be processed in any order. On known ground the order does not decide
where a walk goes: each payload that is processed makes way for those that follow its hop, whatever
was processed before it, and so every order that leaves nothing in the queue processes the same
hops. The one thing that depends on the order is which result of a tree is delivered.
-/

namespace SelfWiring

/-! ## Taking things in any order -/

/-- Things are taken one after the other, and each that is taken is replaced by others, until
nothing is left. -/
inductive Exhausts {α : Type} (f : α → Multiset α) : Multiset α → List α → Prop
  | nil : Exhausts f 0 []
  | cons {a : α} {pending : Multiset α} {taken : List α} (h : Exhausts f (pending + f a) taken) :
    Exhausts f (a ::ₘ pending) (a :: taken)

namespace Exhausts

variable {α : Type} {f : α → Multiset α} {pending : Multiset α} {taken taken' : List α}

theorem eq_nil (h : Exhausts f 0 taken) : taken = [] := by
  generalize hnone : (0 : Multiset α) = none at h
  cases h with
  | nil => rfl
  | cons => exact absurd hnone (Multiset.zero_ne_cons)

/-- Whatever is pending could have been taken first. -/
theorem exists_cons (h : Exhausts f pending taken) {a : α} {rest : Multiset α}
    (ha : pending = a ::ₘ rest) :
    ∃ taken', taken.Perm (a :: taken') ∧ Exhausts f (rest + f a) taken' := by
  induction h generalizing rest with
  | nil => exact absurd ha (Multiset.zero_ne_cons)
  | @cons b pending taken h ih =>
    rcases Multiset.cons_eq_cons.mp ha with ⟨rfl, rfl⟩ | ⟨_, between, rfl, rfl⟩
    · exact ⟨taken, .refl _, h⟩
    · obtain ⟨taken', hperm, htaken'⟩ := ih (Multiset.cons_add a between (f b))
      refine ⟨b :: taken', (hperm.cons b).trans (.swap a b taken'), ?_⟩
      rw [Multiset.cons_add]
      refine .cons ?_
      rw [add_right_comm]
      exact htaken'

/-- In whatever order things are taken, the same are. -/
theorem perm (h : Exhausts f pending taken) (h' : Exhausts f pending taken') :
    taken.Perm taken' := by
  induction h generalizing taken' with
  | nil => exact h'.eq_nil ▸ .refl _
  | cons _ ih =>
    obtain ⟨taken'', hperm, h''⟩ := h'.exists_cons rfl
    exact ((ih h'').cons _).trans hperm.symm

end Exhausts

/-! ## Orders -/

/-- A hop of a tree. -/
abbrev Stop := String × Hop

def Payload.stop (p : Payload) : Stop := (p.context.tree.getD "", p.hop)

variable {σ : Type} [Store σ] [FaultFree σ]

/-- The hops that wait in the queue, with their trees. -/
def World.stops (w : World σ) : Multiset Stop :=
  ↑((w.queue.filterMap Payload.decode?).map Payload.stop)

/-- Some payload is taken out of the queue and processed. Nothing else is changed by taking it. -/
inductive Takes (e : Engine) (p : Payload) : World σ → World σ → Prop
  | take {w : World σ} {store : σ} {before after : List String} {item : String}
    (hqueue : w.queue = before ++ item :: after)
    (hstore : FaultFree.contents store = w.contents.putList Key.eventQueue.render (before ++ after))
    (hsorted : ranking store = ranking w.store) (hread : Payload.decode? item = some p) :
    Takes e p w (World.run (e.handle p) { w with store }).2

/-- The head of the queue, as a worker takes it, is taken like any other payload. -/
theorem Takes.of_popped [Sorting σ] {e : Engine} {p : Payload} {w : World σ} {item : String}
    {after : List String} (hqueue : w.queue = item :: after)
    (hread : Payload.decode? item = some p) :
    Takes e p w (World.run (e.handle p)
      { w with store := (Store.perform (.pop Key.eventQueue.render) w.store).2 }).2 :=
  .take hqueue (exists_popped hqueue).2 (Sorting.kept (c := .pop _) trivial w.store) hread

/-- Payloads are processed one after the other until the queue is empty. -/
inductive Drains (e : Engine) : World σ → List Payload → World σ → Prop
  | nil {w : World σ} (hqueue : w.queue = []) : Drains e w [] w
  | cons {w w₁ w' : World σ} {p : Payload} {ps : List Payload} (htakes : Takes e p w w₁)
    (hrest : Drains e w₁ ps w') : Drains e w (p :: ps) w'

namespace Engine

variable (e : Engine) (g : World σ)

/-- The hops that follow a hop of a tree belong to the same tree. -/
def onward (x : Stop) : Multiset Stop := ↑((e.follows g x.2).map (Prod.mk x.1))

/-- A world in which all that waits walks the ground of another. -/
structure UnderwayOn (w : World σ) : Prop where
  ground : g.net.SameGround w.net
  queued : ∀ item ∈ w.queue, ∃ p, Payload.decode? item = some p ∧ Underway e.registry g.net p

/-- One of the hops is a hop of the tree that the output cell concludes. -/
def Concludes (s : Multiset Stop) (tree : String) : Prop :=
  ∃ h, (tree, h) ∈ s ∧ e.fate g h = .concluded

/-- What processing hops on the ground of `g` changes in a world, apart from the queue: the trees
whose hops are concluded are answered, those that were not answered before once; dead ends and
failures are announced; and the hops that did not fail are traced. -/
structure Account (s : Multiset Stop) (w w' : World σ) : Prop where
  ground : w.net.SameGround w'.net
  done : ∀ t, (w'.net.text (.done t)).isSome = true ↔
    (w.net.text (.done t)).isSome = true ∨ e.Concludes g s t
  events : ∃ es, w'.events = w.events ++ es ∧
    (↑(es.filter fun event => event.answered?.isNone) : Multiset Event) =
      s.bind (fun x => ↑(e.notices g x.2)) ∧
    (es.filterMap Event.answered?).Nodup ∧ ∀ t, t ∈ es.filterMap Event.answered? ↔
      w.net.text (.done t) = none ∧ e.Concludes g s t
  edges : ∀ t, w'.edges t = w.edges t ∪
    {edge | ∃ h, (t, h) ∈ s ∧ (∀ failure, e.fate g h ≠ .failed failure) ∧ edge = h.edge}

variable {e g}

omit [FaultFree σ] in
theorem concludes_add {s s' : Multiset Stop} {t : String} :
    e.Concludes g (s + s') t ↔ e.Concludes g s t ∨ e.Concludes g s' t := by
  simp only [Concludes, Multiset.mem_add, or_and_right, exists_or]

omit [FaultFree σ] in
theorem concludes_singleton {x : Stop} {t : String} :
    e.Concludes g {x} t ↔ e.fate g x.2 = .concluded ∧ x.1 = t := by
  simp only [Concludes, Multiset.mem_singleton]
  constructor
  · rintro ⟨h, rfl, hfate⟩
    exact ⟨hfate, rfl⟩
  · rintro ⟨hfate, rfl⟩
    exact ⟨x.2, rfl, hfate⟩

namespace Account

theorem refl (w : World σ) : e.Account g 0 w w := by
  refine ⟨.refl _, fun t => ?_, ⟨[], ?_, rfl, List.nodup_nil, fun t => ?_⟩, fun t => ?_⟩ <;>
    simp [Concludes]

variable {s s' : Multiset Stop} {w w₁ w' : World σ}

theorem trans (h : e.Account g s w w₁) (h' : e.Account g s' w₁ w') :
    e.Account g (s + s') w w' := by
  obtain ⟨es, hes, hsilent, hnodup, hanswered⟩ := h.events
  obtain ⟨es', hes', hsilent', hnodup', hanswered'⟩ := h'.events
  have hnone : ∀ t, w₁.net.text (.done t) = none ↔
      w.net.text (.done t) = none ∧ ¬ e.Concludes g s t := by
    intro t
    have hdone := h.done t
    rw [← not_iff_not, not_or, Bool.not_eq_true, Bool.not_eq_true, Option.isSome_eq_false_iff,
      Option.isSome_eq_false_iff, Option.isNone_iff_eq_none, Option.isNone_iff_eq_none] at hdone
    exact hdone
  refine ⟨h.ground.trans h'.ground, fun t => ?_, ⟨es ++ es', ?_, ?_, ?_, fun t => ?_⟩,
    fun t => ?_⟩
  · rw [h'.done, h.done, concludes_add, or_assoc]
  · rw [hes', hes, List.append_assoc]
  · rw [List.filter_append, ← Multiset.coe_add, hsilent, hsilent', Multiset.add_bind]
  · rw [List.filterMap_append]
    refine hnodup.append hnodup' fun t ht ht' => ?_
    -- a tree that was answered is not answered again
    exact ((hnone t).mp ((hanswered' t).mp ht').1).2 ((hanswered t).mp ht).2
  · rw [List.filterMap_append, List.mem_append, hanswered, hanswered', hnone, concludes_add]
    tauto
  · rw [h'.edges, h.edges, Set.union_assoc]
    congr 1
    ext edge
    simp only [Set.mem_union, Set.mem_ofPred_eq, Multiset.mem_add, or_and_right, exists_or]

end Account

/-! ## Steps -/

variable {w w' : World σ} {p : Payload}

theorem stops_of_queue {before after : List String} {item : String}
    (hqueue : w.queue = before ++ item :: after) (hread : Payload.decode? item = some p) :
    w.stops = p.stop ::ₘ ↑(((before ++ after).filterMap Payload.decode?).map Payload.stop) := by
  unfold World.stops
  rw [hqueue, List.filterMap_append, List.filterMap_cons, hread]
  simp only [List.filterMap_append, List.map_append, List.map_cons]
  exact Multiset.coe_eq_coe.mpr List.perm_middle

variable [Sorting σ] {config : Config}

/-- A payload on known ground is handled as its fate says. -/
theorem handle_fated (he : assemble { config, cells := some (Cell.standard config) } = .ok e)
    (hg : g.net.SameGround w.net) (hp : Underway e.registry g.net p) {tree : String}
    (htree : p.context.tree = some tree) :
    ∃ r m, Fated w.net p (e.fate g p.hop) r m ∧
      (w.run (e.handle p)).2.net = m.report p r ∧ (w.run (e.handle p)).2.edges =
        if r.isOk then addEdge w.edges tree p.hop.edge else w.edges := by
  have hnet := SelfWiring.handle_net e p w
  rw [run_retrying] at hnet
  exact ⟨_, _, process_fated he hg hp w rfl, hnet, handle_edges (ageless_of_standard he) htree w⟩

theorem handle_account (he : assemble { config, cells := some (Cell.standard config) } = .ok e)
    (hg : g.net.SameGround w.net) (hp : Underway e.registry g.net p) :
    e.Account g {p.stop} w (w.run (e.handle p)).2 := by
  obtain ⟨tree, htree, -⟩ := hp.tree
  obtain ⟨r, m, hfated, hnet, hedges⟩ := handle_fated he hg hp htree
  have hstop : p.stop = (tree, p.hop) := by rw [Payload.stop, htree]; rfl
  have hconcludes : ∀ t, e.Concludes g {p.stop} t ↔
      e.fate g p.hop = .concluded ∧ p.context.tree = some t := by
    intro t
    rw [concludes_singleton, hstop, htree, Option.some.injEq]
  refine ⟨hnet ▸ hfated.sameGround, fun t => ?_, ?_, fun t => ?_⟩
  · rw [hnet, hfated.done, hconcludes]
  · obtain ⟨es, hes, hsilent, hnodup, hanswered⟩ := hfated.events hg
    rw [← hnet] at hes
    refine ⟨es, hes, ?_, hnodup, fun t => by rw [hanswered, hconcludes]⟩
    rw [hsilent, Multiset.singleton_bind]
    rfl
  · ext edge
    have hadded : (∃ h, (t, h) ∈ ({p.stop} : Multiset Stop) ∧
        (∀ failure, e.fate g h ≠ .failed failure) ∧ edge = h.edge) ↔
          t = tree ∧ r.isOk = true ∧ edge = p.hop.edge := by
      rw [hstop, hfated.isOk]
      constructor
      · rintro ⟨h, hmem, hfate, rfl⟩
        obtain ⟨rfl, rfl⟩ := Prod.mk.inj (Multiset.mem_singleton.mp hmem)
        exact ⟨rfl, hfate, rfl⟩
      · rintro ⟨rfl, hfate, rfl⟩
        exact ⟨p.hop, Multiset.mem_singleton_self _, hfate, rfl⟩
    rw [Set.mem_union, Set.mem_ofPred_eq, hadded, hedges]
    by_cases hok : r.isOk = true
    · rw [if_pos hok, mem_addEdge]
      simp [hok]
    · rw [if_neg hok]
      simp [hok]

end Engine

variable {e : Engine} {g w w' : World σ} {p : Payload} [Sorting σ] {config : Config}

/-- Taking a payload out of the queue is no hop. -/
theorem Engine.Account.of_requeued {store : σ} {items : List String}
    (hstore : FaultFree.contents store = w.contents.putList Key.eventQueue.render items)
    (hsorted : ranking store = ranking w.store) : e.Account g 0 w { w with store } := by
  have hnet := World.net_of_requeued hstore
  have hrefl := Engine.Account.refl (e := e) (g := g) w
  refine ⟨hnet ▸ ⟨rfl, fun _ _ => rfl⟩, fun t => ?_, hrefl.events, fun t => ?_⟩
  · rw [hnet]
    exact hrefl.done t
  · rw [show World.edges { w with store } = w.edges from World.edges_congr hsorted]
    exact hrefl.edges t

/-- Processing a payload of the queue: one hop less waits, and those that follow it wait instead. -/
theorem Takes.account
    (he : Engine.assemble { config, cells := some (Cell.standard config) } = .ok e)
    (ht : e.UnderwayOn g w) (h : Takes e p w w') :
    e.Account g {p.stop} w w' ∧ e.UnderwayOn g w' ∧
      ∃ rest, w.stops = p.stop ::ₘ rest ∧ w'.stops = rest + e.onward g p.stop := by
  cases h with
  | @take store before after item hqueue hstore hsorted hread =>
    have hnet := World.net_of_requeued hstore
    have hmem : item ∈ w.queue := hqueue ▸ List.mem_append_right _ List.mem_cons_self
    obtain ⟨p', hread', hp⟩ := ht.queued item hmem
    obtain rfl := Option.mem_unique hread hread'
    have htaken := Engine.Account.of_requeued (e := e) (g := g) hstore hsorted
    have hg : g.net.SameGround (World.net { w with store }) := ht.ground.trans htaken.ground
    have haccount := htaken.trans (Engine.handle_account he hg hp)
    rw [zero_add] at haccount
    obtain ⟨tree, htree, -⟩ := hp.tree
    obtain ⟨r, m, hfated, hnet', -⟩ := Engine.handle_fated he hg hp htree
    obtain ⟨qs, hqueued, hhops, hqs⟩ := hfated.queued hg hp
    rw [← hnet', hnet] at hqueued
    have hqueued : (World.run (e.handle p) { w with store }).2.queue =
      before ++ after ++ qs.map Payload.encode := hqueued
    refine ⟨haccount, ⟨ht.ground.trans haccount.ground, fun item' hitem => ?_⟩, _,
      Engine.stops_of_queue hqueue hread, ?_⟩
    · rw [hqueued, List.mem_append] at hitem
      rcases hitem with hitem | hitem
      · exact ht.queued item' (mem_of_requeued (n := w.net) hqueue hitem)
      · obtain ⟨q, hq, rfl⟩ := List.mem_map.mp hitem
        exact ⟨q, Payload.decode?_encode q, (hqs q hq).1⟩
    · have hread : (qs.map Payload.encode).filterMap Payload.decode? = qs := by
        simp [List.filterMap_map, Payload.decode?_encode]
      have hstops : qs.map Payload.stop = (e.follows g p.hop).map (Prod.mk p.stop.1) := by
        rw [← hhops, List.map_map]
        refine List.map_congr_left fun q hq => ?_
        show (q.context.tree.getD "", q.hop) = _
        rw [(hqs q hq).2]
        rfl
      unfold World.stops
      rw [hqueued, List.filterMap_append, List.map_append, ← Multiset.coe_add, hread, hstops]
      rfl

/-! ## Runs -/

/-- What an order of processing adds up to, and that it is one in which the hops can be taken. -/
theorem Drains.account {ps : List Payload}
    (he : Engine.assemble { config, cells := some (Cell.standard config) } = .ok e)
    (ht : e.UnderwayOn g w) (h : Drains e w ps w') :
    e.Account g ↑(ps.map Payload.stop) w w' ∧
      Exhausts (e.onward g) w.stops (ps.map Payload.stop) := by
  induction h with
  | @nil w hqueue =>
    have hstops : w.stops = 0 := by
      unfold World.stops
      rw [hqueue]
      rfl
    exact ⟨.refl w, hstops ▸ .nil⟩
  | cons htakes _ ih =>
    obtain ⟨hfirst, ht', rest, hstops, hstops'⟩ := htakes.account he ht
    obtain ⟨hrest, hexhausts⟩ := ih ht'
    refine ⟨hfirst.trans hrest, ?_⟩
    rw [hstops, List.map_cons]
    exact .cons (hstops' ▸ hexhausts)

/-- A submission without an expectation, whose text is on record and enters on mapped ground. The
walk begins with the cell that was asked for. -/
structure Net.Admits (n : Net) (r : Registry) (s : Submission) : Prop where
  unexpecting : s.expectation = none
  entered : ∃ i b, n.text (.informationId s.input) = some i ∧
    n.text (.entry i (Engine.entryCell s)) = some b ∧ n.Mapped r b (Engine.entryCell s)

/-- Where the text has its record and its entry, accepting makes neither. -/
theorem Net.accept_of_entered {n : Net} {s : Submission} {i b : String}
    (hi : n.text (.informationId s.input) = some i)
    (hb : n.text (.entry i (Engine.entryCell s)) = some b) :
    n.accept s = ((n.mint.write (.firstBehaviour n.fresh) b).mint.enqueue
      (Engine.firstPayload s n.mint.fresh n.fresh i b)).announce (.accepted s.session n.fresh) := by
  have hrecord : n.mint.record s.input = (i, n.mint) := by
    unfold record
    rw [mint_text, hi]
  have henter : n.mint.enter i (Engine.entryCell s) = (b, n.mint) := by
    unfold enter
    rw [mint_text, hb]
  unfold accept
  dsimp only
  rw [hrecord]
  dsimp only
  rw [henter]
  rfl

namespace Engine.UnderwayOn

variable {s : Submission}

omit [Sorting σ]

theorem accept_net (ht : e.UnderwayOn g w) {i b : String}
    (hi : g.net.text (.informationId s.input) = some i)
    (hb : g.net.text (.entry i (entryCell s)) = some b) :
    (w.run (e.retrying (Engine.accept s)).run).2.net =
      ((w.net.mint.write (.firstBehaviour w.net.fresh) b).mint.enqueue
        (firstPayload s w.net.mint.fresh w.net.fresh i b)).announce
          (.accepted s.session w.net.fresh) := by
  rw [← Net.accept_of_entered ((ht.ground.text (.informationId _) trivial).trans hi)
    ((ht.ground.text (.entry i _) trivial).trans hb)]
  exact (Step.accept (e := e) s w).of_accepted.2

/-- Accepting keeps to known ground. -/
theorem accept (ht : e.UnderwayOn g w) (hs : g.net.Admits e.registry s) :
    e.UnderwayOn g (w.run (e.retrying (Engine.accept s)).run).2 := by
  obtain ⟨i, b, hi, hb, hmapped⟩ := hs.entered
  have hnet := ht.accept_net hi hb
  generalize (w.run (e.retrying (Engine.accept s)).run).2 = w' at hnet
  have hqueue : w'.queue = w.queue ++
      [(firstPayload s w.net.mint.fresh w.net.fresh i b).encode] := congrArg Net.queue hnet
  have hanchored := w.net.sameGround_write (.firstBehaviour w.net.fresh) (fun h => h) b
  have hground : w.net.SameGround w'.net := hnet ▸ ⟨hanchored.next, hanchored.text⟩
  refine ⟨ht.ground.trans hground, fun item hitem => ?_⟩
  rw [hqueue, List.mem_append, List.mem_singleton] at hitem
  rcases hitem with hitem | rfl
  · exact ht.queued item hitem
  · refine ⟨_, Payload.decode?_encode _, ⟨_, rfl, Identifier.render_ne_empty _⟩, ⟨_, rfl⟩,
      hs.unexpecting, rfl, ⟨_, rfl, hmapped⟩, fun t htext => ?_⟩
    obtain rfl : t = s.input := by simpa [firstPayload] using htext
    rw [hi]
    rfl

theorem acceptAll {ss : List Submission} (ht : e.UnderwayOn g w)
    (hss : ∀ s ∈ ss, g.net.Admits e.registry s) :
    e.UnderwayOn g (w.run (e.carryOutAll (ss.map .accept))).2 := by
  induction ss generalizing w with
  | nil => exact ht
  | cons s ss ih =>
    obtain ⟨hs, hss⟩ := List.forall_mem_cons.mp hss
    show e.UnderwayOn g (w.run (Program.bind (Program.bind _ _) fun _ => Program.bind _ _)).2
    rw [World.run_bind, World.run_bind, World.run_bind]
    exact ih (ht.accept hs) hss

end Engine.UnderwayOn

/-- Where the texts of submissions have their records and their entries, and every behaviour that
can be reached from there is bound to a registered cell and, unless that is the output cell, has its
connections, the order in which the queued payloads are processed makes no difference to the hops
that are processed for each tree, to the edges in the traces, to the trees that are answered, each
of them once, and to the dead ends and failures that are announced. Connections and bindings stay as
they are. -/
theorem walks_independent_of_order
    (he : Engine.assemble { config, cells := some (Cell.standard config) } = .ok e)
    {ss : List Submission} {w₀ w₁ : World σ} (hss : ∀ s ∈ ss, w₀.net.Admits e.registry s)
    (hqueue : ∀ item ∈ w₀.queue, ∃ p, Payload.decode? item = some p ∧
      Underway e.registry w₀.net p)
    (haccepted : (w₀.run (e.carryOutAll (ss.map .accept))).2 = w₁) {ps ps' : List Payload}
    (h : Drains e w₁ ps w) (h' : Drains e w₁ ps' w') :
    (ps.map Payload.stop).Perm (ps'.map Payload.stop) ∧
    (∀ tree, w.edges tree = w'.edges tree) ∧
    (∃ es es', w.events = w₁.events ++ es ∧ w'.events = w₁.events ++ es' ∧
      (es.filterMap Event.answered?).Perm (es'.filterMap Event.answered?) ∧
      (es.filterMap Event.answered?).Nodup ∧
      (es.filter fun event => event.answered?.isNone).Perm
        (es'.filter fun event => event.answered?.isNone)) ∧
    ∀ b, (w.connections b = w₀.connections b ∧ w'.connections b = w₀.connections b) ∧
      w.text (.binding b) = w₀.text (.binding b) ∧ w'.text (.binding b) = w₀.text (.binding b) := by
  have ht : e.UnderwayOn w₀ w₁ := haccepted ▸ Engine.UnderwayOn.acceptAll ⟨.refl _, hqueue⟩ hss
  obtain ⟨haccount, hexhausts⟩ := h.account he ht
  obtain ⟨haccount', hexhausts'⟩ := h'.account he ht
  have hperm := hexhausts.perm hexhausts'
  rw [← Multiset.coe_eq_coe.mpr hperm] at haccount'
  obtain ⟨es, hes, hsilent, hnodup, hanswered⟩ := haccount.events
  obtain ⟨es', hes', hsilent', hnodup', hanswered'⟩ := haccount'.events
  have hground := ht.ground.trans haccount.ground
  have hground' := ht.ground.trans haccount'.ground
  have hbinding : ∀ {v : World σ} b, w₀.net.SameGround v.net →
      v.text (.binding b) = w₀.text (.binding b) := by
    intro v b hv
    have htext := hv.text (.binding b) trivial
    rw [World.net_text v (.binding b) trivial, World.net_text w₀ (.binding b) trivial] at htext
    exact htext
  refine ⟨hperm, fun tree => (haccount.edges tree).trans (haccount'.edges tree).symm,
    ⟨es, es', hes, hes', ?_, hnodup, Multiset.coe_eq_coe.mp (hsilent.trans hsilent'.symm)⟩,
    fun b => ⟨⟨congrFun hground.next b, congrFun hground'.next b⟩, hbinding b hground,
      hbinding b hground'⟩⟩
  rw [List.perm_ext_iff_of_nodup hnodup hnodup']
  exact fun t => (hanswered t).trans (hanswered' t).symm

/-! ## A fork -/

omit [Sorting σ] in
theorem World.queue_eq_nil_of_stops (ht : e.UnderwayOn g w) (h : w.stops = 0) : w.queue = [] := by
  rw [List.eq_nil_iff_forall_not_mem]
  intro item hitem
  obtain ⟨p, hread, -⟩ := ht.queued item hitem
  have hp : p.stop ∈ w.stops :=
    Multiset.mem_coe.mpr (List.mem_map_of_mem (List.mem_filterMap.mpr ⟨item, hitem, hread⟩))
  rw [h] at hp
  exact Multiset.notMem_zero _ hp

/-- In memory, any hop that waits can be taken. -/
theorem Memory.exists_takes (e : Engine) {w : World Memory} {x : Stop} (hx : x ∈ w.stops) :
    ∃ p w', p.stop = x ∧ Takes e p w w' := by
  obtain ⟨p, hp, rfl⟩ := List.mem_map.mp (Multiset.mem_coe.mp hx)
  obtain ⟨item, hitem, hread⟩ := List.mem_filterMap.mp hp
  obtain ⟨before, after, hqueue⟩ := List.append_of_mem hitem
  let store : Memory :=
    { w.store with lists := w.store.lists.insert Key.eventQueue.render (before ++ after) }
  have hstore : FaultFree.contents store =
      w.contents.putList Key.eventQueue.render (before ++ after) := by
    ext1
    · rfl
    · exact Memory.getD_insert_eq_update w.store.lists _ _
    · rfl
  exact ⟨p, _, rfl, .take hqueue hstore rfl hread⟩

/-- In memory, hops can be processed in any order in which they can be taken. -/
theorem Memory.exists_drains {e : Engine} {g : World Memory}
    (he : Engine.assemble { config, cells := some (Cell.standard config) } = .ok e)
    {pending : Multiset Stop} {xs : List Stop} (h : Exhausts (e.onward g) pending xs) :
    ∀ {w : World Memory}, e.UnderwayOn g w → w.stops = pending →
      ∃ ps w', Drains e w ps w' ∧ ps.map Payload.stop = xs := by
  induction h with
  | nil =>
    intro w ht hstops
    exact ⟨[], w, .nil (World.queue_eq_nil_of_stops ht hstops), rfl⟩
  | cons _ ih =>
    intro w ht hstops
    obtain ⟨p, w₁, rfl, htakes⟩ := Memory.exists_takes e (hstops ▸ Multiset.mem_cons_self _ _)
    obtain ⟨-, ht', rest, hrest, hstops'⟩ := htakes.account he ht
    obtain rfl := (Multiset.cons_inj_right _).mp (hrest.symm.trans hstops)
    obtain ⟨ps, w', hdrains, rfl⟩ := ih ht' hstops'
    exact ⟨p :: ps, w', .cons htakes hdrains, rfl⟩

/-- A world in which the text `hi` enters at a behaviour with two connections to the output cell. -/
def World.fork : World Memory where
  store :=
    { texts := ⟨[((Key.informationId "hi").render, "i"),
        ((Key.entry "i" Cell.inputName).render, "b"),
        ((Key.binding "c").render, Cell.outputName), ((Key.binding "d").render, Cell.outputName)]⟩
      sets := ⟨[((Key.connections "b").render, ["c", "d"])]⟩ }
  generator := .ofSeed 0

namespace World.fork

theorem admits {e : Engine} (hs : e.Serves Memory fun n m => m = n) :
    World.fork.net.Admits e.registry { input := "hi", session := "a" } := by
  have hreach : ∀ b', Relation.TransGen World.fork.net.Leads "b" b' → b' = "c" ∨ b' = "d" := by
    intro b' h
    induction h with
    | single h =>
      obtain ⟨behaviours, hnext, hmem⟩ := h
      obtain rfl : ["c", "d"] = behaviours := Option.some.inj hnext
      simpa using hmem
    | tail _ h ih =>
      obtain ⟨behaviours, hnext, -⟩ := h
      rcases ih with rfl | rfl <;> exact nomatch hnext
  have hinput : World.fork.net.Open e.registry "b" Cell.inputName :=
    ⟨by rw [hs.input]; rfl, fun _ => rfl⟩
  have houtput : ∀ b, World.fork.net.Open e.registry b Cell.outputName := fun b =>
    ⟨by rw [hs.output]; rfl, fun h => absurd rfl h⟩
  refine ⟨rfl, "i", "b", rfl, rfl, hinput, fun b' h => ?_⟩
  rcases hreach b' h with rfl | rfl
  · exact ⟨_, rfl, houtput _⟩
  · exact ⟨_, rfl, houtput _⟩

/-- The hop with which a walk of the text begins. -/
def root : Hop := ⟨"b", some Cell.inputName, [.text "hi"], []⟩

/-- The hop that follows it along a connection. -/
def leaf (b : String) : Hop := ⟨b, some Cell.outputName, [.text "hi"], ["b"]⟩

theorem follows_root {e : Engine} (hs : e.Serves Memory fun n m => m = n) :
    e.follows World.fork root = [leaf "c", leaf "d"] := by
  have hfate : e.fate World.fork root = .passed [.text "hi"] :=
    (Engine.fate_of_accepted (p := root.arrival) rfl hs.input rfl).trans rfl
  rw [Engine.follows, hfate]
  rfl

theorem follows_leaf {e : Engine} (hs : e.Serves Memory fun n m => m = n) (b : String) :
    e.follows World.fork (leaf b) = [] := by
  have hfate : e.fate World.fork (leaf b) = .concluded :=
    (Engine.fate_of_accepted (p := (leaf b).arrival) rfl hs.output rfl).trans (if_pos rfl)
  rw [Engine.follows, hfate]

/-- The two hops behind the fork can be taken in either order. -/
theorem exhausts {e : Engine} (hs : e.Serves Memory fun n m => m = n) (tree : String)
    {b b' : String} (hfork : ({b, b'} : Multiset String) = {"c", "d"}) :
    Exhausts (e.onward World.fork) {(tree, root)}
      [(tree, root), (tree, leaf b), (tree, leaf b')] := by
  have hroot : e.onward World.fork (tree, root) = {(tree, leaf b), (tree, leaf b')} := by
    have hleaves := congrArg (Multiset.map fun b => (tree, leaf b)) hfork
    rw [Engine.onward, follows_root hs]
    exact hleaves.symm
  have hleaf : ∀ b, e.onward World.fork (tree, leaf b) = 0 := by
    intro b
    rw [Engine.onward, follows_leaf hs]
    rfl
  refine .cons (?_ : Exhausts _ (0 + _) _)
  rw [hroot, zero_add]
  refine .cons ?_
  rw [hleaf, add_zero]
  refine .cons (?_ : Exhausts _ (0 + _) _)
  rw [hleaf, add_zero]
  exact .nil

end World.fork

/-- The text is accepted, and the two hops behind the fork are processed in either order. -/
theorem walks_independent_of_order_of_fork :
    ∃ (e : Engine) (w₁ w w' : World Memory) (ps ps' : List Payload),
      Engine.assemble { cells := some (Cell.standard {}) } = .ok e ∧
      (World.fork.run (e.carryOutAll [.accept { input := "hi", session := "a" }])).2 = w₁ ∧
      Drains e w₁ ps w ∧ Drains e w₁ ps' w' ∧
      ps.map Payload.stop ≠ ps'.map Payload.stop ∧
      (ps.map Payload.stop).Perm (ps'.map Payload.stop) ∧
      ∀ tree, w.edges tree = w'.edges tree := by
  obtain ⟨e, he⟩ := Engine.exists_standard {} rfl
  have hs := (Engine.orderly_of_standard (σ := Memory) he).serves
  have hadmits := World.fork.admits hs
  have hnone : ∀ item ∈ World.fork.queue, ∃ p, Payload.decode? item = some p ∧
      Underway e.registry World.fork.net p := fun item hitem => nomatch hitem
  have hstart : e.UnderwayOn World.fork World.fork := ⟨.refl _, hnone⟩
  let s : Submission := { input := "hi", session := "a" }
  let w₁ := (World.fork.run (e.carryOutAll [.accept s])).2
  have hrun : w₁ = (World.fork.run (e.retrying (Engine.accept s)).run).2 := by
    show (World.fork.run (Program.bind (Program.bind _ _) fun _ => Program.bind _ _)).2 = _
    rw [World.run_bind, World.run_bind, World.run_bind]
    rfl
  have ht : e.UnderwayOn World.fork w₁ := hrun ▸ hstart.accept hadmits
  have hstops : w₁.stops = {(World.fork.net.fresh, World.fork.root)} := by
    have hqueue : w₁.queue = [(Engine.firstPayload s World.fork.net.mint.fresh
        World.fork.net.fresh "i" "b").encode] := by
      rw [hrun]
      exact congrArg Net.queue (hstart.accept_net (s := s) rfl rfl)
    unfold World.stops
    rw [hqueue, List.filterMap_cons, Payload.decode?_encode]
    rfl
  obtain ⟨ps, w, hdrains, hps⟩ :=
    Memory.exists_drains he (World.fork.exhausts hs _ rfl) ht hstops
  obtain ⟨ps', w', hdrains', hps'⟩ :=
    Memory.exists_drains he (World.fork.exhausts hs _ (Multiset.pair_comm "d" "c")) ht hstops
  have hss : ∀ s' ∈ [s], World.fork.net.Admits e.registry s' := by simpa [s] using hadmits
  obtain ⟨hperm, hedges, -⟩ := walks_independent_of_order he hss hnone rfl hdrains hdrains'
  refine ⟨e, w₁, w, w', ps, ps', he, rfl, hdrains, hdrains', ?_, hperm, hedges⟩
  rw [hps, hps']
  simp [World.fork.leaf]

end SelfWiring
