import SelfWiring.Proofs.Evolution

/-!
# What a step does to counters, outputs and events

Most steps are neutral: they leave the counters of all trees and the outputs of all sessions as they
are, and announce no verdict. Only a result at the output cell can do more. A step of an engine of
standard cells begins a tree, carries a payload on, or concludes a result.
-/

namespace SelfWiring

/-- The keys of counters. -/
def Key.Counter : Key → Prop
  | .done _ | .misses _ _ | .retraversals _ => True
  | _ => False

/-- An event that says nothing about the result of a tree. -/
def Event.Plain : Event → Prop
  | .accepted _ _ | .deadEnd _ | .dropped _ _ _ => True
  | _ => False

/-- Counters and outputs are left as they are, and no verdict is announced. -/
structure Net.Neutral (n m : Net) : Prop where
  counters : ∀ k, k.Counter → m.text k = n.text k
  outputs : m.outputs = n.outputs
  events : ∃ es, m.events = n.events ++ es ∧ ∀ e ∈ es, e.Plain

namespace Net

variable {n m k : Net}

theorem neutral_of_eq (htext : m.text = n.text) (houtputs : m.outputs = n.outputs)
    (hevents : m.events = n.events) : n.Neutral m :=
  ⟨fun key _ => congrFun htext key, houtputs, [], by simp [hevents], by simp⟩

theorem Neutral.refl (n : Net) : n.Neutral n := neutral_of_eq rfl rfl rfl

theorem Neutral.trans (h : n.Neutral m) (h' : m.Neutral k) : n.Neutral k := by
  obtain ⟨es, hes, hplain⟩ := h.events
  obtain ⟨es', hes', hplain'⟩ := h'.events
  refine ⟨fun key hkey => (h'.counters key hkey).trans (h.counters key hkey),
    h'.outputs.trans h.outputs, es ++ es', by rw [hes', hes, List.append_assoc], fun e he => ?_⟩
  rcases List.mem_append.mp he with he | he
  · exact hplain e he
  · exact hplain' e he

theorem neutral_announce (n : Net) (e : Event) (he : e.Plain) : n.Neutral (n.announce e) :=
  ⟨fun _ _ => rfl, rfl, [e], rfl, by simpa using he⟩

theorem neutral_close (n : Net) (b : String) (behaviours : List String) :
    n.Neutral (n.close b behaviours) := by
  unfold close
  split
  · exact n.neutral_announce _ trivial
  · exact .refl n

theorem close_queue (n : Net) (b : String) (behaviours : List String) :
    (n.close b behaviours).queue = n.queue := by
  unfold close
  split <;> rfl

theorem report_queue (n : Net) (p : Payload) (r : Except EngineError Outcome) :
    (n.report p r).queue = n.queue := by
  unfold report
  split <;> rfl

theorem report_text (n : Net) (p : Payload) (r : Except EngineError Outcome) :
    (n.report p r).text = n.text := by
  unfold report
  split <;> rfl

/-- A failure that is announced is no delivery. -/
theorem emitted_mem_report {n : Net} {p : Payload} {r : Except EngineError Outcome}
    {session tree output : String} :
    .emitted session tree output ∈ (n.report p r).events ↔
      .emitted session tree output ∈ n.events := by
  unfold report
  split <;> simp

theorem Neutral.emitted_mem (h : n.Neutral m) {session tree output : String} :
    .emitted session tree output ∈ m.events ↔ .emitted session tree output ∈ n.events := by
  obtain ⟨es, hes, hplain⟩ := h.events
  rw [hes, List.mem_append]
  constructor
  · rintro (h | h)
    · exact h
    · exact (hplain _ h).elim
  · exact Or.inl

/-- Something is learned, and nothing is counted, delivered, queued or announced. -/
structure OnlyLearns (n m : Net) : Prop where
  counters : ∀ k, k.Counter → m.text k = n.text k
  outputs : m.outputs = n.outputs
  queue : m.queue = n.queue
  events : m.events = n.events

theorem OnlyLearns.neutral (h : n.OnlyLearns m) : n.Neutral m :=
  ⟨h.counters, h.outputs, [], by simp [h.events], by simp⟩

theorem OnlyLearns.refl (n : Net) : n.OnlyLearns n := ⟨fun _ _ => rfl, rfl, rfl, rfl⟩

theorem OnlyLearns.trans (h : n.OnlyLearns m) (h' : m.OnlyLearns k) : n.OnlyLearns k where
  counters key hkey := (h'.counters key hkey).trans (h.counters key hkey)
  outputs := h'.outputs.trans h.outputs
  queue := h'.queue.trans h.queue
  events := h'.events.trans h.events

theorem onlyLearns_mint (n : Net) : n.OnlyLearns n.mint := ⟨fun _ _ => rfl, rfl, rfl, rfl⟩

theorem onlyLearns_write (n : Net) (key : Key) (hkey : ¬ key.Counter) (value : String) :
    n.OnlyLearns (n.write key value) := by
  refine ⟨fun key' hkey' => ?_, rfl, rfl, rfl⟩
  have hne : key' ≠ key := fun h => hkey (h ▸ hkey')
  exact Function.update_of_ne hne _ _

theorem onlyLearns_record (n : Net) (t : String) : n.OnlyLearns (n.record t).2 := by
  unfold record
  cases n.text (.informationId t) with
  | some i => exact .refl n
  | none =>
    have hwritten := onlyLearns_write n.mint (.information n.fresh) (by simp [Key.Counter]) t
    refine (n.onlyLearns_mint.trans hwritten).trans ?_
    exact onlyLearns_write _ (.informationId t) (by simp [Key.Counter]) n.fresh

theorem onlyLearns_bind (n : Net) (cell : String) :
    n.OnlyLearns (n.mint.write (.binding n.fresh) cell) :=
  n.onlyLearns_mint.trans (onlyLearns_write _ (.binding n.fresh) (by simp [Key.Counter]) cell)

theorem onlyLearns_enter (n : Net) (i cell : String) : n.OnlyLearns (n.enter i cell).2 := by
  unfold enter
  cases n.text (.entry i cell) with
  | some b => exact .refl n
  | none =>
    have hentry := onlyLearns_write (n.mint.write (.binding n.fresh) cell) (.entry i cell)
      (by simp [Key.Counter]) n.fresh
    exact (n.onlyLearns_bind cell).trans hentry

theorem onlyLearns_sprout (cells : List String) : ∀ n : Net, n.OnlyLearns (n.sprout cells).2 := by
  induction cells with
  | nil => exact OnlyLearns.refl
  | cons cell cells ih => intro n; exact (n.onlyLearns_bind cell).trans (ih _)

theorem onlyLearns_connected {r : Registry} {limit : UInt64} {producer : String} {args : List Value}
    {behaviours : List String} (h : Engine.Connected r limit n producer args behaviours m) :
    n.OnlyLearns m := by
  cases h with
  | known => exact .refl n
  | explored _ cells => exact (onlyLearns_sprout cells n).trans ⟨fun _ _ => rfl, rfl, rfl, rfl⟩

/-- Queueing results adds payloads that differ from the one whose results they are in their way
only. -/
theorem neutral_queueAll (p : Payload) (producer : String) (behaviours : List String) :
    ∀ n : Net, n.Neutral (n.queueAll p producer behaviours) ∧ ∃ qs : List Payload,
      (n.queueAll p producer behaviours).queue = n.queue ++ qs.map Payload.encode ∧
        ∀ q ∈ qs, q.context.tree = p.context.tree ∧ q.context.pass = p.context.pass := by
  induction behaviours with
  | nil => intro n; exact ⟨.refl n, [], by simp [queueAll], by simp⟩
  | cons b behaviours ih =>
    intro n
    obtain ⟨q, hq⟩ : ∃ q, q = Engine.successorPayload p producer n.fresh b
        ((n.text (.binding b)).getD "") := ⟨_, rfl⟩
    have hfirst : n.Neutral (n.mint.enqueue q) := neutral_of_eq rfl rfl rfl
    obtain ⟨hneutral, qs, hqueue, hqs⟩ := ih (n.mint.enqueue q)
    rw [queueAll, ← hq]
    refine ⟨hfirst.trans hneutral, q :: qs, ?_, fun q' hq' => ?_⟩
    · rw [hqueue, List.map_cons, enqueue_queue, List.append_assoc]
      rfl
    · rcases List.mem_cons.mp hq' with rfl | hq'
      · rw [hq]
        exact ⟨rfl, rfl⟩
      · exact hqs q' hq'

/-- Accepting counts and delivers nothing, announces the tree and queues its first payload. -/
theorem accept_announced (n : Net) (s : Submission) :
    n.Neutral (n.accept s) ∧ (n.accept s).events = n.events ++ [.accepted s.session n.fresh] ∧
      ∃ id i b, (n.accept s).queue =
        n.queue ++ [(Engine.firstPayload s id n.fresh i b).encode] := by
  have hrecord := n.onlyLearns_mint.trans (onlyLearns_record n.mint s.input)
  have hentry := hrecord.trans (onlyLearns_enter _ (n.mint.record s.input).1 (Engine.entryCell s))
  have hanchored := hentry.trans (onlyLearns_write _ (.firstBehaviour n.fresh)
    (by simp [Key.Counter])
    ((n.mint.record s.input).2.enter (n.mint.record s.input).1 (Engine.entryCell s)).1)
  unfold accept
  dsimp only
  generalize n.mint.record s.input = information at *
  generalize information.2.enter information.1 (Engine.entryCell s) = entry at *
  refine ⟨?_, congrArg (· ++ _) hanchored.events, _, information.1, entry.1,
    congrArg (· ++ _) hanchored.queue⟩
  refine hanchored.neutral.trans ⟨fun _ _ => rfl, rfl, [.accepted s.session n.fresh], rfl, ?_⟩
  simp [Event.Plain]

end Net

/-! ## Turns -/

variable {σ : Type} [Store σ] [FaultFree σ]

/-- What a step of an engine of standard cells comes to: it begins a tree, carries a payload on, or
concludes a result. -/
inductive Turn (σ : Type) [Store σ] [FaultFree σ] (e : Engine) (born : String → Submission → Prop)
    (n : Net) : Label → Net → Prop
  | began (s : Submission) {q : Payload} {m : Net} (hneutral : n.Neutral m)
    (hqueue : m.queue = n.queue ++ [q.encode]) (htree : q.context.tree = some n.fresh)
    (hpass : q.context.pass = 0) : Turn σ e born n (.accepted s (.ok n.fresh)) m
  | carried {before after : List String} {p : Payload} {tree : String} {s : Submission}
    {result : Except EngineError Outcome} {qs : List Payload} {m : Net}
    (hqueue : n.queue = before ++ p.encode :: after) (hborn : born tree s)
    (hsound : Sound σ e.registry (n.requeue (before ++ after)) tree s p) (hneutral : n.Neutral m)
    (hqueued : m.queue = before ++ after ++ qs.map Payload.encode)
    (hqs : ∀ q ∈ qs, q.context.tree = p.context.tree ∧ q.context.pass = p.context.pass)
    (hother : p.context.cell ≠ some Cell.outputName) :
    Turn σ e born n (.processed p result (qs.map Payload.encode)) m
  | concluded {before after : List String} {p : Payload} {tree : String}
    {s : Submission} {v : Value} {vs : List Value} {r : Except CellError (List Value)} {m : Net}
    (hqueue : n.queue = before ++ p.encode :: after) (hborn : born tree s)
    (hsound : Sound σ e.registry (n.requeue (before ++ after)) tree s p)
    (hbinding : n.text (.binding p.destination) = some Cell.outputName) (hargs : p.args = v :: vs)
    (h : Cell.Concluded e.config.maxRetraversals (n.requeue (before ++ after)) p.context
    tree s.session
      v.display r m) :
    Turn σ e born n
      (.processed p ((r.mapError EngineError.cell).map fun _ => .terminated)
        (m.queue.drop (before ++ after).length))
      (m.report p ((r.mapError EngineError.cell).map fun _ => .terminated))

theorem Moves.turn {e : Engine} {born : String → Submission → Prop} {n m : Net} {d : Label}
    (h : Moves σ e (fun n m => m = n) born n d m) : Turn σ e born n d m := by
  cases h with
  | accept s =>
    obtain ⟨hneutral, _, id, i, b, hqueue⟩ := n.accept_announced s
    exact .began s hneutral hqueue rfl rfl
  | process hqueue hborn hsound hbinding hcell hprocessed =>
    rename_i before after p tree name s cell result m
    have hrequeue : n.Neutral (n.requeue (before ++ after)) := Net.neutral_of_eq rfl rfl rfl
    -- what is queued is read off the queue behind what was there before
    have hcarried : ∀ {m'} (qs : List Payload), (n.requeue (before ++ after)).Neutral m' →
        m'.queue = before ++ after ++ qs.map Payload.encode →
        (∀ q ∈ qs, q.context.tree = p.context.tree ∧ q.context.pass = p.context.pass) →
        cell.name ≠ Cell.outputName →
        Turn σ e born n (.processed p result (m'.queue.drop (before ++ after).length)) m' := by
      intro m' qs hneutral hqueued hqs hother
      rw [hqueued, List.drop_left]
      refine .carried hqueue hborn hsound (hrequeue.trans hneutral) hqueued hqs fun hout =>
        hother ?_
      obtain ⟨name', hname, hbinding'⟩ := hsound.cell
      obtain rfl := Option.mem_unique hbinding hbinding'
      obtain rfl := Option.mem_unique hname hout
      exact Registry.name_of_get? hcell
    cases hprocessed with
    | objected hother hm name objection =>
      subst hm
      exact hcarried [] (Net.neutral_announce _ _ trivial) (by simp [Net.report]) (by simp) hother
    | ended hother hm hterminal =>
      subst hm
      exact hcarried [] (.refl _) (by simp [Net.report]) (by simp) hother
    | passedOn hother hm hterminal hyields hconnected =>
      subst hm
      rename_i m₁ results behaviours
      have hlearns := Net.onlyLearns_connected hconnected
      obtain ⟨hneutral, qs, hqueued, hqs⟩ := Net.neutral_queueAll { p with args := results }
        p.destination behaviours m₁
      refine hcarried qs ((hlearns.neutral.trans hneutral).trans (Net.neutral_close _ _ _))
        ?_ hqs hother
      show (Net.close _ _ _).queue = _
      rw [Net.close_queue, hqueued, hlearns.queue]
      rfl
    | concluded hcell' hargs hconcluded =>
      subst hcell'
      have hname : name = Cell.outputName := (Registry.name_of_get? hcell).symm
      subst hname
      have hturn := Turn.concluded hqueue hborn hsound hbinding hargs hconcluded
      rw [← Net.report_queue m p] at hturn
      exact hturn

/-! ## Turns and trees -/

/-- An event that says what became of a result of a tree. -/
def Event.verdictOn (tree : String) : Event → Bool
  | .emitted _ t _ | .expectationNotMet t _ | .budgetExhausted t _ => t == tree
  | _ => false

/-- What restarts a tree: the output cell forwards nothing, and what it queues begins the tree
anew. -/
def Label.restarts (tree : String) : Label → List String
  | .accepted _ _ => []
  | .processed p _ queued =>
    if p.context.cell = some Cell.outputName ∧ p.context.tree = some tree then queued else []

/-- The counters of a tree are left as they are, no verdict on it is announced, and what is queued
for it continues a walk that was under way, or begins the first. -/
structure Net.Spares (n m : Net) (t : String) : Prop where
  done : m.text (.done t) = n.text (.done t)
  retraversals : m.text (.retraversals t) = n.text (.retraversals t)
  misses : ∀ pass, m.text (.misses t pass) = n.text (.misses t pass)
  verdicts : m.events.filter (Event.verdictOn t) = n.events.filter (Event.verdictOn t)
  passes : ∀ q : Payload, q.encode ∈ m.queue → q.context.tree = some t → q.context.pass = 0 ∨
    ∃ q' : Payload, q'.encode ∈ n.queue ∧ q'.context.tree = some t ∧ q'.context.pass =
      q.context.pass

theorem filter_verdictOn_of_plain {es : List Event} (h : ∀ e ∈ es, e.Plain) (tree : String) :
    es.filter (Event.verdictOn tree) = [] := by
  rw [List.filter_eq_nil_iff]
  intro e he hverdict
  have hplain := h e he
  cases e <;> first | exact hplain.elim | exact absurd hverdict (by simp [Event.verdictOn])

theorem encode_mem_map {q : Payload} {qs : List Payload} :
    q.encode ∈ qs.map Payload.encode ↔ q ∈ qs := by
  rw [List.mem_map]
  constructor
  · rintro ⟨q', hq', heq⟩
    exact Payload.encode_inj.mp heq ▸ hq'
  · intro hq
    exact ⟨q, hq, rfl⟩

theorem mem_of_requeued {n : Net} {before after : List String} {item item' : String}
    (hqueue : n.queue = before ++ item :: after) (h : item' ∈ before ++ after) : item' ∈ n.queue :=
  (Net.alike_requeue hqueue).queue item' h

theorem Net.Neutral.spares {n m : Net} (h : n.Neutral m) {tree : String}
    (hpasses : ∀ q : Payload, q.encode ∈ m.queue → q.context.tree = some tree → q.context.pass = 0 ∨
      ∃ q' : Payload, q'.encode ∈ n.queue ∧ q'.context.tree = some tree ∧
        q'.context.pass = q.context.pass) : n.Spares m tree where
  done := h.counters _ trivial
  retraversals := h.counters _ trivial
  misses _ := h.counters _ trivial
  verdicts := by
    obtain ⟨es, hes, hplain⟩ := h.events
    rw [hes, List.filter_append, filter_verdictOn_of_plain hplain, List.append_nil]
  passes := hpasses

/-- What is queued by a conclusion belongs to the tree concluded. -/
theorem concluded_queue {limit : UInt32} {n m : Net} {ctx : Context} {tree session output : String}
    {r : Except CellError (List Value)} (h : Cell.Concluded limit n ctx tree session output r m) :
    ∃ qs : List Payload, m.queue = n.queue ++ qs.map Payload.encode ∧
      ∀ q ∈ qs, q.context.tree = ctx.tree := by
  cases h with
  | answered | delivered | passedOver | exhausted =>
    exact ⟨[], by simp [Net.count], by simp⟩
  | restarted =>
    refine ⟨[_], rfl, fun q hq => ?_⟩
    rw [List.mem_singleton.mp hq]
    rfl

theorem count_text_of_ne {n : Net} {k k' : Key} (h : k' ≠ k) : (n.count k).text k' = n.text k' :=
  Function.update_of_ne h _ _

/-- A conclusion about one tree leaves the counters of all other trees as they are, and announces no
verdict on them. -/
theorem concluded_of_ne {limit : UInt32} {n m : Net} {p : Payload} {tree session output : String}
    {r : Except CellError (List Value)}
    (h : Cell.Concluded limit n p.context tree session output r m) {t : String} (hne : t ≠ tree)
    {k : Key} (hk : k = .done t ∨ k = .retraversals t ∨ ∃ pass, k = .misses t pass) :
    m.text k = n.text k ∧
      (m.report p ((r.mapError EngineError.cell).map fun _ => .terminated)).events.filter
        (Event.verdictOn t) = n.events.filter (Event.verdictOn t) := by
  have hdone : k ≠ .done tree := by
    rcases hk with rfl | rfl | ⟨pass, rfl⟩ <;> simp [hne]
  have hretraversals : k ≠ .retraversals tree := by
    rcases hk with rfl | rfl | ⟨pass, rfl⟩ <;> simp [hne]
  have hmisses : k ≠ .misses tree p.context.pass := by
    rcases hk with rfl | rfl | ⟨pass, rfl⟩ <;> simp [hne]
  have hverdict : (tree == t) = false := beq_eq_false_iff_ne.mpr hne.symm
  cases h with
  | answered => exact ⟨rfl, rfl⟩
  | delivered =>
    refine ⟨count_text_of_ne hdone, ?_⟩
    show (n.events ++ [_]).filter _ = _
    simp [List.filter_append, Event.verdictOn, hverdict]
  | passedOver => exact ⟨count_text_of_ne hmisses, rfl⟩
  | exhausted =>
    refine ⟨(count_text_of_ne hretraversals).trans (count_text_of_ne hmisses), ?_⟩
    show (n.events ++ [_]).filter _ = _
    simp [List.filter_append, Event.verdictOn, hverdict]
  | restarted =>
    refine ⟨(count_text_of_ne hretraversals).trans (count_text_of_ne hmisses), ?_⟩
    show (n.events ++ [_]).filter _ = _
    simp [List.filter_append, Event.verdictOn, hverdict]

section

variable {limit : UInt32} {n m : Net} {before after : List String} {p : Payload}
  {tree session output : String}
  {r : Except CellError (List Value)} (hqueue : n.queue = before ++ p.encode :: after)
  (h : Cell.Concluded limit (n.requeue (before ++ after)) p.context tree session output r m)

include hqueue h

/-- A tree that was answered is left alone. -/
theorem spares_of_answered {text : String} (hdone : n.text (.done tree) = some text) :
    n.Spares (m.report p ((r.mapError EngineError.cell).map fun _ => .terminated)) tree ∧
      Label.restarts tree (.processed p ((r.mapError EngineError.cell).map fun _ => .terminated)
        (m.queue.drop (before ++ after).length)) = [] := by
  have hanswered : (n.requeue (before ++ after)).text (.done tree) ≠ none := by
    rw [Net.requeue_text, hdone]
    simp
  cases h with
  | answered =>
    refine ⟨⟨rfl, rfl, fun _ => rfl, rfl, fun q hq htree => Or.inr ?_⟩, ?_⟩
    · exact ⟨q, mem_of_requeued hqueue hq, htree, rfl⟩
    · rw [Net.requeue_queue, List.drop_length, Label.restarts, ite_self]
  | delivered hnone | passedOver hnone | exhausted hnone | restarted hnone =>
    exact absurd hnone hanswered

/-- A conclusion about one tree leaves the others alone. -/
theorem spares_of_ne (htree : p.context.tree = some tree) {t : String} (hne : t ≠ tree) :
    n.Spares (m.report p ((r.mapError EngineError.cell).map fun _ => .terminated)) t ∧
      Label.restarts t (.processed p ((r.mapError EngineError.cell).map fun _ => .terminated)
        (m.queue.drop (before ++ after).length)) = [] := by
  obtain ⟨qs, hqueued, hqs⟩ := concluded_queue h
  have hkeep := fun k hk => concluded_of_ne h hne (k := k) hk
  refine ⟨⟨?_, ?_, fun pass => ?_, ?_, fun q hq heq => Or.inr ?_⟩, ?_⟩
  · rw [Net.report_text]
    exact (hkeep _ (Or.inl rfl)).1
  · rw [Net.report_text]
    exact (hkeep _ (Or.inr (Or.inl rfl))).1
  · rw [Net.report_text]
    exact (hkeep _ (Or.inr (Or.inr ⟨pass, rfl⟩))).1
  · exact (hkeep _ (Or.inl rfl)).2
  · rw [Net.report_queue, hqueued] at hq
    rcases List.mem_append.mp hq with hq | hq
    · exact ⟨q, mem_of_requeued hqueue hq, heq, rfl⟩
    · exact absurd (Option.mem_unique heq ((hqs q (encode_mem_map.mp hq)).trans htree)) hne
  · exact if_neg fun hout => hne (Option.mem_unique hout.2 htree)

end

/-- For each tree, a step spares it, or concludes a result of it before it was answered. -/
inductive TurnOn (e : Engine) (born : String → Submission → Prop) (n : Net) (tree : String) :
    Label → Net → Prop
  | spared {d : Label} {m : Net} (hspares : n.Spares m tree) (hrestarts : d.restarts tree = []) :
    TurnOn e born n tree d m
  | concluded {before after : List String} {p : Payload} {s : Submission} {output : String}
    {r : Except CellError (List Value)} {m : Net} (hqueue : n.queue = before ++ p.encode :: after)
    (hborn : born tree s) (htree : p.context.tree = some tree)
    (hcell : p.context.cell = some Cell.outputName) (hdone : n.text (.done tree) = none)
    (h : Cell.Concluded e.config.maxRetraversals (n.requeue (before ++ after)) p.context
    tree s.session
      output r m) :
    TurnOn e born n tree
      (.processed p ((r.mapError EngineError.cell).map fun _ => .terminated)
        (m.queue.drop (before ++ after).length))
      (m.report p ((r.mapError EngineError.cell).map fun _ => .terminated))

theorem Turn.on {e : Engine} {born : String → Submission → Prop} {n m : Net} {d : Label}
    (h : Turn σ e born n d m) (tree : String) : TurnOn e born n tree d m := by
  cases h with
  | @began s q _ hneutral hqueue _ hpass =>
    refine .spared (hneutral.spares fun q' hq' htree' => ?_) rfl
    rw [hqueue] at hq'
    rcases List.mem_append.mp hq' with hq' | hq'
    · exact Or.inr ⟨q', hq', htree', rfl⟩
    · obtain rfl := Payload.encode_inj.mp (List.mem_singleton.mp hq')
      exact Or.inl hpass
  | @carried before after p _ s result qs _ hqueue hborn hsound hneutral hqueued hqs hother =>
    refine .spared (hneutral.spares fun q hq htree => Or.inr ?_) ?_
    · rw [hqueued] at hq
      rcases List.mem_append.mp hq with hq | hq
      · exact ⟨q, mem_of_requeued hqueue hq, htree, rfl⟩
      · obtain ⟨htree', hpass⟩ := hqs q (encode_mem_map.mp hq)
        refine ⟨p, ?_, htree'.symm.trans htree, hpass.symm⟩
        rw [hqueue]
        exact List.mem_append_right _ List.mem_cons_self
    · exact if_neg fun hout => hother hout.1
  | @concluded before after p t s v vs r m₀ hqueue hborn hsound hbinding hargs hconcluded =>
    by_cases htree : tree = t
    · subst htree
      cases hdone : n.text (.done tree) with
      | none =>
        obtain ⟨name, hname, hbinding'⟩ := hsound.cell
        obtain rfl := Option.mem_unique hbinding hbinding'
        exact .concluded hqueue hborn hsound.tree hname hdone hconcluded
      | some text =>
        obtain ⟨hspares, hrestarts⟩ := spares_of_answered hqueue hconcluded hdone
        exact .spared hspares hrestarts
    · obtain ⟨hspares, hrestarts⟩ := spares_of_ne hqueue hconcluded hsound.tree htree
      exact .spared hspares hrestarts

end SelfWiring
