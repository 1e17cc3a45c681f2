import SelfWiring.Proofs.Provenance

/-!
# One honest answer for each tree

A tree is answered when a result of it is delivered. The counter `done` of the tree is set by the
same step that delivers the result and announces the delivery, and no step after it concludes
anything about the tree. The outputs of a session are the results whose delivery to it was
announced, in order.
-/

namespace SelfWiring

/-- Whether an event delivers a result of a tree. -/
def Event.answers (tree : String) : Event → Bool
  | .emitted _ t _ => t == tree
  | _ => false

/-- The result that an event delivers to a session. -/
def Event.outputFor? (session : String) : Event → Option String
  | .emitted s _ output => if s = session then some output else none
  | _ => none

/-- An event that delivers nothing. -/
def Event.Silent : Event → Prop
  | .emitted _ _ _ => False
  | _ => True

theorem Event.Plain.silent {e : Event} (h : e.Plain) : e.Silent := by
  cases e <;> first | exact h.elim | trivial

theorem filter_answers_of_silent {es : List Event} (h : ∀ e ∈ es, e.Silent) (tree : String) :
    es.filter (Event.answers tree) = [] := by
  rw [List.filter_eq_nil_iff]
  intro e he
  have hsilent := h e he
  cases e <;> first | exact hsilent.elim | simp [Event.answers]

theorem filterMap_outputFor?_of_silent {es : List Event} (h : ∀ e ∈ es, e.Silent)
    (session : String) : es.filterMap (Event.outputFor? session) = [] := by
  rw [List.filterMap_eq_nil_iff]
  intro e he
  have hsilent := h e he
  cases e <;> first | exact hsilent.elim | rfl

/-- What was delivered is what was announced: a tree is done when its one delivery was announced,
and the outputs of a session are those announced for it. -/
structure Net.Answered (n : Net) : Prop where
  once : ∀ tree, (n.events.filter (Event.answers tree)).length =
    if (n.text (.done tree)).isSome then 1 else 0
  outputs : ∀ session, n.outputs session = n.events.filterMap (Event.outputFor? session)

namespace Net

variable {n m : Net}

/-- Events are added that deliver nothing. -/
def DeliversNothing (n m : Net) : Prop := ∃ es, m.events = n.events ++ es ∧ ∀ e ∈ es, e.Silent

theorem Neutral.deliversNothing (h : n.Neutral m) : n.DeliversNothing m := by
  obtain ⟨es, hes, hplain⟩ := h.events
  exact ⟨es, hes, fun e he => (hplain e he).silent⟩

theorem deliversNothing_report (n : Net) (p : Payload) (r : Except EngineError Outcome) :
    n.DeliversNothing (n.report p r) := by
  unfold report
  split
  · exact ⟨[], by simp, by simp⟩
  all_goals exact ⟨[_], rfl, by simp [Event.Silent]⟩

theorem report_outputs (n : Net) (p : Payload) (r : Except EngineError Outcome) :
    (n.report p r).outputs = n.outputs := by
  unfold report
  split <;> rfl

theorem Answered.deliversNothing (h : n.Answered)
    (hdone : ∀ tree, m.text (.done tree) = n.text (.done tree))
    (houtputs : m.outputs = n.outputs) (hdelivers : n.DeliversNothing m) : m.Answered := by
  obtain ⟨es, hes, hsilent⟩ := hdelivers
  refine ⟨fun tree => ?_, fun session => ?_⟩
  · rw [hes, List.filter_append, filter_answers_of_silent hsilent, List.append_nil, hdone]
    exact h.once tree
  · rw [hes, List.filterMap_append, filterMap_outputFor?_of_silent hsilent,
      List.append_nil, houtputs]
    exact h.outputs session

/-- Counting a delivery, adding the result to the outputs of its session and announcing it go
together. -/
theorem Answered.deliver (h : n.Answered) {tree : String} (hdone : n.text (.done tree) = none)
    (session output : String) :
    (((n.count (.done tree)).deliver session output).announce
      (.emitted session tree output)).Answered := by
  refine ⟨fun t => ?_, fun s => ?_⟩
  · have honce := h.once t
    show ((n.events ++ [_]).filter _).length =
      if ((n.count (.done tree)).text (.done t)).isSome then 1 else 0
    rw [List.filter_append, List.length_append, honce]
    by_cases heq : tree = t
    · subst heq
      simp [hdone, count, Event.answers]
    · have hne : Key.done t ≠ Key.done tree := by
        simpa using Ne.symm heq
      rw [count_text_of_ne hne]
      simp [Event.answers, heq]
  · show Function.update n.outputs session (n.outputs session ++ [output]) s =
      (n.events ++ [_]).filterMap _
    rw [List.filterMap_append, ← h.outputs]
    by_cases heq : session = s
    · subst heq
      simp [Event.outputFor?]
    · rw [Function.update_of_ne (Ne.symm heq)]
      simp [Event.outputFor?, heq]

/-- Counting misses and restarts answers no tree. -/
theorem miss_text_done (n : Net) (tree : String) (pass : Int64) (t : String) :
    ((n.count (.misses tree pass)).count (.retraversals tree)).text (.done t) =
      n.text (.done t) := by
  have hretraversals : Key.done t ≠ Key.retraversals tree := by simp
  have hmisses : Key.done t ≠ Key.misses tree pass := by simp
  rw [count_text_of_ne hretraversals, count_text_of_ne hmisses]

theorem Answered.done_iff (h : n.Answered) (tree : String) : (n.text (.done tree)).isSome = true ↔
    ∃ session output, .emitted session tree output ∈ n.events := by
  have honce := h.once tree
  constructor
  · intro hdone
    rw [if_pos hdone] at honce
    have hpos : 0 < (n.events.filter (Event.answers tree)).length := by omega
    obtain ⟨event, hevent⟩ := List.length_pos_iff_exists_mem.mp hpos
    obtain ⟨hmem, hanswers⟩ := List.mem_filter.mp hevent
    cases event with
    | emitted session t output =>
      obtain rfl : t = tree := beq_iff_eq.mp hanswers
      exact ⟨session, output, hmem⟩
    | _ => exact absurd hanswers (by simp [Event.answers])
  · rintro ⟨session, output, hmem⟩
    by_contra hdone
    rw [if_neg hdone, List.length_eq_zero_iff, List.filter_eq_nil_iff] at honce
    exact honce _ hmem (by simp [Event.answers])

end Net

variable {σ : Type} [Store σ] [FaultFree σ] {e : Engine}

theorem Turn.answered {born : String → Submission → Prop} {n m : Net} {d : Label}
    (hturn : Turn σ e born n d m) (h : n.Answered) : m.Answered := by
  cases hturn with
  | began s hneutral =>
    exact h.deliversNothing (fun _ => hneutral.counters _ trivial) hneutral.outputs
      hneutral.deliversNothing
  | carried _ _ _ hneutral =>
    exact h.deliversNothing (fun _ => hneutral.counters _ trivial) hneutral.outputs
      hneutral.deliversNothing
  | @concluded before after p tree s v vs r m₀ _ _ _ _ _ hconcluded =>
    have hrequeued : (n.requeue (before ++ after)).Answered := ⟨h.once, h.outputs⟩
    have hanswered : m₀.Answered := by
      cases hconcluded with
      | answered => exact hrequeued
      | delivered hdone => exact hrequeued.deliver hdone _ _
      | passedOver =>
        exact hrequeued.deliversNothing (fun _ => count_text_of_ne (by simp)) rfl
          ⟨[], by simp [Net.count], by simp⟩
      | exhausted | restarted =>
        have hmissed := hrequeued.deliversNothing (Net.miss_text_done _ tree p.context.pass) rfl
          ⟨[], by simp [Net.count], by simp⟩
        exact ⟨hmissed.once, hmissed.outputs⟩
    exact hanswered.deliversNothing (fun _ => congrFun (Net.report_text _ _ _) _)
      (Net.report_outputs _ _ _)
      (Net.deliversNothing_report _ _ _)

theorem Run.answered (hs : e.Serves σ fun n m => m = n) {w₀ w : World σ} {ds : List Label}
    (h₀ : w₀.Empty) (hrun : Run e w₀ ds w) : w.net.Answered := by
  refine (hrun.induct hs (P := fun _ n => n.Answered) (Inv.empty h₀ e.registry) ?_ ?_).2
  · have hevents : w₀.net.events = [] := h₀.events
    refine ⟨fun tree => ?_, fun session => ?_⟩
    · simp [h₀.net_text, hevents]
    · rw [hevents]
      exact congrFun (congrArg Contents.list h₀.contents) _
  · intro _ n d m _ h hmoves
    exact hmoves.turn.answered h

/-- A tree that was answered is settled: its counters stay, nothing more is announced about its
results, and it is not restarted. -/
theorem Run.settled (hs : e.Serves σ fun n m => m = n) {w w' : World σ} {ds₀ ds : List Label}
    (h : Inv σ e.registry (Born ds₀) w.net) (hrun : Run e w ds w') {tree : String}
    (hdone : (w.net.text (.done tree)).isSome = true) :
    w'.net.events.filter (Event.verdictOn tree) = w.net.events.filter (Event.verdictOn tree) ∧
      w'.net.text (.retraversals tree) = w.net.text (.retraversals tree) ∧
        (∀ pass, w'.net.text (.misses tree pass) = w.net.text (.misses tree pass)) ∧
          ∀ d ∈ ds, d.restarts tree = [] := by
  have hinduct := (hrun.induct hs (P := fun ds n => n.text (.done tree) = w.net.text (.done tree) ∧
    n.events.filter (Event.verdictOn tree) = w.net.events.filter (Event.verdictOn tree) ∧
      n.text (.retraversals tree) = w.net.text (.retraversals tree) ∧
        (∀ pass, n.text (.misses tree pass) = w.net.text (.misses tree pass)) ∧
          ∀ d ∈ ds, d.restarts tree = []) h ⟨rfl, rfl, rfl, fun _ => rfl, by simp⟩ ?_).2
  · exact hinduct.2
  · intro ds n d m _ ⟨hkept, hverdicts, hretraversals, hmisses, hrestarts⟩ hmoves
    cases hmoves.turn.on tree with
    | spared hspares hnone =>
      refine ⟨hspares.done.trans hkept, hspares.verdicts.trans hverdicts,
        hspares.retraversals.trans hretraversals,
        fun pass => (hspares.misses pass).trans (hmisses pass), fun d' hd' => ?_⟩
      rcases List.mem_append.mp hd' with hd' | hd'
      · exact hrestarts d' hd'
      · rw [List.mem_singleton.mp hd']
        exact hnone
    | concluded _ _ _ _ hundone =>
      -- only a tree that is not done is concluded
      rw [← hkept, hundone] at hdone
      exact absurd hdone (by simp)

/-- In a run from an empty store, at most one result of a tree is delivered; it goes to the session
of the submission of the tree and is the result expected if there was one. What a session holds is
what was announced for it, a tree is done when it was answered, and once answered it is settled for
good. -/
theorem single_honest_answer {config : Config}
    (he : Engine.assemble { config, cells := some (Cell.standard config) } = .ok e) {w₀ w : World σ}
    {ds : List Label} (h₀ : w₀.Empty) (hrun : Run e w₀ ds w) :
    (∀ tree, (w.events.filter (Event.answers tree)).length ≤ 1) ∧
    (∀ session tree output, .emitted session tree output ∈ w.events →
      (∃ s, Born ds tree s) ∧ ∀ s, Born ds tree s →
        session = s.session ∧ ∀ x, s.expectation = some x → output = x) ∧
    (∀ session, w.outputs session = w.events.filterMap (Event.outputFor? session)) ∧
    (∀ tree, (w.text (.done tree)).isSome = true ↔
      ∃ session output, .emitted session tree output ∈ w.events) ∧
    ∀ session tree output, .emitted session tree output ∈ w.events → ∀ ds' w', Run e w ds' w' →
      w'.events.filter (Event.verdictOn tree) = w.events.filter (Event.verdictOn tree) ∧
      (∀ d ∈ ds', d.restarts tree = []) ∧
      w'.text (.retraversals tree) = w.text (.retraversals tree) ∧
      ∀ pass, w'.text (.misses tree pass) = w.text (.misses tree pass) := by
  have hs := Engine.serves_of_standard (σ := σ) he
  have hanswered := hrun.answered hs h₀
  have hdone : ∀ tree, w.net.text (.done tree) = w.text (.done tree) := fun tree =>
    World.net_text w (.done tree) trivial
  refine ⟨fun tree => ?_, fun session tree output hemitted => ?_, hanswered.outputs, fun tree => ?_,
    fun session tree output hemitted ds' w' hrun' => ?_⟩
  · have honce : (w.events.filter (Event.answers tree)).length = _ := hanswered.once tree
    rw [honce]
    split <;> omega
  · obtain ⟨s, hborn, hsession, hexpectation, _⟩ := delivered_of_emitted hs h₀ hrun hemitted
    refine ⟨⟨s, hborn⟩, fun s' hborn' => ?_⟩
    obtain rfl := born_unique hs h₀ hrun hborn hborn'
    exact ⟨hsession, hexpectation⟩
  · rw [← hdone]
    exact hanswered.done_iff tree
  · obtain ⟨hverdicts, hretraversals, hmisses, hrestarts⟩ := hrun'.settled hs (run_inv hs h₀ hrun)
      ((hanswered.done_iff tree).mpr ⟨session, output, hemitted⟩)
    rw [World.net_text w (.retraversals tree) trivial,
      World.net_text w' (.retraversals tree) trivial] at hretraversals
    refine ⟨hverdicts, hrestarts, hretraversals, fun pass => ?_⟩
    have hpass := hmisses pass
    rw [World.net_text w (.misses tree pass) trivial,
      World.net_text w' (.misses tree pass) trivial] at hpass
    exact hpass

/-- A run in which a result is delivered. -/
theorem single_honest_answer_of_echo :
    ∃ (e : Engine) (ds : List Label) (w : World Memory) (tree : String),
    Engine.assemble { cells := some (Cell.standard {}) } = .ok e ∧
    Run e (.inMemory 0) ds w ∧ .emitted "a" tree "4" ∈ w.events ∧
    (w.events.filter (Event.answers tree)).length ≤ 1 ∧ w.outputs "a" = ["4"] ∧
    (w.text (.done tree)).isSome = true ∧
    ∀ s, Born ds tree s → s.session = "a" ∧ ∀ x, s.expectation = some x → x = "4" := by
  obtain ⟨e, he⟩ := Engine.exists_standard {} rfl
  have h₀ := World.empty_inMemory 0
  obtain ⟨p, w, hrun, hevents⟩ := exists_run_delivered (Engine.serves_of_standard he) h₀
    (s := { input := "4", echo := true, session := "a", expectation := some "4" }) rfl (by simp)
  obtain ⟨honce, hhonest, houtputs, hdone, _⟩ := single_honest_answer he h₀ hrun
  have hemitted : .emitted "a" (World.inMemory 0).net.fresh "4" ∈ w.events := by
    rw [hevents]
    exact List.mem_cons_of_mem _ List.mem_cons_self
  refine ⟨e, _, w, _, he, hrun, hemitted, honce _, ?_, (hdone _).mpr ⟨_, _, hemitted⟩,
    fun s hborn => ?_⟩
  · rw [houtputs, hevents]
    rfl
  · obtain ⟨hsession, hexpectation⟩ := (hhonest _ _ _ hemitted).2 s hborn
    exact ⟨hsession.symm, fun x hx => (hexpectation x hx).symm⟩

end SelfWiring
